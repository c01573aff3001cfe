import Armd.StartStop
import Armd.Traversal

/-!
The life cycle of the modules on its own: the states of the handles and mutexes,
the lists of the event loop and the log of what was started, stopped, opened and
closed (`Core`). Callbacks that leave it and the registry alone (`Quiet`) make
starting, stopping and the loops over the registry functions of it
(`start_core`, `stop_core`, `startEach_core`, `stopEach_core`, `closing_core`).
-/
namespace Armd.Lifecycle
open Armd.Programs Armd.Message Armd.Queue Armd.Memory Armd.Module Armd.Registry Armd.RegistryModel Armd.Traversal
  Armd.StartStop

variable {M : Type} [DecidableEq M]

/-- The part of an event that belongs to the life cycle; message traffic and registration have none. -/
def lifecycleEvent : Event M → Option (Event M)
  | .queueReset m found _ => some (.queueReset m found [])
  | .registered _ _ => none
  | .unregistered _ _ => none
  | .onMessage _ _ => none
  | .mutexLock _ _ => none
  | .asyncSend _ _ => none
  | .posted _ _ _ => none
  | e => some e

structure Core (M : Type) where
  handle : Handle M → HandleState
  loops : Handle M → LoopRef
  mutex : M → Mutex
  uvLoop : UvLoop M
  log : List (Event M)

def core (w : World M) : Core M where
  handle := fun h => (w.async h).state
  loops := fun h => (w.async h).loop
  mutex := fun m => (w.modules m).msgQueue.qMutex
  uvLoop := w.uvLoop
  log := w.trace.filterMap lifecycleEvent

namespace Core

def note (c : Core M) (e : Event M) : Core M := { c with log := c.log ++ [e] }
def setHandle (c : Core M) (h : Handle M) (state : HandleState) : Core M :=
  { c with handle := Function.update c.handle h state }
def setMutex (c : Core M) (m : M) (mutex : Mutex) : Core M := { c with mutex := Function.update c.mutex m mutex }

def openHandle (c : Core M) (h : Handle M) : Core M :=
  { c.setHandle h .active with
    loops := Function.update c.loops h .defaultLoop
    uvLoop := { c.uvLoop with
      asyncHandles := c.uvLoop.asyncHandles ++ [h]
      activeHandles := c.uvLoop.activeHandles+1 } }

def closeHandle (c : Core M) (h : Handle M) : Core M :=
  { c.setHandle h .closing with
    uvLoop := {
      asyncHandles := c.uvLoop.asyncHandles.filter (· ≠ h)
      closingHandles := h :: c.uvLoop.closingHandles
      activeHandles := c.uvLoop.activeHandles-1 } }

/-- A module whose mutex is initialised and whose queue is reset. -/
def reset (c : Core M) (m : M) : Core M :=
  (((c.setMutex m .live).note (.startCalled m)).note (.mutexInit m (c.mutex m))).note
    (.queueReset m (c.handle (.module m)) [])

def destroyMutex (c : Core M) (m : M) : Core M := (c.setMutex m .destroyed).note (.mutexDestroy m (c.mutex m))

section
variable (c : Core M) (e : Event M) (h : Handle M) (m : M) (mutex : Mutex)

omit [DecidableEq M] in
@[simp] theorem note_handle : (c.note e).handle = c.handle := rfl
omit [DecidableEq M] in
@[simp] theorem note_mutex : (c.note e).mutex = c.mutex := rfl
@[simp] theorem setMutex_handle : (c.setMutex m mutex).handle = c.handle := rfl
@[simp] theorem setMutex_mutex : (c.setMutex m mutex).mutex = Function.update c.mutex m mutex := rfl
@[simp] theorem setMutex_log : (c.setMutex m mutex).log = c.log := rfl
@[simp] theorem openHandle_handle : (c.openHandle h).handle = Function.update c.handle h .active := rfl
@[simp] theorem openHandle_mutex : (c.openHandle h).mutex = c.mutex := rfl
@[simp] theorem openHandle_log : (c.openHandle h).log = c.log := rfl
@[simp] theorem closeHandle_handle : (c.closeHandle h).handle = Function.update c.handle h .closing := rfl
@[simp] theorem closeHandle_mutex : (c.closeHandle h).mutex = c.mutex := rfl
@[simp] theorem closeHandle_log : (c.closeHandle h).log = c.log := rfl

end

end Core

/-- What `uv_async_init` and `on_start` return for each module. -/
structure Outcomes (M : Type) where
  init : M → ℤ
  start : M → ℤ

/-- `armd_module_start` on the life cycle. -/
def startCore (sys : System M) (o : Outcomes M) (c : Core M) (m : M) : ℤ × Core M :=
  match sys.mops m with
  | none => (-einval,(c.note (.startCalled m)).note (.started m (-einval)))
  | some mops =>
    let c₁ := (c.reset m).note (.asyncInit (.module m) (c.handle (.module m)) (o.init m))
    if o.init m < 0 then (o.init m,(c₁.destroyMutex m).note (.started m (o.init m)))
    else
      let c₂ := c₁.openHandle (.module m)
      match mops.onStart with
      | none => (0,c₂.note (.started m 0))
      | some _ =>
        let c₃ := c₂.note (.onStart m)
        if o.start m < 0 then
          (o.start m,((((c₃.note (.close (.module m) .active)).closeHandle (.module m)).destroyMutex m).note
            (.started m (o.start m))))
        else (0,c₃.note (.started m 0))

/-- `armd_module_stop` on the life cycle; no result is the failed assertion of `uv_close`. -/
def stopCore (sys : System M) (c : Core M) (m : M) : Option (Core M) :=
  match sys.mops m with
  | none => some ((c.note (.stopCalled m)).note (.stopped m))
  | some mops =>
    let c₁ := c.note (.stopCalled m)
    let c₂ := if mops.onStop.isSome then c₁.note (.onStop m) else c₁
    if c.handle (.module m) = .active then
      some ((((c₂.note (.close (.module m) .active)).closeHandle (.module m)).destroyMutex m).note (.stopped m))
    else none

/-- Every open handle belongs to the loop. -/
def Wired (c : Core M) : Prop := ∀ h, c.handle h = .active → c.loops h = .defaultLoop

/-- The callbacks leave the life cycle and the registry alone and return what the outcomes say. They may rely
    on the loop of every open handle, so they may post to modules that run; the `on_stop` of a module that does
    not run may crash. -/
structure Quiet (sys : System M) (o : Outcomes M) : Prop where
  init : ∀ w m, sys.uvAsyncInitRet w (.module m) = o.init m
  registry : RegistryQuiet sys
  onStart : ∀ m mops f, sys.mops m = some mops → mops.onStart = some f →
    ∀ w, Wired (core w) → (core w).handle (.module m) = .active → ∃ w', f m w = .done (o.start m) w' ∧ core w' = core w
  onStop : ∀ m mops f, sys.mops m = some mops → mops.onStop = some f →
    ∀ w, Wired (core w) → (∃ ret w', f m w = .done ret w' ∧ core w' = core w) ∨
      ((core w).handle (.module m) ≠ .active ∧ ∃ w', f m w = .abort w' ∧ core w' = core w)

/-! ### What the operations do to the life cycle -/

omit [DecidableEq M] in
theorem core_record {w : World M} {e e' : Event M} (part : lifecycleEvent e = some e') :
    core (w.record e) = (core w).note e' := by
  simp only [core,World.record,Core.note,List.filterMap_append,List.filterMap_cons,part,List.filterMap_nil]
  rfl

theorem async_setModule (w : World M) (m : M) (module : ArmdModule) :
    (w.setModule m module).async = Function.update w.async (.module m) module.async := by
  funext h
  cases h with
  | shutdown => rfl
  | module m' =>
    by_cases same : m' = m
    · subst same; simp [World.async,World.setModule]
    · simp [World.async,World.setModule,same]

/-- Only the mutex of a module object changes. -/
theorem core_setModule (w : World M) (m : M) {module : ArmdModule} (same : module.async = (w.modules m).async) :
    core (w.setModule m module) = (core w).setMutex m module.msgQueue.qMutex := by
  have asyncs : (w.setModule m module).async = w.async := by
    rw [async_setModule,same]; exact Function.update_eq_self (Handle.module m) _
  simp only [core,asyncs,Core.setMutex,Core.mk.injEq,true_and]
  refine ⟨?_,rfl,rfl⟩
  funext m'
  by_cases other : m' = m
  · subst other; simp [World.setModule]
  · simp [World.setModule,other]

theorem core_setAsync (w : World M) (h : Handle M) (async : UvAsync) : core (w.setAsync h async) =
    { (core w).setHandle h async.state with loops := Function.update (core w).loops h async.loop } := by
  have asyncs : (w.setAsync h async).async = Function.update w.async h async := by
    cases h with
    | module m => exact async_setModule w m _
    | shutdown => funext h'; cases h' <;> simp [World.async,World.setAsync]
  have mutexes : (fun m => ((w.setAsync h async).modules m).msgQueue.qMutex) =
      fun m => (w.modules m).msgQueue.qMutex := by
    funext m'
    cases h with
    | shutdown => rfl
    | module m =>
      by_cases same : m' = m
      · subst same; simp [World.setAsync,World.setModule]
      · simp [World.setAsync,World.setModule,same]
  have rest : (w.setAsync h async).uvLoop = w.uvLoop ∧ (w.setAsync h async).trace = w.trace := by cases h <;> exact ⟨rfl,rfl⟩
  simp only [core,Core.setHandle,Core.mk.injEq,asyncs,mutexes,rest,and_true]
  constructor <;> funext h' <;> by_cases same : h' = h <;> simp [same]

/-- The state of a handle changes, its loop does not. -/
theorem core_setState (w : World M) (h : Handle M) {async : UvAsync} (same : async.loop = (w.async h).loop) :
    core (w.setAsync h async) = (core w).setHandle h async.state := by
  have loops : Function.update (core w).loops h (w.async h).loop = (core w).loops := Function.update_eq_self h _
  rw [core_setAsync,same,loops]
  rfl

theorem core_setMutex (w : World M) (m : M) (mutex : Mutex) : core (w.setMutex m mutex) = (core w).setMutex m mutex :=
  core_setModule w m rfl

theorem core_initHandle (w : World M) (h : Handle M) : core (initHandle w h) = (core w).openHandle h := by
  have loop : core (initHandle w h) = { core (w.setAsync h ⟨.defaultLoop,.active,false⟩) with
      uvLoop := { w.uvLoop with
        asyncHandles := w.uvLoop.asyncHandles ++ [h]
        activeHandles := w.uvLoop.activeHandles+1 } } := rfl
  rw [loop,core_setAsync]
  rfl

theorem core_closeHandle (w : World M) (h : Handle M) : core (closeHandle w h) = (core w).closeHandle h := by
  have loop : core (closeHandle w h) =
      { core (w.setAsync h { w.async h with state := .closing, pending := true }) with
        uvLoop := {
          asyncHandles := w.uvLoop.asyncHandles.filter (· ≠ h)
          closingHandles := h :: w.uvLoop.closingHandles
          activeHandles := w.uvLoop.activeHandles-1 } } := rfl
  have closing := core_setState w h (show ({ w.async h with state := .closing, pending := true } : UvAsync).loop = _ from rfl)
  rw [loop,closing]
  rfl

theorem core_reset (w : World M) (m : M) : core (resetWorld w m) = (core w).reset m := by
  have traced : core (resetWorld w m) = { core (w.setModule m (freshModule (w.modules m))) with
      log := (w.trace ++ [Event.startCalled m,.mutexInit m (w.modules m).msgQueue.qMutex,
        .queueReset m (w.modules m).async.state (w.modules m).msgQueue.pending]).filterMap lifecycleEvent } := rfl
  have fresh := core_setModule w m (show (freshModule (w.modules m)).async = _ from rfl)
  rw [traced,fresh]
  simp only [freshModule,List.filterMap_append,Core.reset,Core.setMutex,Core.note,Core.mk.injEq,true_and,
    List.append_assoc]
  rfl

theorem core_init {sys : System M} {o : Outcomes M} (quiet : Quiet sys o) (w : World M) (m : M) :
    core (initWorld sys w m) =
      ((core w).reset m).note (.asyncInit (.module m) ((core w).handle (.module m)) (o.init m)) := by
  rw [initWorld,initRet,quiet.init,core_record rfl,core_reset]
  rfl

theorem destroy_core (w : World M) (m : M) :
    ∃ w', pthreadMutexDestroy m w = .done () w' ∧ core w' = (core w).destroyMutex m :=
  ⟨_,rfl,by rw [core_record rfl,core_setMutex]; rfl⟩

theorem close_core {w : World M} {h : Handle M} (active : (core w).handle h = .active) :
    ∃ w', uvClose h w = .done () w' ∧ core w' = ((core w).note (.close h .active)).closeHandle h := by
  have state : (w.async h).state = .active := active
  refine ⟨closeHandle (w.record (.close h .active)) h,?_,by rw [core_closeHandle,core_record rfl]⟩
  simp [uvClose,state]

/-! ### Every open handle belongs to the loop -/

section
variable {c c' : Core M} {sys : System M} {o : Outcomes M}

theorem wired_open (wired : Wired c) (h : Handle M) : Wired (c.openHandle h) := by
  intro h' active
  by_cases same : h' = h
  · subst same; simp [Core.openHandle]
  · simp only [Core.openHandle,Core.setHandle,Function.update_of_ne same] at active ⊢
    exact wired h' active

/-- A handle that leaves its state without being opened keeps its loop. -/
theorem wired_set (wired : Wired c) (h : Handle M) {state : HandleState} (notOpen : state ≠ .active) :
    Wired (c.setHandle h state) := by
  intro h' active
  by_cases same : h' = h
  · subst same; simp [Core.setHandle,notOpen] at active
  · simp only [Core.setHandle,Function.update_of_ne same] at active
    exact wired h' active

theorem wired_close (wired : Wired c) (h : Handle M) : Wired (c.closeHandle h) := wired_set wired h (by simp)

theorem wired_start (wired : Wired c) (m : M) : Wired (startCore sys o c m).2 := by
  unfold startCore
  cases sys.mops m with
  | none => exact wired
  | some mops =>
    have opened : Wired (((c.reset m).note (.asyncInit (.module m) (c.handle (.module m)) (o.init m))).openHandle
        (.module m)) := wired_open (show Wired (c.reset m) from wired) _
    dsimp only
    split
    · exact wired
    · cases mops.onStart with
      | none => exact opened
      | some f =>
        dsimp only
        split
        · exact wired_close (show Wired (_ : Core M) from opened) (.module m)
        · exact opened

theorem wired_stop (wired : Wired c) {m : M} (stops : stopCore sys c m = some c') : Wired c' := by
  unfold stopCore at stops
  cases ops : sys.mops m with
  | none => rw [ops] at stops; cases stops; exact wired
  | some mops =>
    rw [ops] at stops
    dsimp only at stops
    split at stops
    · cases stops
      refine wired_close (show Wired (Core.note _ _) from ?_) (.module m)
      show Wired (if _ then _ else _)
      split <;> exact wired
    · cases stops

end

/-! ### Starting and stopping modules -/

/-- Starting a module, as far as the life cycle goes. -/
theorem start_core {sys : System M} {o : Outcomes M} (quiet : Quiet sys o) {w : World M} (wired : Wired (core w)) (m : M) :
    ∃ w', armdModuleStart sys (some m) .defaultLoop w = .done (startCore sys o (core w) m).1 w' ∧
      core w' = (startCore sys o (core w) m).2 := by
  cases ops : sys.mops m with
  | none =>
    refine ⟨((w.record (.startCalled m)).record (.started m (-einval))),?_,?_⟩
    · simp [armdModuleStart,startModule,ops,record,startCore]
    · rw [core_record rfl,core_record rfl,startCore,ops]
  | some mops =>
    have started := start_run sys w ops
    have ret : initRet sys w m = o.init m := quiet.init _ m
    have initial := core_init quiet w m
    simp only [startCore,ops]
    by_cases failed : o.init m < 0
    · obtain ⟨w₁,destroyed,core₁⟩ := destroy_core (initWorld sys w m) m
      refine ⟨w₁.record (.started m (o.init m)),?_,?_⟩
      · simp [started,ret,failed,destroyed,record]
      · rw [core_record rfl,core₁,initial,if_pos failed]
    · have opened : core (openWorld sys w m) =
          (((core w).reset m).note (.asyncInit (.module m) ((core w).handle (.module m)) (o.init m))).openHandle
            (.module m) := by rw [openWorld,core_initHandle,initial]
      simp only [if_neg failed]
      cases onStart : mops.onStart with
      | none =>
        refine ⟨(openWorld sys w m).record (.started m 0),?_,?_⟩
        · simp [started,ret,failed,onStart,callOnStart,record]
        · rw [core_record rfl,opened]
      | some f =>
        have calling : core ((openWorld sys w m).record (.onStart m)) = ((((core w).reset m).note
            (.asyncInit (.module m) ((core w).handle (.module m)) (o.init m))).openHandle (.module m)).note
              (.onStart m) := by rw [core_record rfl,opened]
        have open₁ : (core ((openWorld sys w m).record (.onStart m))).handle (.module m) = .active := by
          rw [calling]; simp [Core.note,Core.openHandle,Core.setHandle]
        have wired₁ : Wired (core ((openWorld sys w m).record (.onStart m))) := by
          rw [calling]; exact wired_open (show Wired ((core w).reset m) from wired) _
        obtain ⟨w₁,called,core₁⟩ := quiet.onStart m mops f ops onStart _ wired₁ open₁
        by_cases refused : o.start m < 0
        · obtain ⟨w₂,closed,core₂⟩ := close_core (by rw [core₁]; exact open₁ : (core w₁).handle (.module m) = .active)
          obtain ⟨w₃,destroyed,core₃⟩ := destroy_core w₂ m
          refine ⟨w₃.record (.started m (o.start m)),?_,?_⟩
          · simp [started,ret,failed,onStart,callOnStart,record,called,refused,closed,destroyed]
          · rw [core_record rfl,core₃,core₂,core₁,calling]; simp only [if_pos refused]
        · refine ⟨w₁.record (.started m 0),?_,?_⟩
          · simp [started,ret,failed,onStart,callOnStart,record,called,refused]
          · rw [core_record rfl,core₁,calling]; simp only [if_neg refused]

/-- A run that ends in a world with the given life cycle, or aborts when there is none. -/
def Mirrors (run : Outcome (World M) Unit) : Option (Core M) → Prop
  | some c => ∃ w', run = .done () w' ∧ core w' = c
  | none => ∃ w', run = .abort w'

omit [DecidableEq M] in
theorem mirrors_andThen {run : Outcome (World M) Unit} {r : Option (Core M)} (mirrors : Mirrors run r)
    {next : Program (World M) Unit} {f : Core M → Option (Core M)}
    (onwards : ∀ w', run = .done () w' → r = some (core w') → Mirrors (next w') (f (core w'))) :
    Mirrors (run.andThen fun _ => next) (r.bind f) := by
  cases r with
  | none => obtain ⟨w',rfl⟩ := mirrors; exact ⟨w',rfl⟩
  | some c => obtain ⟨w',rfl,rfl⟩ := mirrors; exact onwards w' rfl rfl

/-- The life cycle after `on_stop` was called. -/
def calledCore (mops : ArmdModuleOps M) (c : Core M) (m : M) : Core M :=
  if mops.onStop.isSome then (c.note (.stopCalled m)).note (.onStop m) else c.note (.stopCalled m)

omit [DecidableEq M] in
theorem called_core {sys : System M} {o : Outcomes M} (quiet : Quiet sys o) {w : World M} (wired : Wired (core w)) {m : M}
    {mops : ArmdModuleOps M} (ops : sys.mops m = some mops) :
    (∃ w₁, callOnStop m mops.onStop (w.record (.stopCalled m)) = .done () w₁ ∧ core w₁ = calledCore mops (core w) m) ∨
      ((core w).handle (.module m) ≠ .active ∧ ∃ w₁, callOnStop m mops.onStop (w.record (.stopCalled m)) = .abort w₁ ∧
        core w₁ = calledCore mops (core w) m) := by
  unfold calledCore
  cases onStop : mops.onStop with
  | none => exact .inl ⟨_,rfl,core_record rfl⟩
  | some f =>
    have calling : core ((w.record (.stopCalled m)).record (.onStop m)) =
        ((core w).note (.stopCalled m)).note (.onStop m) := by rw [core_record rfl,core_record rfl]
    have wired₁ : Wired (core ((w.record (.stopCalled m)).record (.onStop m))) := by rw [calling]; exact wired
    rcases quiet.onStop m mops f ops onStop _ wired₁ with ⟨ret,w₁,ended,core₁⟩ | ⟨notOpen,w₁,crashed,core₁⟩
    · exact .inl ⟨w₁,by simp [callOnStop,record,ended],core₁.trans calling⟩
    · rw [calling] at notOpen
      exact .inr ⟨notOpen,w₁,by simp [callOnStop,record,crashed],core₁.trans calling⟩

/-- Stopping a module whose handle is not open fails the assertion of `uv_close`, or crashes before. -/
theorem stop_abort {sys : System M} {o : Outcomes M} (quiet : Quiet sys o) {w : World M} (wired : Wired (core w)) {m : M}
    {mops : ArmdModuleOps M} (ops : sys.mops m = some mops) (notOpen : (core w).handle (.module m) ≠ .active) :
    ∃ w', armdModuleStop sys (some m) w = .abort w' ∧ (core w).log ++ [.stopCalled m] <+: (core w').log := by
  have logged : (core w).log ++ [.stopCalled m] <+: (calledCore mops (core w) m).log := by
    unfold calledCore
    split
    · exact List.prefix_append _ _
    · exact List.prefix_refl _
  rcases called_core quiet wired ops with ⟨w₁,called,core₁⟩ | ⟨_,w₁,crashed,core₁⟩
  · have handle₁ : (core w₁).handle = (core w).handle := by rw [core₁,calledCore]; split <;> rfl
    have state : ¬ (w₁.modules m).async.state = .active := fun same => notOpen (by rw [← handle₁]; exact same)
    refine ⟨w₁.record (.close (.module m) (w₁.modules m).async.state),?_,?_⟩
    · simp [armdModuleStop,stopModule,ops,record,called,uvClose,World.async,state]
    · rw [core_record rfl,core₁]
      exact logged.trans (List.prefix_append _ _)
  · exact ⟨w₁,by simp [armdModuleStop,stopModule,ops,record,crashed],by rw [core₁]; exact logged⟩

/-- Stopping a module, as far as the life cycle goes. -/
theorem stop_core {sys : System M} {o : Outcomes M} (quiet : Quiet sys o) {w : World M} (wired : Wired (core w)) (m : M) :
    Mirrors (armdModuleStop sys (some m) w) (stopCore sys (core w) m) := by
  cases ops : sys.mops m with
  | none =>
    simp only [stopCore,ops]
    refine ⟨(w.record (.stopCalled m)).record (.stopped m),?_,by rw [core_record rfl,core_record rfl]⟩
    simp [armdModuleStop,stopModule,ops,record]
  | some mops =>
    simp only [stopCore,ops]
    by_cases active : (core w).handle (.module m) = .active
    · obtain ⟨w₁,called,core₁⟩ := (called_core quiet wired ops).resolve_right fun stuck => stuck.1 active
      have active₁ : (core w₁).handle (.module m) = .active := by rw [core₁,calledCore]; split <;> exact active
      obtain ⟨w₂,closed,core₂⟩ := close_core active₁
      obtain ⟨w₃,destroyed,core₃⟩ := destroy_core w₂ m
      rw [if_pos active]
      refine ⟨w₃.record (.stopped m),?_,by rw [core_record rfl,core₃,core₂,core₁,calledCore]⟩
      simp [armdModuleStop,stopModule,ops,record,called,closed,destroyed]
    · obtain ⟨w',aborted,_⟩ := stop_abort quiet wired ops active
      rw [if_neg active]
      exact ⟨w',aborted⟩

/-- Starting modules in turn, up to the first one that fails, on the life cycle. -/
def startsCore (sys : System M) (o : Outcomes M) : List M → Core M → Option ℤ × Core M
  | [], c => (none,c)
  | m :: rest, c =>
    let r := startCore sys o c m
    if r.1 < 0 then (some r.1,r.2) else startsCore sys o rest r.2

theorem wired_starts {sys : System M} {o : Outcomes M} (ms : List M) : ∀ {c : Core M}, Wired c →
    Wired (startsCore sys o ms c).2 := by
  induction ms with
  | nil => intro c wired; exact wired
  | cons m rest ih =>
    intro c wired
    have first : Wired (startCore sys o c m).2 := wired_start wired m
    simp only [startsCore]
    split
    · exact first
    · exact ih first

theorem startEach_core {sys : System M} {o : Outcomes M} (quiet : Quiet sys o) (ms : List M) : ∀ {w : World M},
    Wired (core w) → ∃ w', startEach sys .defaultLoop ms w = .done (startsCore sys o ms (core w)).1 w' ∧
      core w' = (startsCore sys o ms (core w)).2 := by
  induction ms with
  | nil => intro w _; exact ⟨w,rfl,rfl⟩
  | cons m rest ih =>
    intro w wired
    obtain ⟨w₁,started,core₁⟩ := start_core quiet wired m
    simp only [startEach,startsCore,Program.bind_run,started,Outcome.andThen_done,Program.ite_run]
    by_cases failed : (startCore sys o (core w) m).1 < 0
    · simp only [if_pos failed]
      exact ⟨w₁,rfl,core₁⟩
    · have wired₁ : Wired (core w₁) := by rw [core₁]; exact wired_start wired m
      obtain ⟨w',ran,core'⟩ := ih wired₁
      simp only [if_neg failed,← core₁]
      exact ⟨w',ran,core'⟩

/-! ### Starts that succeed -/

def hasOnStart (sys : System M) (m : M) : Bool := ((sys.mops m).bind (·.onStart)).isSome

omit [DecidableEq M] in
theorem startsOf_log (w : World M) : startsOf (core w).log = startsOf w.trace := by
  simp only [startsOf,core,List.filterMap_filterMap]
  exact List.filterMap_congr fun e _ => by cases e <;> rfl

omit [DecidableEq M] in
theorem startedOf_log (w : World M) : startedOf (core w).log = startedOf w.trace := by
  simp only [startedOf,core,List.filterMap_filterMap]
  exact List.filterMap_congr fun e _ => by cases e <;> rfl

/-- What a successful start writes down. -/
def startEvents (sys : System M) (o : Outcomes M) (c : Core M) (m : M) : List (Event M) :=
  [.startCalled m,.mutexInit m (c.mutex m),.queueReset m (c.handle (.module m)) [],
    .asyncInit (.module m) (c.handle (.module m)) (o.init m)] ++
      (if hasOnStart sys m then [.onStart m] else []) ++ [.started m 0]

/-- A module started with success. -/
def startedCore (sys : System M) (o : Outcomes M) (c : Core M) (m : M) : Core M :=
  { (c.openHandle (.module m)).setMutex m .live with log := c.log ++ startEvents sys o c m }

theorem startCore_success {sys : System M} {o : Outcomes M} {m : M} {mops : ArmdModuleOps M}
    (ops : sys.mops m = some mops) (init : 0 ≤ o.init m) (start : 0 ≤ o.start m) (c : Core M) :
    startCore sys o c m = (0,startedCore sys o c m) := by
  have init' := not_lt.mpr init
  have start' := not_lt.mpr start
  cases onStart : mops.onStart with
  | none =>
    simp [startCore,ops,init',onStart,startedCore,startEvents,hasOnStart,Core.note,Core.reset,Core.openHandle,
      Core.setHandle,Core.setMutex]
  | some f =>
    simp [startCore,ops,init',onStart,start',startedCore,startEvents,hasOnStart,Core.note,Core.reset,Core.openHandle,
      Core.setHandle,Core.setMutex]

/-! ### Stops that succeed -/

def hasOnStop (sys : System M) (m : M) : Bool := ((sys.mops m).bind (·.onStop)).isSome

/-- What a stop of a module with an open handle writes down. -/
def stopEvents (sys : System M) (c : Core M) (m : M) : List (Event M) :=
  .stopCalled m :: (if hasOnStop sys m then [.onStop m] else []) ++
    [.close (.module m) .active,.mutexDestroy m (c.mutex m),.stopped m]

/-- A module with an open handle stopped. -/
def stoppedCore (sys : System M) (c : Core M) (m : M) : Core M :=
  { (c.closeHandle (.module m)).setMutex m .destroyed with log := c.log ++ stopEvents sys c m }

theorem stopCore_success {sys : System M} {m : M} {mops : ArmdModuleOps M} (ops : sys.mops m = some mops) (c : Core M) :
    stopCore sys c m = if c.handle (.module m) = .active then some (stoppedCore sys c m) else none := by
  cases onStop : mops.onStop with
  | none =>
    simp [stopCore,ops,onStop,stoppedCore,stopEvents,hasOnStop,Core.note,Core.closeHandle,Core.setHandle,
      Core.destroyMutex,Core.setMutex]
  | some f =>
    simp [stopCore,ops,onStop,stoppedCore,stopEvents,hasOnStop,Core.note,Core.closeHandle,Core.setHandle,
      Core.destroyMutex,Core.setMutex]

/-- Stopping modules in turn, on the life cycle. -/
def stopsCore (sys : System M) : List M → Core M → Option (Core M)
  | [], c => some c
  | m :: rest, c => (stopCore sys c m).bind (stopsCore sys rest)

theorem wired_stops {sys : System M} (ms : List M) : ∀ {c c' : Core M}, Wired c → stopsCore sys ms c = some c' →
    Wired c' := by
  induction ms with
  | nil => intro c c' wired stops; cases stops; exact wired
  | cons m rest ih =>
    intro c c' wired stops
    obtain ⟨c₁,first,onwards⟩ := Option.bind_eq_some_iff.mp stops
    exact ih (wired_stop wired first) onwards

theorem stopEach_core {sys : System M} {o : Outcomes M} (quiet : Quiet sys o) (ms : List M) :
    ∀ {R : Levels M} {w : World M}, Wired (core w) → Tidy w.lists R → ms.Nodup → (∀ m ∈ ms, Registered R m) →
      Mirrors (stopEach sys ms w) (stopsCore sys ms (core w)) := by
  induction ms with
  | nil => intro R w _ _ _ _; exact ⟨w,rfl,rfl⟩
  | cons m rest ih =>
    intro R w wired tidy distinct registered
    refine mirrors_andThen (stop_core quiet wired m) fun w₁ stopped stops => ?_
    have tidy₁ : Tidy w₁.lists R := view_lists (preserves_stop quiet.registry.onStop m w () w₁ stopped) ▸ tidy
    obtain ⟨g,deleted,left⟩ := delete_registered tidy₁ (registered m (by simp))
    rw [Program.bind_run,deleted,Outcome.andThen_done]
    refine ih (wired_stop wired stops) left (List.nodup_cons.mp distinct).2 fun m' member => ?_
    have other : m' ≠ m := by rintro rfl; exact (List.nodup_cons.mp distinct).1 member
    exact (registered_remove tidy.rings.nodup).mpr ⟨registered m' (by simp [member]),other⟩

/-- `uv__finish_close` on each handle of a list. -/
def finishCore : List (Handle M) → Core M → Option (Core M)
  | [], c => some c
  | h :: hs, c => if c.handle h = .closing then finishCore hs (c.setHandle h .closed) else none

def closingsCore (c : Core M) : Option (Core M) :=
  finishCore c.uvLoop.closingHandles { c with uvLoop := { c.uvLoop with closingHandles := [] } }

theorem finish_core (hs : List (Handle M)) : ∀ w : World M, Mirrors (finishClose hs w) (finishCore hs (core w)) := by
  induction hs with
  | nil => intro w; exact ⟨w,rfl,rfl⟩
  | cons h hs ih =>
    intro w
    simp only [finishClose,finishCore,Program.bind_run,Program.get_run,Outcome.andThen_done,Program.ite_run]
    by_cases closing : (w.async h).state = .closing
    · have closing' : (core w).handle h = .closing := closing
      simp only [if_pos closing,if_pos closing',Program.change_run,Outcome.andThen_done]
      have finished := ih (w.setAsync h { w.async h with state := .closed })
      have closed := core_setState w h (show ({ w.async h with state := .closed } : UvAsync).loop = _ from rfl)
      rwa [closed] at finished
    · have closing' : ¬ (core w).handle h = .closing := closing
      simp only [if_neg closing,if_neg closing']
      exact ⟨w,rfl⟩

/-- A turn of the loop finishes the closing of handles. -/
theorem closing_core (w : World M) : Mirrors (uvRunClosingHandles w) (closingsCore (core w)) :=
  finish_core w.uvLoop.closingHandles { w with uvLoop := { w.uvLoop with closingHandles := [] } }

/-- A turn that comes to its end does so in the core. -/
theorem closings_core {w w' : World M} (ran : uvRunClosingHandles w = .done () w') :
    closingsCore (core w) = some (core w') := by
  have mirrors := closing_core w
  rw [ran] at mirrors
  cases closings : closingsCore (core w) with
  | none => rw [closings] at mirrors; obtain ⟨_,aborted⟩ := mirrors; cases aborted
  | some c =>
    rw [closings] at mirrors
    obtain ⟨w₃,done,core₃⟩ := mirrors
    cases done
    rw [core₃]

theorem finishCore_some (hs : List (Handle M)) : ∀ {c c' : Core M}, finishCore hs c = some c' →
    c'.uvLoop = c.uvLoop ∧ c'.mutex = c.mutex ∧ c'.log = c.log ∧
      ∀ h, (h ∈ hs → c.handle h = .closing) ∧ c'.handle h = if h ∈ hs then .closed else c.handle h := by
  induction hs with
  | nil => intro c c' done; cases done; simp
  | cons h hs ih =>
    intro c c' done
    simp only [finishCore,Option.ite_none_right_eq_some] at done
    obtain ⟨closing,rest⟩ := done
    obtain ⟨loop,mutex,log,handles⟩ := ih rest
    refine ⟨loop,mutex,log,fun h' => ?_⟩
    obtain ⟨were,are⟩ := handles h'
    by_cases same : h' = h
    · subst same
      refine ⟨fun _ => closing,?_⟩
      simp only [are,Core.setHandle,Function.update_self,ite_self,List.mem_cons,true_or,if_true]
    · simpa [Core.setHandle,same] using And.intro were are

theorem wired_finish (hs : List (Handle M)) : ∀ {c c' : Core M}, Wired c → finishCore hs c = some c' → Wired c' := by
  induction hs with
  | nil => intro c c' wired done; cases done; exact wired
  | cons h hs ih =>
    intro c c' wired done
    simp only [finishCore,Option.ite_none_right_eq_some] at done
    exact ih (wired_set wired h (by simp)) done.2

theorem wired_closings {c c' : Core M} (wired : Wired c) (done : closingsCore c = some c') : Wired c' :=
  wired_finish c.uvLoop.closingHandles (show Wired { c with uvLoop := { c.uvLoop with closingHandles := [] } } from wired) done

theorem finish_loops (hs : List (Handle M)) : ∀ {c c' : Core M}, finishCore hs c = some c' → c'.loops = c.loops := by
  induction hs with
  | nil => intro c c' done; cases done; rfl
  | cons h hs ih =>
    intro c c' done
    simp only [finishCore,Option.ite_none_right_eq_some] at done
    have rest : c'.loops = (c.setHandle h .closed).loops := ih done.2
    exact rest

theorem closings_loops {c c' : Core M} (done : closingsCore c = some c') : c'.loops = c.loops :=
  (finish_loops c.uvLoop.closingHandles done).trans rfl

theorem finishCore_closing {hs : List (Handle M)} (distinct : hs.Nodup) : ∀ {c : Core M},
    (∀ h ∈ hs, c.handle h = .closing) → ∃ c', finishCore hs c = some c' := by
  induction hs with
  | nil => intro c _; exact ⟨c,rfl⟩
  | cons h hs ih =>
    intro c closing
    obtain ⟨fresh,distinct'⟩ := List.nodup_cons.mp distinct
    rw [finishCore,if_pos (closing h (by simp))]
    refine ih distinct' fun h' member => ?_
    have other : h' ≠ h := by rintro rfl; exact fresh member
    simpa [Core.setHandle,other] using closing h' (List.mem_cons_of_mem _ member)

theorem closingsCore_some {c c' : Core M} (done : closingsCore c = some c') :
    c'.uvLoop = { c.uvLoop with closingHandles := [] } ∧ c'.mutex = c.mutex ∧ c'.log = c.log ∧
      ∀ h, (h ∈ c.uvLoop.closingHandles → c.handle h = .closing) ∧
        c'.handle h = if h ∈ c.uvLoop.closingHandles then .closed else c.handle h :=
  finishCore_some c.uvLoop.closingHandles done

/-- The loop's lists hold the open and the closing handles, once each. -/
structure LoopSound (c : Core M) : Prop where
  openOnce : c.uvLoop.asyncHandles.Nodup
  openMem : ∀ h, h ∈ c.uvLoop.asyncHandles ↔ c.handle h = .active
  counted : c.uvLoop.activeHandles = c.uvLoop.asyncHandles.length
  closingOnce : c.uvLoop.closingHandles.Nodup
  closingMem : ∀ h, h ∈ c.uvLoop.closingHandles ↔ c.handle h = .closing

omit [DecidableEq M] in
theorem LoopSound.congr {c c' : Core M} (sound : LoopSound c) (handle : c'.handle = c.handle)
    (loop : c'.uvLoop = c.uvLoop) : LoopSound c' := by
  obtain ⟨openOnce,openMem,counted,closingOnce,closingMem⟩ := sound
  exact ⟨by rwa [loop],by rwa [loop,handle],by rwa [loop],by rwa [loop],by rwa [loop,handle]⟩

theorem loopSound_open {c : Core M} (sound : LoopSound c) {h : Handle M} (notOpen : c.handle h ≠ .active)
    (notClosing : c.handle h ≠ .closing) : LoopSound (c.openHandle h) := by
  have absent : h ∉ c.uvLoop.asyncHandles := fun there => notOpen ((sound.openMem _).mp there)
  refine ⟨?_,fun h' => ?_,by simp [Core.openHandle,sound.counted],sound.closingOnce,fun h' => ?_⟩
  · exact List.nodup_append.mpr ⟨sound.openOnce,by simp,by
      rintro x inside y last rfl; rw [List.mem_singleton.mp last] at inside; exact absent inside⟩
  · by_cases same : h' = h
    · subst same; simp [Core.openHandle,Core.setHandle]
    · simpa [Core.openHandle,Core.setHandle,same] using sound.openMem h'
  · by_cases same : h' = h
    · subst same; simpa [Core.openHandle,Core.setHandle,notClosing] using sound.closingMem h'
    · simpa [Core.openHandle,Core.setHandle,same] using sound.closingMem h'

theorem loopSound_close {c : Core M} (sound : LoopSound c) {h : Handle M} (isOpen : c.handle h = .active) :
    LoopSound (c.closeHandle h) := by
  have there : h ∈ c.uvLoop.asyncHandles := (sound.openMem _).mpr isOpen
  have absent : h ∉ c.uvLoop.closingHandles := by rw [sound.closingMem,isOpen]; simp
  refine ⟨sound.openOnce.filter _,fun h' => ?_,?_,List.nodup_cons.mpr ⟨absent,sound.closingOnce⟩,fun h' => ?_⟩
  · by_cases same : h' = h
    · subst same; simp [Core.closeHandle,Core.setHandle]
    · simpa [Core.closeHandle,Core.setHandle,same] using sound.openMem h'
  · have filtered : c.uvLoop.asyncHandles.filter (· ≠ h) = c.uvLoop.asyncHandles.erase h := by
      rw [sound.openOnce.erase_eq_filter]
      exact List.filter_congr fun x _ => by by_cases same : x = h <;> simp [same]
    show c.uvLoop.activeHandles-1 = (c.uvLoop.asyncHandles.filter (· ≠ h)).length
    rw [filtered,List.length_erase_of_mem there,sound.counted]
  · by_cases same : h' = h
    · subst same; simp [Core.closeHandle,Core.setHandle]
    · simpa [Core.closeHandle,Core.setHandle,same] using sound.closingMem h'

theorem loopSound_closings {c c' : Core M} (sound : LoopSound c) (done : closingsCore c = some c') : LoopSound c' := by
  obtain ⟨loop,_,_,handles⟩ := closingsCore_some done
  refine ⟨by rw [loop]; exact sound.openOnce,fun h => ?_,by rw [loop]; exact sound.counted,by rw [loop]; simp,fun h => ?_⟩
  · rw [loop,(handles h).2,sound.openMem]
    by_cases member : h ∈ c.uvLoop.closingHandles
    · simp [member,(handles h).1 member]
    · simp [member]
  · rw [loop,(handles h).2]
    by_cases member : h ∈ c.uvLoop.closingHandles
    · simp [member]
    · simpa [member] using fun closing => member ((sound.closingMem h).mpr closing)

/-- Finishing the closing handles comes to its end. -/
theorem closings_end {w : World M} (sound : LoopSound (core w)) :
    ∃ w', uvRunClosingHandles w = .done () w' ∧ closingsCore (core w) = some (core w') := by
  obtain ⟨c,done⟩ : ∃ c, closingsCore (core w) = some c :=
    finishCore_closing sound.closingOnce fun h member => (sound.closingMem h).mp member
  have mirrors := closing_core w
  rw [done] at mirrors
  obtain ⟨w',ran,core'⟩ := mirrors
  exact ⟨w',ran,by rw [core',done]⟩

/-- A loop without open handles finishes the closing ones, and nothing keeps it alive any more. -/
theorem loop_ends {w : World M} (sound : LoopSound (core w)) (none : ∀ h, (core w).handle h ≠ .active) :
    ∃ w', uvRunClosingHandles w = .done () w' ∧ closingsCore (core w) = some (core w') ∧ uvLoopAlive w' = false := by
  obtain ⟨w',ran,done⟩ := closings_end sound
  obtain ⟨loop,_⟩ := closingsCore_some done
  have loop' : w'.uvLoop = { w.uvLoop with closingHandles := [] } := loop
  have empty : w.uvLoop.asyncHandles = [] :=
    List.eq_nil_iff_forall_not_mem.mpr fun h member => none h ((sound.openMem h).mp member)
  have count : w.uvLoop.activeHandles = w.uvLoop.asyncHandles.length := sound.counted
  rw [empty,List.length_nil] at count
  exact ⟨w',ran,done,by simp [uvLoopAlive,loop',count]⟩

section
variable {X : Type} {view : World M → X}
  (async : ∀ w h, view (w.setAsync h { w.async h with state := .closed }) = view w)
include async

theorem preserves_finish (hs : List (Handle M)) : Program.Preserves view (finishClose hs) := by
  induction hs with
  | nil => exact Program.preserves_pure ()
  | cons h hs ih =>
    refine Program.preserves_bind Program.preserves_get fun w => Program.preserves_ite ?_ Program.preserves_abort
    exact Program.preserves_bind (Program.preserves_change fun w => async w h) fun _ => ih

/-- Finishing the closing handles leaves a view alone that looks neither at the states of the handles nor at the
    list of the closing ones. -/
theorem preserves_closings (loop : ∀ w, view { w with uvLoop := { w.uvLoop with closingHandles := [] } } = view w) :
    Program.Preserves view (uvRunClosingHandles : Program (World M) Unit) := by
  intro w u w' run
  exact (preserves_finish async w.uvLoop.closingHandles _ u w' run).trans (loop w)

end

theorem closings_registry : Program.Preserves registryView (uvRunClosingHandles : Program (World M) Unit) :=
  preserves_closings (fun _ h => by cases h <;> rfl) fun _ => rfl

theorem closings_trace : Program.Preserves World.trace (uvRunClosingHandles : Program (World M) Unit) :=
  preserves_closings (fun _ h => by cases h <;> rfl) fun _ => rfl

end Armd.Lifecycle
