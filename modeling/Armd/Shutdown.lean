import Armd.Posting

/-!
`main` from its first line to its last, as long as no start fails. The main
thread registers and starts the modules and then runs the event loop, whose
dispatch pass walks a list of handles that the shutdown callback takes handles
off; signals arrive at any time once the handlers are installed, posts are made
at any time, and the monitor's timer fires whenever the loop runs its timers.
-/
namespace Armd.Shutdown
open Armd.Programs Armd.Runs Armd.LinkedRings Armd.Datastructure Armd.Message Armd.Queue Armd.Memory Armd.Module
  Armd.Registry Armd.RegistryCalls Armd.Lifecycle Armd.Operations
open Armd.Posting (PostPc lockedPost finishPost beginStart openModule finishStart finishStop stop_sections)

variable {M : Type} [DecidableEq M]

/-! ### The sections of the code -/

/-- The head of the loop of `armd_module_stopall` over a ring. -/
def nextStop (level : Fin maxLevel) : Program (World M) (Option M) := do
  let w ← Program.get
  if armdListEmpty w.lists (.sentinel level) then pure none
  else do
    let m ← memberContainer (w.lists (.sentinel level)).next
    pure (some m)

/-- A round of that loop after `on_stop`. -/
def finishRound (m : M) : Program (World M) Unit := do
  finishStop m
  onLists (fun lists => armdListDelete lists (.module m))

theorem stopallRound_sections (sys : System M) {level : Fin maxLevel} {w : World M} {m : M} {mops : ArmdModuleOps M}
    (next : nextStop level w = .done (some m) w) (ops : sys.mops m = some mops) :
    stopallRound sys (.sentinel level) w = (do
      record (.stopCalled m)
      callOnStop m mops.onStop
      finishRound m
      pure (.inl ()) : Program (World M) (Unit ⊕ Unit)) w := by
  have sections : (do
      armdModuleStop sys (some m)
      onLists (fun lists => armdListDelete lists (.module m))
      pure (.inl ()) : Program (World M) (Unit ⊕ Unit)) = (do
        record (.stopCalled m)
        callOnStop m mops.onStop
        finishRound m
        pure (.inl ())) := by
    simp only [stop_sections sys ops,finishRound,bind_assoc]
  rw [← sections]
  simp only [nextStop,Program.bind_run,Program.get_run,Outcome.andThen_done,Program.ite_run] at next
  simp only [stopallRound,Program.bind_run,Program.get_run,Outcome.andThen_done,Program.ite_run]
  by_cases empty : armdListEmpty w.lists (.sentinel level)
  · simp [empty] at next
  · simp only [if_neg empty] at next ⊢
    obtain ⟨m',w',member,same⟩ := Outcome.andThen_eq_done.mp next
    cases same
    rw [member,Outcome.andThen_done]
    rfl

/-- `async_callback` under the mutex. -/
def lockedTake (m : M) : Program (World M) (Option ArmdMsg) := do
  pthreadMutexLock m
  let w ← Program.get
  match (w.modules m).msgQueue.take with
  | none => pure none
  | some (msg,q) =>
    .change (fun w => w.setQueue m q)
    pure (some msg)

/-- A round of `async_callback` after it released the mutex. -/
def deliver (sys : System M) (m : M) : Option ArmdMsg → Program (World M) (Unit ⊕ Unit)
  | none => pure (.inr ())
  | some msg =>
    match (sys.mops m).bind (·.onMessage) with
    | none => pure (.inl ())
    | some onMessage => do
      record (.onMessage m msg)
      let _ ← onMessage m msg
      pure (.inl ())

theorem asyncCallbackRound_sections (sys : System M) (m : M) :
    asyncCallbackRound sys m = lockedTake m >>= deliver sys m := by
  funext w
  simp only [asyncCallbackRound,lockedTake,pthreadMutexLock,Program.bind_run,Program.change_run,Outcome.andThen_done,
    Program.get_run]
  cases ((w.record (.mutexLock m (w.modules m).msgQueue.qMutex)).modules m).msgQueue.take with
  | none => rfl
  | some taken =>
    obtain ⟨msg,q⟩ := taken
    cases handler : (sys.mops m).bind (·.onMessage) <;> simp [deliver,handler]

/-! ### The machine -/

variable {P : Type}

/-- The modules of the daemon; the monitor has the callbacks of `monitor_ops`, which start and stop its timer. -/
structure Modules (M : Type) where
  sys : System M
  monitor : M
  startsTimer : hasOnStart sys monitor = true
  stopsTimer : hasOnStop sys monitor = true

def hasOnMessage (sys : System M) (m : M) : Bool := ((sys.mops m).bind (·.onMessage)).isSome

/-- Where the main thread is. While it starts modules it keeps the levels to come and the cursor, while it
    stops them the levels left. -/
inductive Pc (M : Type)
  | boot
  | booted
  | regcalls
  | startall (level : Fin maxLevel) (rest : List (Fin maxLevel)) (node : Option (Node M))
  | starting (m : M) (level : Fin maxLevel) (rest : List (Fin maxLevel))
  | onStart (m : M) (level : Fin maxLevel) (rest : List (Fin maxLevel))
  | runTimers
  | monitorTimerCb
  | ioPoll
  | asyncIo
  | asyncCallback (m : M)
  | onMessage (m : M)
  | stopall (levels : List (Fin maxLevel))
  | onStop (m : M) (levels : List (Fin maxLevel))
  | closingHandles
  | exited

/-- What is called and when it matters. -/
inductive Call (M : Type)
  | signalHandler
  | onShutdownAsync
  | stopall
  | closeShutdown
  | onMessage (m : M)
  | onStop (m : M)
  | monitorTimerCb
  deriving DecidableEq

/-- The world, the main thread, the local `queue` of `uv__async_io`, whether the signal handlers are installed and
    whether the monitor's timer is active, the posters, and the calls so far. -/
structure State (M P : Type) where
  world : World M
  pc : Pc M
  queue : List (Handle M)
  handlers : Bool
  timer : Bool
  poster : P → PostPc M
  log : List (Call M)

inductive Label (M P : Type)
  | init
  | registryInit
  | registry (call : RegistryCall M)
  | startall
  | nextLevel
  | start
  | opened (ret : ℤ)
  | started (ret : ℤ)
  | timer
  | timerDone
  | poll
  | exit
  | noEvent
  | pass
  | skip
  | dispatch
  | shutdown
  | passed
  | take
  | drop
  | drained
  | handled
  | stopLevel
  | stop
  | ignore
  | stopped
  | closeShutdown
  | closingHandles
  | signal
  | call (p : P) (m : M) (msg : ArmdMsg)
  | lock (p : P)
  | finish (p : P)

/-- Static storage before `main` runs. -/
def initial : State M P where
  world := World.zero
  pc := .boot
  queue := []
  handlers := false
  timer := false
  poster := fun _ => .outside
  log := []

def State.goto (s : State M P) (w : World M) (pc : Pc M) : State M P := { s with world := w, pc := pc }

def State.setPoster [DecidableEq P] (s : State M P) (w : World M) (p : P) (pc : PostPc M) : State M P :=
  { s with world := w, poster := Function.update s.poster p pc }

/-- The levels that `armd_module_startall` has yet to walk; after the last one `main` calls `uv_run`. -/
def enterLevel (w : World M) : List (Fin maxLevel) → Pc M
  | [] => .runTimers
  | level :: rest => .startall level rest (w.lists (.sentinel level)).next

/-- The levels that `armd_module_stopall` walks. -/
def stopLevels (w : World M) : List (Fin maxLevel) := if w.registryInitialized then levels.reverse else []

/-- A handle at the end of the loop's list again. -/
def requeue (w : World M) (h : Handle M) : World M :=
  { w with uvLoop := { w.uvLoop with asyncHandles := w.uvLoop.asyncHandles ++ [h] } }

def clearPending (w : World M) (h : Handle M) : World M := w.setAsync h { w.async h with pending := false }

/-- `uv_run` goes on as long as a handle is active or closing. -/
def alive (s : State M P) : Bool := uvLoopAlive s.world || s.timer

inductive Step [DecidableEq P] (d : Modules M) : State M P → Label M P → State M P → Prop
  -- `uv_async_init` on `g_shutdown_async`, then `signal` twice
  | init {s ret w} : s.pc = .boot → uvAsyncInit 0 .shutdown s.world = .done ret w →
      Step d s .init { s.goto w .booted with handlers := true }
  | registryInit {s w} : s.pc = .booted → registryInit s.world = .done () w → Step d s .registryInit (s.goto w .regcalls)
  | registry {s call w} : s.pc = .regcalls → call.run s.world = .done () w → Step d s (.registry call) (s.goto w .regcalls)
  | startall {s} : s.pc = .regcalls → s.world.registryInitialized = true →
      Step d s .startall (s.goto s.world (enterLevel s.world levels))
  | nextLevel {s level rest} : s.pc = .startall level rest (some (.sentinel level)) →
      Step d s .nextLevel (s.goto s.world (enterLevel s.world rest))
  | start {s m level rest w} : s.pc = .startall level rest (some (.module m)) → d.sys.mops m ≠ none →
      beginStart m s.world = .done () w → Step d s .start (s.goto w (.starting m level rest))
  | opened {s m level rest ret r w} : s.pc = .starting m level rest → openModule m ret s.world = .done r w → ¬ r < 0 →
      Step d s (.opened ret) (s.goto w (.onStart m level rest))
  -- `on_start` has returned; the one of the monitor has started the timer
  | started {s m level rest ret r w} : s.pc = .onStart m level rest → (hasOnStart d.sys m = true ∨ ret = 0) →
      finishStart m ret s.world = .done r w → ¬ r < 0 →
      Step d s (.started ret)
        { s.goto w (.startall level rest (w.lists (.module m)).next) with timer := s.timer || decide (m = d.monitor) }
  | timer {s} : s.pc = .runTimers → s.timer = true →
      Step d s .timer { s.goto s.world .monitorTimerCb with log := s.log ++ [.monitorTimerCb] }
  | timerDone {s} : s.pc = .monitorTimerCb → Step d s .timerDone (s.goto s.world .runTimers)
  | poll {s} : s.pc = .runTimers → alive s = true → Step d s .poll (s.goto s.world .ioPoll)
  | exit {s} : s.pc = .runTimers → alive s = false → Step d s .exit (s.goto s.world .exited)
  | noEvent {s} : s.pc = .ioPoll → Step d s .noEvent (s.goto s.world .closingHandles)
  -- `uv__queue_move`
  | pass {s} : s.pc = .ioPoll →
      Step d s .pass
        { s.goto { s.world with uvLoop := { s.world.uvLoop with asyncHandles := [] } } .asyncIo with
          queue := s.world.uvLoop.asyncHandles }
  | skip {s h rest} : s.pc = .asyncIo → s.queue = h :: rest → (s.world.async h).pending = false →
      Step d s .skip { s.goto (requeue s.world h) .asyncIo with queue := rest }
  -- the flag is cleared and the callback entered
  | dispatch {s m rest} : s.pc = .asyncIo → s.queue = .module m :: rest → (s.world.modules m).async.pending = true →
      Step d s .dispatch
        { s.goto (clearPending (requeue s.world (.module m)) (.module m)) (.asyncCallback m) with queue := rest }
  -- the same for `on_shutdown_async`, which begins with `armd_module_stopall`
  | shutdown {s rest} : s.pc = .asyncIo → s.queue = .shutdown :: rest → s.world.shutdownAsync.pending = true →
      Step d s .shutdown
        { s.goto (clearPending (requeue s.world .shutdown) .shutdown) (.stopall (stopLevels s.world)) with
          queue := rest
          log := s.log ++ [.onShutdownAsync] ++ [.stopall] }
  | passed {s} : s.pc = .asyncIo → s.queue = [] → Step d s .passed (s.goto s.world .closingHandles)
  | take {s m msg w} : s.pc = .asyncCallback m → lockedTake m s.world = .done (some msg) w →
      hasOnMessage d.sys m = true → Step d s .take { s.goto w (.onMessage m) with log := s.log ++ [.onMessage m] }
  | drop {s m msg w} : s.pc = .asyncCallback m → lockedTake m s.world = .done (some msg) w →
      hasOnMessage d.sys m = false → Step d s .drop (s.goto w (.asyncCallback m))
  | drained {s m w} : s.pc = .asyncCallback m → lockedTake m s.world = .done none w →
      Step d s .drained (s.goto w .asyncIo)
  | handled {s m} : s.pc = .onMessage m → Step d s .handled (s.goto s.world (.asyncCallback m))
  | stopLevel {s level rest w} : s.pc = .stopall (level :: rest) → nextStop level s.world = .done none w →
      Step d s .stopLevel (s.goto w (.stopall rest))
  | stop {s level rest m w} : s.pc = .stopall (level :: rest) → nextStop level s.world = .done (some m) w →
      d.sys.mops m ≠ none →
      Step d s .stop
        { s.goto (w.record (.stopCalled m)) (.onStop m (level :: rest)) with
          log := s.log ++ if hasOnStop d.sys m then [.onStop m] else [] }
  -- `armd_module_stop` returns at once
  | ignore {s level rest m w w'} : s.pc = .stopall (level :: rest) → nextStop level s.world = .done (some m) w →
      d.sys.mops m = none → onLists (fun lists => armdListDelete lists (.module m)) w = .done () w' →
      Step d s .ignore (s.goto w' (.stopall (level :: rest)))
  -- `on_stop` has returned; the one of the monitor has stopped and closed the timer
  | stopped {s m levels w} : s.pc = .onStop m levels → finishRound m s.world = .done () w →
      Step d s .stopped
        { s.goto w (.stopall levels) with
          queue := s.queue.filter (· ≠ .module m)
          timer := s.timer && decide (m ≠ d.monitor) }
  | closeShutdown {s w} : s.pc = .stopall [] → uvClose .shutdown s.world = .done () w →
      Step d s .closeShutdown
        { s.goto w .asyncIo with
          queue := s.queue.filter (· ≠ .shutdown)
          log := s.log ++ [.closeShutdown] }
  | closingHandles {s w} : s.pc = .closingHandles → uvRunClosingHandles s.world = .done () w →
      Step d s .closingHandles (s.goto w .runTimers)
  | signal {s w} : s.handlers = true → uvAsyncSend .shutdown s.world = .done () w →
      Step d s .signal { s.goto w s.pc with log := s.log ++ [.signalHandler] }
  | call {s p m msg} : s.poster p = .outside → Step d s (.call p m msg) (s.setPoster s.world p (.entered m msg))
  | lock {s p m msg accepted w} : s.poster p = .entered m msg → lockedPost m msg s.world = .done accepted w →
      Step d s (.lock p) (s.setPoster w p (.unlocked m msg accepted))
  | finish {s p m msg accepted ret w} : s.poster p = .unlocked m msg accepted →
      finishPost m msg accepted s.world = .done ret w → Step d s (.finish p) (s.setPoster w p .outside)

/-- Once `on_stop` of a module was called, neither its `on_message` nor the timer callback is. -/
def Orderly (before : List (Call M)) : Call M → Prop
  | .onMessage m => .onStop m ∉ before
  | .monitorTimerCb => ∀ m, .onStop m ∉ before
  | _ => True

/-! ### What the sections leave alone -/

/-- The pending signal and the handles that the next pass visits. -/
def loopView (w : World M) : Bool × List (Handle M) := (w.shutdownAsync.pending,w.uvLoop.asyncHandles)

def outer (w : World M) : (Heap (Node M) × Bool) × Bool × List (Handle M) := (registryView w,loopView w)

section
open Program

theorem outer_begin (m : M) : Preserves outer (beginStart m) :=
  preserves_bind (preserves_change fun _ => rfl) fun _ =>
    preserves_bind (preserves_change fun _ => rfl) fun _ =>
      preserves_bind (preserves_change fun _ => rfl) fun _ => preserves_change fun _ => rfl

theorem outer_lock (m : M) (msg : ArmdMsg) : Preserves outer (lockedPost m msg) := by
  refine preserves_bind (preserves_change fun _ => rfl) fun _ => preserves_bind preserves_get fun w => ?_
  cases (w.modules m).msgQueue.post msg with
  | none => exact preserves_pure false
  | some q => exact preserves_bind (preserves_change fun _ => rfl) fun _ => preserves_pure true

theorem outer_send (m : M) : Preserves outer (uvAsyncSend (.module m)) := by
  intro w u w' sent
  rw [send_done sent]
  rfl

theorem outer_finish (m : M) (msg : ArmdMsg) (accepted : Bool) : Preserves outer (finishPost m msg accepted) := by
  cases accepted with
  | false => exact preserves_bind (preserves_change fun _ => rfl) fun _ => preserves_pure _
  | true =>
    exact preserves_bind (outer_send m) fun _ => preserves_bind (preserves_change fun _ => rfl) fun _ => preserves_pure _

theorem outer_take (m : M) : Preserves outer (lockedTake m) := by
  refine preserves_bind (preserves_change fun _ => rfl) fun _ => preserves_bind preserves_get fun w => ?_
  cases (w.modules m).msgQueue.take with
  | none => exact preserves_pure none
  | some taken => exact preserves_bind (preserves_change fun _ => rfl) fun _ => preserves_pure _

theorem outer_closings : Preserves outer (uvRunClosingHandles : Program (World M) Unit) :=
  preserves_closings (fun _ h => by cases h <;> rfl) fun _ => rfl

end

section
variable {w w' : World M} {m : M} {ret r : ℤ}

theorem outer_open (opened : openModule m ret w = .done r w') (succeeded : ¬ r < 0) :
    registryView w' = registryView w ∧ loopView w' = (w.shutdownAsync.pending,w.uvLoop.asyncHandles ++ [.module m]) := by
  by_cases failed : ret < 0
  · simp only [openModule,uvAsyncInit,Program.bind_run,if_pos failed,Outcome.andThen_done] at opened
    cases opened
    exact absurd failed succeeded
  · simp only [openModule,uvAsyncInit,Program.bind_run,if_neg failed,Outcome.andThen_done,lt_irrefl,if_false] at opened
    cases opened
    exact ⟨rfl,rfl⟩

theorem outer_started (started : finishStart m ret w = .done r w') (succeeded : ¬ r < 0) : outer w' = outer w := by
  by_cases failed : ret < 0
  · simp only [finishStart,if_pos failed,Program.bind_run] at started
    obtain ⟨u,w₁,_,rest⟩ := Outcome.andThen_eq_done.mp started
    cases rest
    exact absurd failed succeeded
  · simp only [finishStart,if_neg failed] at started
    cases started
    rfl

theorem finishRound_done (finished : finishRound m w = .done () w') :
    armdListDelete w.lists (.module m) = some w'.lists ∧ w'.registryInitialized = w.registryInitialized ∧
      (w.modules m).async.state = .active ∧ (w'.modules m).async.state = .closing ∧
      loopView w' = (w.shutdownAsync.pending,w.uvLoop.asyncHandles.filter (· ≠ .module m)) := by
  obtain ⟨_,w₁,stopped,deleted⟩ := Outcome.andThen_eq_done.mp finished
  obtain ⟨_,w₂,closed,rest⟩ := Outcome.andThen_eq_done.mp stopped
  obtain ⟨active,rfl⟩ := close_done closed
  cases rest
  obtain ⟨lists,unlinked,rfl⟩ := onLists_eq_done.mp deleted
  exact ⟨unlinked,rfl,active,by simp [World.async],rfl⟩

end

end Armd.Shutdown
