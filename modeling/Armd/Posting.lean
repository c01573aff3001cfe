import Armd.Operations

/-!
Posting while modules come and go. Threads and callbacks run `armd_module_post`
in its two sections, interleaved in any order with the sections of
`armd_module_start` and `armd_module_stop` of any modules. A post asks nothing
about its module; so it touches only what is in use, and no accepted message is
erased, in every run in which the posts take the mutex only of modules that serve,
and a module that serves is stopped, or started again, only with a drained queue
and no wakeup outstanding (`posts_respect`).
-/
namespace Armd.Posting
open Armd.Programs Armd.Runs Armd.Message Armd.Queue Armd.Memory Armd.Module Armd.StartStop Armd.Lifecycle
  Armd.Operations

variable {M : Type} [DecidableEq M]

/-! ### The sections of the code -/

/-- `armd_module_post` under the mutex; the result says whether there was room. -/
def lockedPost (m : M) (msg : ArmdMsg) : Program (World M) Bool := do
  pthreadMutexLock m
  let w ← Program.get
  match (w.modules m).msgQueue.post msg with
  | none => pure false
  | some q =>
    .change (fun w => w.setQueue m q)
    pure true

/-- `armd_module_post` after it released the mutex. -/
def finishPost (m : M) (msg : ArmdMsg) (accepted : Bool) : Program (World M) ℤ :=
  if accepted then do
    uvAsyncSend (.module m)
    record (.posted m msg 0)
    pure 0
  else do
    record (.posted m msg (-enospc))
    pure (-enospc)

theorem post_sections (m : M) (msg : ArmdMsg) :
    armdModulePost (some m) (some msg) = lockedPost m msg >>= finishPost m msg := by
  funext w
  simp only [armdModulePost,lockedPost,pthreadMutexLock,Program.bind_run,Program.change_run,Outcome.andThen_done,
    Program.get_run]
  cases ((w.record (.mutexLock m (w.modules m).msgQueue.qMutex)).modules m).msgQueue.post msg <;> rfl

/-- `armd_module_start` until it calls `uv_async_init`. -/
def beginStart (m : M) : Program (World M) Unit := do
  record (.startCalled m)
  resetModule m .defaultLoop

/-- The `uv_async_init` of `armd_module_start` and its error branch. -/
def openModule (m : M) (ret : ℤ) : Program (World M) ℤ := do
  let ret ← uvAsyncInit ret (.module m)
  if ret < 0 then do
    pthreadMutexDestroy m
    record (.started m ret)
    pure ret
  else pure ret

/-- `armd_module_start` after `on_start` returned. -/
def finishStart (m : M) (ret : ℤ) : Program (World M) ℤ :=
  if ret < 0 then do
    uvClose (.module m)
    pthreadMutexDestroy m
    record (.started m ret)
    pure ret
  else do
    record (.started m 0)
    pure 0

/-- What runs between the two: `on_start`, where there is one. -/
def startCallback (m : M) : Option (M → Program (World M) ℤ) → Program (World M) ℤ
  | none => pure 0
  | some onStart => do
    record (.onStart m)
    onStart m

theorem start_sections (sys : System M) {m : M} {mops : ArmdModuleOps M} (ops : sys.mops m = some mops) :
    armdModuleStart sys (some m) .defaultLoop = (do
      beginStart m
      let w ← Program.get
      let ret ← openModule m (sys.uvAsyncInitRet w (.module m))
      if ret < 0 then pure ret
      else do
        let ret ← startCallback m mops.onStart
        finishStart m ret) := by
  funext w
  simp only [armdModuleStart,startModule,ops,beginStart,openModule,record,Program.bind_run,Program.change_run,
    Outcome.andThen_done,reset_run,Program.get_run,uvAsyncInit]
  by_cases failed : sys.uvAsyncInitRet (resetWorld w m) (.module m) < 0
  · simp [failed,pthreadMutexDestroy]
  · simp only [if_neg failed,Outcome.andThen_done,Program.ite_run,lt_irrefl,if_false,Program.bind_run,Program.pure_run]
    cases mops.onStart with
    | none => simp [callOnStart,startCallback,finishStart,record]
    | some f =>
      simp only [callOnStart,startCallback,record,Program.bind_run,Program.change_run,Outcome.andThen_done]
      cases f m _ with
      | abort | exhausted => rfl
      | done ret w₁ =>
        by_cases refused : ret < 0
        · simp only [Outcome.andThen_done,if_pos refused,finishStart,Program.bind_run]
          cases uvClose (.module m) w₁ <;> simp [pthreadMutexDestroy,record]
        · simp [refused,finishStart,record]

/-- `armd_module_stop` after `on_stop`. -/
def finishStop (m : M) : Program (World M) Unit := do
  uvClose (.module m)
  pthreadMutexDestroy m
  record (.stopped m)

theorem stop_sections (sys : System M) {m : M} {mops : ArmdModuleOps M} (ops : sys.mops m = some mops) :
    armdModuleStop sys (some m) = (do
      record (.stopCalled m)
      callOnStop m mops.onStop
      finishStop m) := by
  simp only [armdModuleStop,stopModule,ops,finishStop,bind_assoc]

/-! ### The machine -/

variable {P : Type}

/-- Where a thread or a callback is in `armd_module_post`. -/
inductive PostPc (M : Type)
  | outside
  | entered (m : M) (msg : ArmdMsg)
  | unlocked (m : M) (msg : ArmdMsg) (accepted : Bool)

/-- Where a call of `armd_module_start` or `armd_module_stop` is. -/
inductive Frame
  | starting
  | onStart
  | onStop

/-- The world, the calls of start and stop that run for each module, the innermost first, and the posters. -/
structure State (M P : Type) where
  world : World M
  frames : M → List Frame
  poster : P → PostPc M

inductive Label (M P : Type)
  | start (m : M)
  | opened (m : M) (ret : ℤ)
  | started (m : M) (ret : ℤ)
  | stop (m : M)
  | stopped (m : M)
  | call (p : P) (m : M) (msg : ArmdMsg)
  | lock (p : P)
  | finish (p : P)
  | wake (m : M)
  | take (m : M)
  | turn

def State.setFrames (s : State M P) (w : World M) (m : M) (frames : List Frame) : State M P :=
  { s with world := w, frames := Function.update s.frames m frames }

def State.setPoster [DecidableEq P] (s : State M P) (w : World M) (p : P) (pc : PostPc M) : State M P :=
  { s with world := w, poster := Function.update s.poster p pc }

/-- Before `main`. -/
def initial : State M P := ⟨World.zero,fun _ => [],fun _ => .outside⟩

inductive Step [DecidableEq P] (sys : System M) : State M P → Label M P → State M P → Prop
  -- a module without operations is refused at once
  | refuse {s m ret w} : sys.mops m = none → armdModuleStart sys (some m) .defaultLoop s.world = .done ret w →
      Step sys s (.start m) { s with world := w }
  | start {s m w} : sys.mops m ≠ none → beginStart m s.world = .done () w →
      Step sys s (.start m) (s.setFrames w m (.starting :: s.frames m))
  | opened {s m ret r w rest} : s.frames m = .starting :: rest → openModule m ret s.world = .done r w →
      Step sys s (.opened m ret) (s.setFrames w m (if r < 0 then rest else .onStart :: rest))
  -- `on_start` has returned
  | started {s m ret r w rest} : s.frames m = .onStart :: rest → (hasOnStart sys m = true ∨ ret = 0) →
      finishStart m ret s.world = .done r w → Step sys s (.started m ret) (s.setFrames w m rest)
  | ignore {s m w} : sys.mops m = none → armdModuleStop sys (some m) s.world = .done () w →
      Step sys s (.stop m) { s with world := w }
  | stop {s m} : sys.mops m ≠ none →
      Step sys s (.stop m) (s.setFrames (s.world.record (.stopCalled m)) m (.onStop :: s.frames m))
  -- `on_stop` has returned
  | stopped {s m w rest} : s.frames m = .onStop :: rest → finishStop m s.world = .done () w →
      Step sys s (.stopped m) (s.setFrames w m rest)
  | call {s p m msg} : s.poster p = .outside → Step sys s (.call p m msg) (s.setPoster s.world p (.entered m msg))
  | lock {s p m msg accepted w} : s.poster p = .entered m msg → lockedPost m msg s.world = .done accepted w →
      Step sys s (.lock p) (s.setPoster w p (.unlocked m msg accepted))
  | finish {s p m msg accepted ret w} : s.poster p = .unlocked m msg accepted →
      finishPost m msg accepted s.world = .done ret w → Step sys s (.finish p) (s.setPoster w p .outside)
  -- the dispatch clears the flag before it calls `async_callback`
  | wake {s m} : (s.world.modules m).async.state = .active → (s.world.modules m).async.pending = true →
      Step sys s (.wake m)
        { s with world := s.world.setAsync (.module m) { s.world.async (.module m) with pending := false } }
  -- `async_callback` under the mutex; only the locks of posts are written down
  | take {s m msg q} : (s.world.modules m).msgQueue.take = some (msg,q) →
      Step sys s (.take m) { s with world := (s.world.setQueue m q).record (.onMessage m msg) }
  | turn {s w} : uvRunClosingHandles s.world = .done () w → Step sys s .turn { s with world := w }

/-- The module's start returned 0, and since then neither its start nor its stop was called. -/
def Serving (before : List (Event M)) (m : M) : Prop :=
  Since (.started m 0) (fun e => e = .startCalled m ∨ e = .stopCalled m) before

/-- A post touches the mutex and the handle of a serving module only, which are in use, and returns 0 for such
    a module only; a reset finds no message. -/
def Respects (before : List (Event M)) : Event M → Prop
  | .mutexLock m found => Serving before m ∧ found = .live
  | .asyncSend (.module m) found => Serving before m ∧ found = .active
  | .posted m _ ret => ret = 0 → Serving before m
  | .queueReset _ _ lost => lost = []
  | _ => True

/-- A post has enqueued its message and has still to wake the loop. -/
def Sending (s : State M P) (p : P) (m : M) : Prop := ∃ msg, s.poster p = .unlocked m msg true

/-- `async_callback` would find nothing. -/
def Drained (w : World M) (m : M) : Prop := (w.modules m).msgQueue.tail = (w.modules m).msgQueue.head

/-- A call of start or stop outside any other of the same module; if the module serves, its queue is drained and no
    post has still to wake the loop for it. -/
def Rests (s : State M P) (m : M) : Prop :=
  s.frames m = [] ∧ (Serving s.world.trace m → Drained s.world m ∧ ∀ p, ¬ Sending s p m)

/-- A post takes the mutex only while its module serves, and starts and stops come at rest. -/
def Careful (s : State M P) : Label M P → Prop
  | .lock p => ∀ m msg, s.poster p = .entered m msg → Serving s.world.trace m
  | .start m | .stop m => Rests s m
  | _ => True

section
variable {sys : System M} {s s' : State M P} {w w' : World M} {m : M}

omit [DecidableEq M] in
private theorem serving_snoc {before : List (Event M)} {e : Event M} :
    Serving (before ++ [e]) m ↔ e = .started m 0 ∨ (Serving before m ∧ ¬ (e = .startCalled m ∨ e = .stopCalled m)) :=
  since_snoc

/-- The module's mutex and handle are in use. -/
def Usable (w : World M) (m : M) : Prop :=
  (w.modules m).msgQueue.qMutex = .live ∧ (w.modules m).async.state = .active ∧ (w.modules m).async.loop = .defaultLoop

/-! ### What the sections do -/

/-- A section changes no module but its own. -/
def OnlyAt (m : M) (w w' : World M) : Prop := ∀ m', m' ≠ m → w'.modules m' = w.modules m'

private theorem openModule_done {ret r : ℤ} (opened : openModule m ret w = .done r w') : OnlyAt m w w' ∧
    ((r < 0 ∧ w'.trace = w.trace ++ [.asyncInit (.module m) (w.modules m).async.state ret] ++
        [.mutexDestroy m (w.modules m).msgQueue.qMutex] ++ [.started m r]) ∨
      (¬ r < 0 ∧ w'.trace = w.trace ++ [.asyncInit (.module m) (w.modules m).async.state ret] ∧
        w'.modules m = { w.modules m with async := ⟨.defaultLoop,.active,false⟩ })) := by
  by_cases failed : ret < 0
  · simp only [openModule,uvAsyncInit,Program.bind_run,if_pos failed,Outcome.andThen_done] at opened
    cases opened
    exact ⟨fun m' other => by simp [other],.inl ⟨failed,rfl⟩⟩
  · simp only [openModule,uvAsyncInit,Program.bind_run,if_neg failed,Outcome.andThen_done,lt_irrefl,if_false] at opened
    cases opened
    exact ⟨fun m' other => by simp [other],.inr ⟨lt_irrefl 0,rfl,by simp⟩⟩

private theorem finishStart_done {ret r : ℤ} (started : finishStart m ret w = .done r w') : OnlyAt m w w' ∧
    ((r < 0 ∧ w'.trace = w.trace ++ [.close (.module m) (w.modules m).async.state] ++
        [.mutexDestroy m (w.modules m).msgQueue.qMutex] ++ [.started m r]) ∨
      (¬ r < 0 ∧ w'.trace = w.trace ++ [.started m 0] ∧ w'.modules m = w.modules m)) := by
  by_cases failed : ret < 0
  · simp only [finishStart,if_pos failed,Program.bind_run] at started
    obtain ⟨u,w₁,closed,rest⟩ := Outcome.andThen_eq_done.mp started
    obtain ⟨_,rfl⟩ := close_done closed
    cases rest
    exact ⟨fun m' other => by simp [other],.inl ⟨failed,by simp [World.async]⟩⟩
  · simp only [finishStart,if_neg failed] at started
    cases started
    exact ⟨fun _ _ => rfl,.inr ⟨lt_irrefl 0,rfl,rfl⟩⟩

private theorem finishStop_done {u : Unit} (stopped : finishStop m w = .done u w') : OnlyAt m w w' ∧
    w'.trace = w.trace ++ [.close (.module m) (w.modules m).async.state] ++
      [.mutexDestroy m (w.modules m).msgQueue.qMutex] ++ [.stopped m] := by
  obtain ⟨_,w₁,closed,rest⟩ := Outcome.andThen_eq_done.mp stopped
  obtain ⟨_,rfl⟩ := close_done closed
  cases rest
  exact ⟨fun m' other => by simp [other],by simp [World.async]⟩

theorem lockedPost_done {msg : ArmdMsg} {accepted : Bool} (locked : lockedPost m msg w = .done accepted w') :
    core w' = core w ∧ w'.trace = w.trace ++ [.mutexLock m (w.modules m).msgQueue.qMutex] := by
  simp only [lockedPost,pthreadMutexLock,Program.bind_run,Program.change_run,Outcome.andThen_done,Program.get_run] at locked
  have noted : still (w.record (.mutexLock m (w.modules m).msgQueue.qMutex)) = still w := still_record rfl
  cases posted : ((w.record (.mutexLock m (w.modules m).msgQueue.qMutex)).modules m).msgQueue.post msg with
  | none => rw [posted] at locked; cases locked; exact ⟨congrArg Prod.fst noted,rfl⟩
  | some q =>
    rw [posted] at locked
    cases locked
    exact ⟨congrArg Prod.fst ((still_setQueue _ m (ArmdMsgQueue.post_mutex posted)).trans noted),rfl⟩

theorem finishPost_done {msg : ArmdMsg} {accepted : Bool} {ret : ℤ} (finished : finishPost m msg accepted w = .done ret w') :
    core w' = core w ∧ ((accepted = true ∧ w'.trace = w.trace ++ [.asyncSend (.module m) (w.modules m).async.state] ++
      [.posted m msg 0]) ∨ (accepted = false ∧ w'.trace = w.trace ++ [.posted m msg (-enospc)])) := by
  cases accepted with
  | false => cases finished; exact ⟨congrArg Prod.fst (still_record rfl),.inr ⟨rfl,rfl⟩⟩
  | true =>
    obtain ⟨u,w₁,sent,rest⟩ := Outcome.andThen_eq_done.mp finished
    have same : core w₁ = core w := congrArg Prod.fst (still_send (.module m) w u w₁ sent)
    have trace : w₁.trace = w.trace ++ [.asyncSend (.module m) (w.modules m).async.state] := by rw [send_done sent]; rfl
    cases rest
    have noted : core (w₁.record (.posted m msg 0)) = core w₁ := congrArg Prod.fst (still_record rfl)
    exact ⟨noted.trans same,.inl ⟨rfl,by rw [record_trace,trace]⟩⟩

/-- A turn of the loop leaves the mutexes alone, and the handles in use. -/
private theorem usable_closings {u : Unit} (ran : uvRunClosingHandles w = .done u w') :
    (∀ m, (w'.modules m).msgQueue.qMutex = (w.modules m).msgQueue.qMutex) ∧ ∀ m, Usable w m → Usable w' m := by
  have closings := closings_core ran
  obtain ⟨_,mutex,_,handles⟩ := closingsCore_some closings
  have live : ∀ m, (w'.modules m).msgQueue.qMutex = (w.modules m).msgQueue.qMutex := congrFun mutex
  refine ⟨live,fun m usable => ?_⟩
  obtain ⟨mutexLive,active,loop⟩ := usable
  have notClosing : Handle.module m ∉ (core w).uvLoop.closingHandles := by
    intro closing
    have state : (w.modules m).async.state = .closing := (handles (.module m)).1 closing
    rw [active] at state
    cases state
  have state : (w'.modules m).async.state = (w.modules m).async.state :=
    (handles (.module m)).2.trans (if_neg notClosing)
  have loops : (w'.modules m).async.loop = (w.modules m).async.loop :=
    congrFun (closings_loops closings) (.module m)
  exact ⟨(live m).trans mutexLive,state.trans active,loops.trans loop⟩

/-- The indices of the queues. -/
def indices (w : World M) (m : M) : ℕ × ℕ := ((w.modules m).msgQueue.head,(w.modules m).msgQueue.tail)

omit [DecidableEq M] in
private theorem drained_iff : Drained w m ↔ (indices w m).2 = (indices w m).1 := Iff.rfl

private theorem indices_setModule {module : ArmdModule} (same : (module.msgQueue.head,module.msgQueue.tail) = indices w m) :
    indices (w.setModule m module) = indices w := by
  funext m'
  by_cases other : m' = m
  · subst other
    rw [← same]
    simp [indices]
  · simp [indices,other]

private theorem indices_setAsync (w : World M) (h : Handle M) (async : UvAsync) : indices (w.setAsync h async) = indices w := by
  cases h with
  | module m => exact indices_setModule rfl
  | shutdown => rfl

private theorem indices_mutexDestroy (m : M) : Program.Preserves indices (pthreadMutexDestroy m) :=
  Program.preserves_change fun _ => indices_setModule rfl

omit [DecidableEq M] in
private theorem indices_record (e : Event M) : Program.Preserves indices (record e) := Program.preserves_change fun _ => rfl

private theorem indices_close (m : M) : Program.Preserves indices (uvClose (.module m)) := by
  intro w u w' closed
  rw [(close_done closed).2]
  exact indices_setAsync _ (.module m) _

private theorem indices_openModule (m : M) (ret : ℤ) : Program.Preserves indices (openModule m ret) := by
  have opens : Program.Preserves indices (uvAsyncInit ret (.module m)) := by
    intro w r w' opened
    unfold uvAsyncInit at opened
    split at opened
    all_goals cases opened
    · rfl
    · exact indices_setAsync _ (.module m) _
  refine Program.preserves_bind opens fun r => Program.preserves_ite ?_ (Program.preserves_pure r)
  exact Program.preserves_bind (indices_mutexDestroy m) fun _ =>
    Program.preserves_bind (indices_record _) fun _ => Program.preserves_pure r

private theorem indices_finishStart (m : M) (ret : ℤ) : Program.Preserves indices (finishStart m ret) := by
  refine Program.preserves_ite (Program.preserves_bind (indices_close m) fun _ => ?_) ?_
  · exact Program.preserves_bind (indices_mutexDestroy m) fun _ =>
      Program.preserves_bind (indices_record _) fun _ => Program.preserves_pure ret
  · exact Program.preserves_bind (indices_record _) fun _ => Program.preserves_pure 0

private theorem indices_finishStop (m : M) : Program.Preserves indices (finishStop m) :=
  Program.preserves_bind (indices_close m) fun _ =>
    Program.preserves_bind (indices_mutexDestroy m) fun _ => indices_record _

private theorem indices_finishPost (m : M) (msg : ArmdMsg) (accepted : Bool) : Program.Preserves indices (finishPost m msg accepted) := by
  have sends : Program.Preserves indices (uvAsyncSend (.module m)) := by
    intro w u w' sent
    rw [send_done sent]
    exact indices_setAsync _ (.module m) _
  cases accepted with
  | false => exact Program.preserves_bind (indices_record _) fun _ => Program.preserves_pure _
  | true => exact Program.preserves_bind sends fun _ => Program.preserves_bind (indices_record _) fun _ => Program.preserves_pure 0

private theorem indices_closings : Program.Preserves indices (uvRunClosingHandles : Program (World M) Unit) :=
  preserves_closings (fun w h => indices_setAsync w h _) fun _ => rfl

/-- A locked section changes the queue of its module only. -/
private theorem indices_lockedPost {msg : ArmdMsg} {accepted : Bool} (locked : lockedPost m msg w = .done accepted w') {m' : M}
    (other : m' ≠ m) : indices w' m' = indices w m' := by
  simp only [lockedPost,pthreadMutexLock,Program.bind_run,Program.change_run,Outcome.andThen_done,Program.get_run] at locked
  cases posted : ((w.record (.mutexLock m (w.modules m).msgQueue.qMutex)).modules m).msgQueue.post msg with
  | none => rw [posted] at locked; cases locked; rfl
  | some q => rw [posted] at locked; cases locked; simp [indices,other]

/-! ### What every careful run keeps -/

structure Kept (s : State M P) : Prop where
  respects : Along Respects s.world.trace
  alone : ∀ m, s.frames m = [] ∨ ∃ f, s.frames m = [f]
  serving : ∀ m, Serving s.world.trace m → s.frames m = [] ∧ Usable s.world m
  opened : ∀ m, s.frames m = [.onStart] → Usable s.world m
  starting : ∀ m, s.frames m = [.starting] → (s.world.modules m).msgQueue.qMutex = .live
  posting : ∀ p m, Sending s p m → Serving s.world.trace m
  waiting : ∀ m, ¬ Drained s.world m → Serving s.world.trace m

/-- A section of a start or a stop, which no post is in the way of. -/
private theorem kept_acted (kept : Kept s) (noPost : ∀ p, ¬ Sending s p m) {frames : List Frame} (only : OnlyAt m s.world w')
    (drained : Drained w' m) (respects : Along Respects w'.trace) (others : ∀ m', m' ≠ m → (Serving w'.trace m' ↔ Serving s.world.trace m'))
    (alone : frames = [] ∨ ∃ f, frames = [f]) (serving : Serving w'.trace m → frames = [] ∧ Usable w' m)
    (opened : frames = [.onStart] → Usable w' m)
    (starting : frames = [.starting] → (w'.modules m).msgQueue.qMutex = .live) : Kept (s.setFrames w' m frames) := by
  have same : ∀ m', m' ≠ m → (s.setFrames w' m frames).frames m' = s.frames m' := fun m' other => by
    simp [State.setFrames,other]
  have self : (s.setFrames w' m frames).frames m = frames := by simp [State.setFrames]
  have untouched : ∀ m', m' ≠ m → (s.setFrames w' m frames).world.modules m' = s.world.modules m' := only
  refine ⟨respects,fun m' => ?_,fun m' serves => ?_,fun m' => ?_,fun m' => ?_,fun p m' sending => ?_,fun m' waits => ?_⟩
  · by_cases other : m' = m
    · subst other; rw [self]; exact alone
    · rw [same m' other]; exact kept.alone m'
  · by_cases other : m' = m
    · subst other; rw [self]; exact serving serves
    · rw [same m' other,Usable,untouched m' other]
      exact kept.serving m' ((others m' other).mp serves)
  · by_cases other : m' = m
    · subst other; rw [self]; exact opened
    · rw [same m' other,Usable,untouched m' other]
      exact kept.opened m'
  · by_cases other : m' = m
    · subst other; rw [self]; exact starting
    · rw [same m' other,untouched m' other]
      exact kept.starting m'
  · have other : m' ≠ m := by rintro rfl; exact noPost p sending
    exact (others m' other).mpr (kept.posting p m' sending)
  · have other : m' ≠ m := by rintro rfl; exact waits drained
    rw [Drained,untouched m' other] at waits
    exact (others m' other).mpr (kept.waiting m' waits)

/-- A call that neither starts nor stops anything leaves the frames. -/
private theorem setFrames_self (s : State M P) (w : World M) (m : M) : s.setFrames w m (s.frames m) = { s with world := w } := by
  simp [State.setFrames]

section
variable {f : Frame} {rest : List Frame} (kept : Kept s) (frame : s.frames m = f :: rest)
include kept frame

omit [DecidableEq M] in
theorem Kept.last : rest = [] := by
  rcases kept.alone m with none | ⟨f',single⟩
  · rw [frame] at none; cases none
  · rw [frame] at single; exact (List.cons.inj single).2

omit [DecidableEq M] in
private theorem Kept.notServing : ¬ Serving s.world.trace m := by
  intro serves
  have none := (kept.serving m serves).1
  rw [frame] at none
  cases none

omit [DecidableEq M] in
/-- No post has still to wake the loop while a start or stop of its module runs, and no message waits. -/
private theorem Kept.noPost (p : P) : ¬ Sending s p m := fun sending => kept.notServing frame (kept.posting p m sending)

omit [DecidableEq M] in
theorem Kept.drained : Drained s.world m := by
  by_contra waits
  exact kept.notServing frame (kept.waiting m waits)

end

omit [DecidableEq M] in
/-- At rest the queue is drained and no post has still to wake the loop, whether the module serves or not. -/
private theorem Kept.rests (kept : Kept s) (rests : Rests s m) : Drained s.world m ∧ ∀ p, ¬ Sending s p m := by
  by_cases serves : Serving s.world.trace m
  · exact rests.2 serves
  · exact ⟨not_not.mp fun waits => serves (kept.waiting m waits),fun p sending => serves (kept.posting p m sending)⟩

private theorem kept_start (kept : Kept s) (rests : Rests s m) (begun : beginStart m s.world = .done () w) :
    Kept (s.setFrames w m (.starting :: s.frames m)) := by
  obtain ⟨drained,noPost⟩ := kept.rests rests
  have reset : beginStart m s.world = .done () (resetWorld s.world m) := reset_run s.world m
  cases reset.symm.trans begun
  have trace : (resetWorld s.world m).trace = s.world.trace ++ [.startCalled m] ++
      [.mutexInit m (s.world.modules m).msgQueue.qMutex] ++
        [.queueReset m (s.world.modules m).async.state (s.world.modules m).msgQueue.pending] := by simp [resetWorld]
  refine kept_acted kept noPost (fun m' other => by simp [resetWorld,World.setModule,other])
    (by simp [Drained,resetWorld,World.setModule,freshModule,ArmdMsgQueue.reset]) ?_ (fun m' other => ?_)
    (.inr ⟨.starting,by rw [rests.1]⟩) (fun serves => ?_) (by simp) (fun _ => by simp [resetWorld,World.setModule,freshModule])
  · rw [trace,along_snoc,along_snoc,along_snoc]
    exact ⟨⟨⟨kept.respects,trivial⟩,trivial⟩,ArmdMsgQueue.pending_of_meet drained⟩
  · rw [trace,serving_snoc,serving_snoc,serving_snoc]
    simp [Ne.symm other]
  · rw [trace,serving_snoc,serving_snoc,serving_snoc] at serves
    simp at serves

private theorem kept_opened (kept : Kept s) {ret r : ℤ} {rest : List Frame} (frame : s.frames m = .starting :: rest)
    (opened : openModule m ret s.world = .done r w) :
    Kept (s.setFrames w m (if r < 0 then rest else .onStart :: rest)) := by
  have notServing := kept.notServing frame
  have drained : Drained w m := by
    rw [drained_iff,indices_openModule m ret s.world r w opened]
    exact kept.drained frame
  obtain rfl := kept.last frame
  obtain ⟨only,⟨failed,trace⟩ | ⟨opens,trace,module⟩⟩ := openModule_done opened
  · rw [if_pos failed]
    refine kept_acted kept (kept.noPost frame) only drained ?_ (fun m' other => ?_) (.inl rfl) (fun serves => ?_) (by simp) (by simp)
    · rw [trace,along_snoc,along_snoc,along_snoc]
      exact ⟨⟨⟨kept.respects,trivial⟩,trivial⟩,trivial⟩
    · rw [trace,serving_snoc,serving_snoc,serving_snoc]
      simp [Ne.symm other]
    · rw [trace,serving_snoc,serving_snoc,serving_snoc] at serves
      simp [notServing,failed.ne] at serves
  · rw [if_neg opens]
    refine kept_acted kept (kept.noPost frame) only drained ?_ (fun m' other => ?_) (.inr ⟨_,rfl⟩) (fun serves => ?_) (fun _ => ?_)
      (by simp)
    · rw [trace,along_snoc]
      exact ⟨kept.respects,trivial⟩
    · rw [trace,serving_snoc]
      simp
    · rw [trace,serving_snoc] at serves
      simp [notServing] at serves
    · rw [Usable,module]
      exact ⟨kept.starting m frame,rfl,rfl⟩

theorem kept_started (kept : Kept s) {ret r : ℤ} {rest : List Frame} (frame : s.frames m = .onStart :: rest)
    (started : finishStart m ret s.world = .done r w) : Kept (s.setFrames w m rest) := by
  have notServing := kept.notServing frame
  have drained : Drained w m := by
    rw [drained_iff,indices_finishStart m ret s.world r w started]
    exact kept.drained frame
  obtain rfl := kept.last frame
  obtain ⟨only,⟨failed,trace⟩ | ⟨_,trace,module⟩⟩ := finishStart_done started
  · refine kept_acted kept (kept.noPost frame) only drained ?_ (fun m' other => ?_) (.inl rfl) (fun serves => ?_) (by simp) (by simp)
    · rw [trace,along_snoc,along_snoc,along_snoc]
      exact ⟨⟨⟨kept.respects,trivial⟩,trivial⟩,trivial⟩
    · rw [trace,serving_snoc,serving_snoc,serving_snoc]
      simp [Ne.symm other]
    · rw [trace,serving_snoc,serving_snoc,serving_snoc] at serves
      simp [notServing,failed.ne] at serves
  · refine kept_acted kept (kept.noPost frame) only drained ?_ (fun m' other => ?_) (.inl rfl) (fun _ => ⟨rfl,?_⟩) (by simp) (by simp)
    · rw [trace,along_snoc]
      exact ⟨kept.respects,trivial⟩
    · rw [trace,serving_snoc]
      simp [Ne.symm other]
    · rw [Usable,module]
      exact kept.opened m frame

private theorem kept_stop (kept : Kept s) (rests : Rests s m) :
    Kept (s.setFrames (s.world.record (.stopCalled m)) m (.onStop :: s.frames m)) := by
  obtain ⟨drained,noPost⟩ := kept.rests rests
  refine kept_acted kept noPost (fun _ _ => rfl) drained ?_ (fun m' other => ?_) (.inr ⟨.onStop,by rw [rests.1]⟩)
    (fun serves => ?_) (by simp) (by simp)
  · rw [record_trace,along_snoc]
    exact ⟨kept.respects,trivial⟩
  · rw [record_trace,serving_snoc]
    simp [Ne.symm other]
  · rw [record_trace,serving_snoc] at serves
    simp at serves

private theorem kept_stopped (kept : Kept s) {rest : List Frame} (frame : s.frames m = .onStop :: rest)
    (stopped : finishStop m s.world = .done () w) : Kept (s.setFrames w m rest) := by
  have notServing := kept.notServing frame
  have drained : Drained w m := by
    rw [drained_iff,indices_finishStop m s.world () w stopped]
    exact kept.drained frame
  obtain rfl := kept.last frame
  obtain ⟨only,trace⟩ := finishStop_done stopped
  refine kept_acted kept (kept.noPost frame) only drained ?_ (fun m' _ => ?_) (.inl rfl) (fun serves => ?_) (by simp) (by simp)
  · rw [trace,along_snoc,along_snoc,along_snoc]
    exact ⟨⟨⟨kept.respects,trivial⟩,trivial⟩,trivial⟩
  · rw [trace,serving_snoc,serving_snoc,serving_snoc]
    simp
  · rw [trace,serving_snoc,serving_snoc,serving_snoc] at serves
    simp [notServing] at serves

/-- The start of a module without operations. -/
private theorem kept_refuse (kept : Kept s) (rests : Rests s m) {ret : ℤ} (none : sys.mops m = none)
    (refused : armdModuleStart sys (some m) .defaultLoop s.world = .done ret w) : Kept { s with world := w } := by
  obtain ⟨drained,noPost⟩ := kept.rests rests
  have rest := rests.1
  have run : armdModuleStart sys (some m) .defaultLoop s.world =
      .done (-einval) ((s.world.record (.startCalled m)).record (.started m (-einval))) := by
    simp [armdModuleStart,startModule,none,record]
  cases run.symm.trans refused
  rw [← setFrames_self s _ m]
  refine kept_acted kept noPost (fun _ _ => rfl) drained ?_ (fun m' other => ?_) (.inl rest) (fun serves => ?_) (by simp [rest])
    (by simp [rest])
  · rw [record_trace,record_trace,along_snoc,along_snoc]
    exact ⟨⟨kept.respects,trivial⟩,trivial⟩
  · rw [record_trace,record_trace,serving_snoc,serving_snoc]
    simp [Ne.symm other]
  · rw [record_trace,record_trace,serving_snoc,serving_snoc] at serves
    simp [einval] at serves

/-- The stop of a module without operations. -/
private theorem kept_ignore (kept : Kept s) (rests : Rests s m) (none : sys.mops m = none)
    (ignored : armdModuleStop sys (some m) s.world = .done () w) : Kept { s with world := w } := by
  obtain ⟨drained,noPost⟩ := kept.rests rests
  have rest := rests.1
  have run : armdModuleStop sys (some m) s.world =
      .done () ((s.world.record (.stopCalled m)).record (.stopped m)) := by
    simp [armdModuleStop,stopModule,none,record]
  cases run.symm.trans ignored
  rw [← setFrames_self s _ m]
  refine kept_acted kept noPost (fun _ _ => rfl) drained ?_ (fun m' other => ?_) (.inl rest) (fun serves => ?_) (by simp [rest])
    (by simp [rest])
  · rw [record_trace,record_trace,along_snoc,along_snoc]
    exact ⟨⟨kept.respects,trivial⟩,trivial⟩
  · rw [record_trace,record_trace,serving_snoc,serving_snoc]
    simp [Ne.symm other]
  · rw [record_trace,record_trace,serving_snoc,serving_snoc] at serves
    simp at serves

omit [DecidableEq M] in
/-- A step that neither starts nor stops anything. -/
private theorem kept_else (kept : Kept s) {poster : P → PostPc M} (usable : ∀ m, Usable s.world m → Usable w m)
    (live : ∀ m, (w.modules m).msgQueue.qMutex = (s.world.modules m).msgQueue.qMutex) (respects : Along Respects w.trace)
    (serving : ∀ m, Serving w.trace m ↔ Serving s.world.trace m)
    (posting : ∀ p m, Sending (⟨w,s.frames,poster⟩ : State M P) p m → Serving s.world.trace m)
    (waiting : ∀ m, ¬ Drained w m → Serving s.world.trace m) :
    Kept (⟨w,s.frames,poster⟩ : State M P) where
  respects := respects
  alone := kept.alone
  serving := fun m serves =>
    have before := kept.serving m ((serving m).mp serves)
    ⟨before.1,usable m before.2⟩
  opened := fun m frame => usable m (kept.opened m frame)
  starting := fun m frame => (live m).trans (kept.starting m frame)
  posting := fun p m sending => (serving m).mpr (posting p m sending)
  waiting := fun m waits => (serving m).mpr (waiting m waits)

omit [DecidableEq M] in
/-- A step that leaves the life cycle alone. -/
private theorem kept_still (kept : Kept s) {poster : P → PostPc M} (same : core w = core s.world)
    (respects : Along Respects w.trace) (serving : ∀ m, Serving w.trace m ↔ Serving s.world.trace m)
    (posting : ∀ p m, Sending (⟨w,s.frames,poster⟩ : State M P) p m → Serving s.world.trace m)
    (waiting : ∀ m, ¬ Drained w m → Serving s.world.trace m) :
    Kept (⟨w,s.frames,poster⟩ : State M P) := by
  have mutex : ∀ m, (w.modules m).msgQueue.qMutex = (s.world.modules m).msgQueue.qMutex :=
    congrFun (congrArg Core.mutex same)
  have handle : ∀ m, (w.modules m).async.state = (s.world.modules m).async.state := fun m =>
    congrFun (congrArg Core.handle same) (.module m)
  have loops : ∀ m, (w.modules m).async.loop = (s.world.modules m).async.loop := fun m =>
    congrFun (congrArg Core.loops same) (.module m)
  refine kept_else kept (fun m usable => ?_) mutex respects serving posting waiting
  rw [Usable,mutex,handle,loops]
  exact usable

omit [DecidableEq M] in
/-- Where the indices of the queues stay what they were, only modules that serve have messages. -/
private theorem Kept.still_waiting (kept : Kept s) (same : indices w = indices s.world) (m : M) (waits : ¬ Drained w m) :
    Serving s.world.trace m := by
  rw [drained_iff,same] at waits
  exact kept.waiting m waits

omit [DecidableEq M] in
private theorem sending_setPoster [DecidableEq P] {p p' : P} {pc : PostPc M} (sending : Sending (s.setPoster w p pc) p' m) :
    Sending s p' m ∨ (p' = p ∧ ∃ msg, pc = .unlocked m msg true) := by
  by_cases same : p' = p
  · subst same
    simp only [Sending,State.setPoster,Function.update_self] at sending
    exact .inr ⟨rfl,sending⟩
  · simp only [Sending,State.setPoster,Function.update_of_ne same] at sending
    exact .inl sending

private theorem kept_step [DecidableEq P] {l : Label M P} (kept : Kept s) (careful : Careful s l) (step : Step sys s l s') : Kept s' := by
  cases step with
  | refuse none refused => exact kept_refuse kept careful none refused
  | start _ begun => exact kept_start kept careful begun
  | opened frame opened => exact kept_opened kept frame opened
  | started frame _ started => exact kept_started kept frame started
  | ignore none ignored => exact kept_ignore kept careful none ignored
  | stop => exact kept_stop kept careful
  | stopped frame stopped => exact kept_stopped kept frame stopped
  | @call p m msg =>
    refine kept_still kept rfl kept.respects (fun _ => Iff.rfl) (fun p' m' sending => ?_) kept.waiting
    rcases sending_setPoster sending with before | ⟨_,msg',same⟩
    · exact kept.posting p' m' before
    · cases same
  | @lock p m msg accepted w entered locked =>
    have serves : Serving s.world.trace m := careful m msg entered
    obtain ⟨same,trace⟩ := lockedPost_done locked
    refine kept_still kept same ?_ (fun m' => ?_) (fun p' m' sending => ?_) fun m' waits => ?_
    · rw [trace,along_snoc]
      exact ⟨kept.respects,serves,(kept.serving m serves).2.1⟩
    · rw [trace,serving_snoc]; simp
    · rcases sending_setPoster sending with before | ⟨_,msg',same⟩
      · exact kept.posting p' m' before
      · cases same; exact serves
    · by_cases other : m' = m
      · exact other ▸ serves
      · rw [drained_iff,indices_lockedPost locked other] at waits
        exact kept.waiting m' waits
  | @finish p m msg accepted ret w unlocked finished =>
    have outside : ∀ p' m', Sending (s.setPoster w p .outside) p' m' → Serving s.world.trace m' := by
      intro p' m' sending
      rcases sending_setPoster sending with before | ⟨_,_,same⟩
      · exact kept.posting p' m' before
      · cases same
    have waiting := kept.still_waiting (indices_finishPost m msg accepted s.world ret w finished)
    obtain ⟨same,⟨rfl,trace⟩ | ⟨_,trace⟩⟩ := finishPost_done finished
    · have serves : Serving s.world.trace m := kept.posting p m ⟨msg,unlocked⟩
      refine kept_still kept same ?_ (fun m' => ?_) outside waiting
      · rw [trace,along_snoc,along_snoc]
        exact ⟨⟨kept.respects,serves,(kept.serving m serves).2.2.1⟩,fun _ => serving_snoc.mpr (.inr ⟨serves,by simp⟩)⟩
      · rw [trace,serving_snoc,serving_snoc]; simp
    · refine kept_still kept same ?_ (fun m' => ?_) outside waiting
      · rw [trace,along_snoc]
        exact ⟨kept.respects,fun zero => absurd zero (by decide)⟩
      · rw [trace,serving_snoc]; simp [enospc]
  | @wake m active pending =>
    exact kept_still kept (congrArg Prod.fst (still_setPending s.world (.module m) false)) kept.respects
      (fun _ => Iff.rfl) kept.posting (kept.still_waiting (indices_setAsync s.world (.module m) _))
  | @take m msg q got =>
    have queued := still_setQueue s.world m (ArmdMsgQueue.take_mutex got)
    have noted : still ((s.world.setQueue m q).record (.onMessage m msg)) = still (s.world.setQueue m q) := still_record rfl
    refine kept_still kept (congrArg Prod.fst (noted.trans queued)) ?_ (fun m' => ?_) kept.posting fun m' waits => ?_
    · rw [record_trace,along_snoc]
      exact ⟨kept.respects,trivial⟩
    · rw [record_trace,serving_snoc]; simp
    · refine kept.waiting m' fun drained => waits ?_
      by_cases other : m' = m
      · subst other
        simp [ArmdMsgQueue.take,show (s.world.modules m').msgQueue.tail = _ from drained] at got
      · simpa [Drained,other] using drained
  | @turn w ran =>
    have trace : w.trace = s.world.trace := closings_trace s.world () w ran
    obtain ⟨live,usable⟩ := usable_closings ran
    exact kept_else kept usable live (by rw [trace]; exact kept.respects) (fun _ => by rw [trace]) kept.posting
      (kept.still_waiting (indices_closings s.world () w ran))

omit [DecidableEq M] in
private theorem kept_initial : Kept (initial : State M P) where
  respects := along_nil _
  alone := fun _ => .inl rfl
  serving := fun _ serves => absurd serves (since_nil _ _)
  opened := fun _ frame => by cases frame
  starting := fun _ frame => by cases frame
  posting := fun _ _ sending => by obtain ⟨_,outside⟩ := sending; cases outside
  waiting := fun _ waits => absurd rfl waits

private theorem lockedPost_ends (m : M) (msg : ArmdMsg) (w : World M) : ∃ accepted w', lockedPost m msg w = .done accepted w' := by
  simp only [lockedPost,pthreadMutexLock,Program.bind_run,Program.change_run,Outcome.andThen_done,Program.get_run]
  cases ((w.record (.mutexLock m (w.modules m).msgQueue.qMutex)).modules m).msgQueue.post msg with
  | none => exact ⟨false,_,rfl⟩
  | some q => exact ⟨true,_,rfl⟩

private theorem finishPost_ends (usable : Usable w m) (msg : ArmdMsg) : ∃ ret w', finishPost m msg true w = .done ret w' := by
  have sent := send_run (show (w.async (.module m)).loop = .defaultLoop from usable.2.2)
  exact ⟨0,_,by simp only [finishPost,if_true,Program.bind_run,sent]; rfl⟩

/-- All that happened respects the life cycle, only modules that serve have messages, and a post that has still to
    wake the loop has its mutex and its handle in use. Every post in progress can take its next step. -/
structure Respected (s : State M P) : Prop where
  events : Along Respects s.world.trace
  queued : ∀ m, (s.world.modules m).msgQueue.pending ≠ [] → Serving s.world.trace m
  inUse : ∀ p m, Sending s p m → Serving s.world.trace m ∧ Usable s.world m
  locks : ∀ p m msg, s.poster p = .entered m msg → ∃ accepted w, lockedPost m msg s.world = .done accepted w
  returns : ∀ p m msg accepted, s.poster p = .unlocked m msg accepted →
    ∃ ret w, finishPost m msg accepted s.world = .done ret w

private theorem Kept.respected (kept : Kept s) : Respected s where
  events := kept.respects
  queued := fun m pending => kept.waiting m fun drained => pending (ArmdMsgQueue.pending_of_meet drained)
  inUse := fun p m sending => ⟨kept.posting p m sending,(kept.serving m (kept.posting p m sending)).2⟩
  locks := fun _ m msg _ => lockedPost_ends m msg s.world
  returns := fun p m msg accepted unlocked => by
    cases accepted with
    | false => exact ⟨_,_,rfl⟩
    | true => exact finishPost_ends (kept.serving m (kept.posting p m ⟨msg,unlocked⟩)).2 msg

/-- Posting respects the life cycle in every careful run. -/
theorem posts_respect [DecidableEq P] {labels : List (Label M P)} (run : Run (When (Step sys) Careful) initial labels s) : Respected s := by
  have kept : Kept s := run.invariant Kept kept_initial fun _ _ _ kept step => kept_step kept step.2 step.1
  exact kept.respected

/-- A post that locks the mutex of a module that does not serve breaks the life cycle. -/
theorem post_elsewhere [DecidableEq P] {p : P} {msg : ArmdMsg} (entered : s.poster p = .entered m msg)
    (notServing : ¬ Serving s.world.trace m) (step : Step sys s (.lock p) s') : ¬ Along Respects s'.world.trace := by
  cases step with
  | @lock _ m' msg' accepted w entered' locked =>
    cases entered.symm.trans entered'
    obtain ⟨_,trace⟩ := lockedPost_done locked
    rw [State.setPoster,trace,along_snoc]
    exact fun both => notServing both.2.1

end

/-- A module that was started is posted to, its message is taken, and it is stopped. -/
theorem post_to_serving : ∃ s : State Unit Unit, Run (When (Step plainSystem) Careful) initial
    [.start (),.opened () 0,.started () 0,.call () () zeroMsg,.lock (),.finish (),.wake (),.take (),.stop ()] s ∧
      Respected s := by
  have served : ∃ s : State Unit Unit, Run (When (Step plainSystem) Careful) initial
      [.start (),.opened () 0,.started () 0,.call () () zeroMsg,.lock (),.finish (),.wake (),.take ()] s ∧
        Rests s () :=
    ⟨_,(((((((Run.single ⟨.start (by simp [plainSystem]) rfl,rfl,fun serves => absurd serves (since_nil _ _)⟩).snoc
      ⟨.opened rfl rfl,trivial⟩).snoc ⟨.started rfl (.inr rfl) rfl,trivial⟩).snoc
      ⟨.call rfl,trivial⟩).snoc ⟨.lock rfl rfl,fun _ _ _ => since_snoc.mpr (.inl rfl)⟩).snoc ⟨.finish rfl rfl,trivial⟩).snoc
      ⟨.wake rfl rfl,trivial⟩).snoc ⟨.take rfl,trivial⟩,by exact ⟨rfl,fun _ => ⟨rfl,fun _ ⟨_,outside⟩ => by cases outside⟩⟩⟩
  obtain ⟨s,run,rests⟩ := served
  have stopped := run.snoc ⟨.stop (by simp [plainSystem]),rests⟩
  exact ⟨_,stopped,posts_respect stopped⟩

/-- A stopped module is posted to: its destroyed mutex is locked, a closing handle is sent to, the post returns 0,
    and the next start erases the message. -/
theorem stopped_module_takes_a_message : ∃ s : State Unit Unit, Run (Step plainSystem) initial
      [.start (),.opened () 0,.started () 0,.stop (),.stopped (),.call () () zeroMsg,.lock (),.finish (),.turn,
        .start ()] s ∧
    s.world.trace = [.startCalled (),.mutexInit () .zero,.queueReset () .unknown [],.asyncInit (.module ()) .unknown 0,
      .started () 0,.stopCalled (),.close (.module ()) .active,.mutexDestroy () .live,.stopped (),
      .mutexLock () .destroyed,.asyncSend (.module ()) .closing,.posted () zeroMsg 0,
      .startCalled (),.mutexInit () .destroyed,.queueReset () .closed [zeroMsg]] ∧ ¬ Respected s := by
  refine ⟨_,(((((((((Run.single (.start (by simp [plainSystem]) rfl)).snoc (.opened rfl rfl)).snoc
      (.started rfl (.inr rfl) rfl)).snoc (.stop (by simp [plainSystem]))).snoc (.stopped rfl rfl)).snoc
      (.call rfl)).snoc (.lock rfl rfl)).snoc (.finish rfl rfl)).snoc (.turn rfl)).snoc
      (.start (by simp [plainSystem]) rfl),rfl,fun respected => ?_⟩
  have erased : Along Respects (_ ++ [.queueReset () .closed [zeroMsg]]) := respected.events
  cases (along_snoc.mp erased).2

/-- A module that serves is stopped with a message in its queue, and the next start erases it. -/
theorem stopped_module_loses_a_message : ∃ s : State Unit Unit, Run (Step plainSystem) initial
      [.start (),.opened () 0,.started () 0,.call () () zeroMsg,.lock (),.finish (),.stop (),.stopped (),.turn,.start ()] s ∧
    ¬ Respected s := by
  refine ⟨_,(((((((((Run.single (.start (by simp [plainSystem]) rfl)).snoc (.opened rfl rfl)).snoc
      (.started rfl (.inr rfl) rfl)).snoc (.call rfl)).snoc (.lock rfl rfl)).snoc (.finish rfl rfl)).snoc
      (.stop (by simp [plainSystem]))).snoc (.stopped rfl rfl)).snoc (.turn rfl)).snoc
      (.start (by simp [plainSystem]) rfl),fun respected => ?_⟩
  have erased : Along Respects (_ ++ [.queueReset () .closed [zeroMsg]]) := respected.events
  cases (along_snoc.mp erased).2

end Armd.Posting
