import Armd.Memory

/-!
`core/module.c`: starting, stopping and posting to a module, and the callback
that drains its queue.
-/
namespace Armd.Module
open Armd.Programs Armd.Message Armd.Queue Armd.Memory

/-- `armd_module_ops_t`: the callbacks of a module, each nullable. -/
structure ArmdModuleOps (M : Type) where
  onStart : Option (M → Program (World M) ℤ)
  onMessage : Option (M → ArmdMsg → Program (World M) ℤ)
  onStop : Option (M → Program (World M) ℤ)

/-- What the code around the daemon's core provides: the modules' names and callbacks, and
    what `uv_async_init` returns in each situation. -/
structure System (M : Type) where
  name : M → ℕ → UInt8
  mops : M → Option (ArmdModuleOps M)
  uvAsyncInitRet : World M → Handle M → ℤ

variable {M : Type} [DecidableEq M]

def record (e : Event M) : Program (World M) Unit := .change (fun w => w.record e)

/-- The end of `armd_module_start`, once the async handle is initialised. -/
def callOnStart (m : M) : Option (M → Program (World M) ℤ) → Program (World M) ℤ
  | none => pure 0
  | some onStart => do
    record (.onStart m)
    let ret ← onStart m
    if ret < 0 then do
      uvClose (.module m)
      pthreadMutexDestroy m
      pure ret
    else pure 0

/-- The loop, the mutex and the queue of `armd_module_start`. -/
def resetModule (m : M) (loop : LoopRef) : Program (World M) Unit := do
  .change (fun w => w.setModule m { w.modules m with loop := loop })
  pthreadMutexInit m
  .change (fun w => (w.setQueue m (w.modules m).msgQueue.reset).record
    (.queueReset m (w.modules m).async.state (w.modules m).msgQueue.pending))

/-- The body of `armd_module_start` for a module that is not null. -/
def startModule (sys : System M) (m : M) (loop : LoopRef) : Program (World M) ℤ :=
  match loop, sys.mops m with
  | .null, _ => pure (-einval)
  | .defaultLoop, none => pure (-einval)
  | .defaultLoop, some mops => do
    resetModule m loop
    let w ← Program.get
    let ret ← uvAsyncInit (sys.uvAsyncInitRet w (.module m)) (.module m)
    if ret < 0 then do
      pthreadMutexDestroy m
      pure ret
    else callOnStart m mops.onStart

def armdModuleStart (sys : System M) (mod : Option M) (loop : LoopRef) : Program (World M) ℤ :=
  match mod with
  | none => pure (-einval)
  | some m => do
    record (.startCalled m)
    let ret ← startModule sys m loop
    record (.started m ret)
    pure ret

/-- The `on_stop` call of `armd_module_stop`. -/
def callOnStop (m : M) : Option (M → Program (World M) ℤ) → Program (World M) Unit
  | none => pure ()
  | some onStop => do
    record (.onStop m)
    let _ ← onStop m
    pure ()

/-- The body of `armd_module_stop` for a module that is not null. -/
def stopModule (sys : System M) (m : M) : Program (World M) Unit :=
  match sys.mops m with
  | none => pure ()
  | some mops => do
    callOnStop m mops.onStop
    uvClose (.module m)
    pthreadMutexDestroy m

def armdModuleStop (sys : System M) (mod : Option M) : Program (World M) Unit :=
  match mod with
  | none => pure ()
  | some m => do
    record (.stopCalled m)
    stopModule sys m
    record (.stopped m)

def armdModulePost (mod : Option M) (msg : Option ArmdMsg) : Program (World M) ℤ :=
  match mod, msg with
  | some m, some msg => do
    pthreadMutexLock m
    let w ← Program.get
    match (w.modules m).msgQueue.post msg with
    | none =>
      record (.posted m msg (-enospc))
      pure (-enospc)
    | some q =>
      .change (fun w => w.setQueue m q)
      uvAsyncSend (.module m)
      record (.posted m msg 0)
      pure 0
  | _, _ => pure (-einval)

/-- One round of the loop in `async_callback`. -/
def asyncCallbackRound (sys : System M) (m : M) : Program (World M) (Unit ⊕ Unit) := do
  pthreadMutexLock m
  let w ← Program.get
  match (w.modules m).msgQueue.take with
  | none => pure (.inr ())
  | some (msg,q) =>
    .change (fun w => w.setQueue m q)
    match (sys.mops m).bind (·.onMessage) with
    | none => pure (.inl ())
    | some onMessage =>
      record (.onMessage m msg)
      let _ ← onMessage m msg
      pure (.inl ())

/-- `async_callback` on the handle whose `data` is the module. -/
def asyncCallback (sys : System M) (fuel : ℕ) (m : M) : Program (World M) Unit :=
  Program.loop (fun _ => asyncCallbackRound sys m) fuel ()

/-- The part of the world that belongs to the registry. -/
def registryView (w : World M) : LinkedRings.Heap (Node M) × Bool := (w.lists,w.registryInitialized)

/-- The callbacks of a system leave the registry alone. -/
structure RegistryQuiet (sys : System M) : Prop where
  onStart : ∀ m mops f, sys.mops m = some mops → mops.onStart = some f → Program.Preserves registryView (f m)
  onStop : ∀ m mops f, sys.mops m = some mops → mops.onStop = some f → Program.Preserves registryView (f m)

/-- The `on_start` callbacks of a system leave the registry alone. -/
def StartQuiet (sys : System M) : Prop :=
  ∀ m mops f, sys.mops m = some mops → mops.onStart = some f → Program.Preserves registryView (f m)

/-- The `on_stop` callbacks of a system leave the registry alone. -/
def StopQuiet (sys : System M) : Prop :=
  ∀ m mops f, sys.mops m = some mops → mops.onStop = some f → Program.Preserves registryView (f m)

/-- The world in which `armd_module_post` wakes the loop. -/
def queuedWorld (w : World M) (m : M) (q : ArmdMsgQueue) : World M :=
  (w.record (.mutexLock m (w.modules m).msgQueue.qMutex)).setQueue m q

@[simp] theorem queuedWorld_trace (w : World M) (m : M) (q : ArmdMsgQueue) :
    (queuedWorld w m q).trace = w.trace ++ [.mutexLock m (w.modules m).msgQueue.qMutex] := rfl
@[simp] theorem queuedWorld_modules (w : World M) (m : M) (q : ArmdMsgQueue) :
    (queuedWorld w m q).modules = Function.update w.modules m { w.modules m with msgQueue := q } := rfl

/-- A post to a full queue. -/
theorem post_full {w : World M} {m : M} {msg : ArmdMsg} (full : (w.modules m).msgQueue.post msg = none) :
    armdModulePost (some m) (some msg) w =
      .done (-enospc) ((w.record (.mutexLock m (w.modules m).msgQueue.qMutex)).record (.posted m msg (-enospc))) := by
  simp [armdModulePost,pthreadMutexLock,full,record]

/-- A post to a queue with room. -/
theorem post_accepted {w : World M} {m : M} {msg : ArmdMsg} {q : ArmdMsgQueue}
    (room : (w.modules m).msgQueue.post msg = some q) : armdModulePost (some m) (some msg) w =
      (uvAsyncSend (.module m) (queuedWorld w m q)).andThen fun _ => record (.posted m msg 0) >>= fun _ => pure 0 := by
  simp only [armdModulePost,pthreadMutexLock,Program.bind_run,Program.change_run,Outcome.andThen_done,Program.get_run,
    record_modules,room]
  rfl

theorem post_done {w w' : World M} {m : M} {msg : ArmdMsg} {ret : ℤ}
    (ran : armdModulePost (some m) (some msg) w = .done ret w') :
    ((w.modules m).msgQueue.post msg = none ∧
      w' = (w.record (.mutexLock m (w.modules m).msgQueue.qMutex)).record (.posted m msg (-enospc))) ∨
      ∃ q, (w.modules m).msgQueue.post msg = some q ∧
        w' = (sentWorld (queuedWorld w m q) (.module m)).record (.posted m msg 0) := by
  cases posted : (w.modules m).msgQueue.post msg with
  | none =>
    rw [post_full posted] at ran
    exact .inl ⟨rfl,(Outcome.done.inj ran).2.symm⟩
  | some q =>
    rw [post_accepted posted] at ran
    obtain ⟨_,v,sent,ran⟩ := Outcome.andThen_eq_done.mp ran
    cases send_done sent
    exact .inr ⟨q,rfl,(Outcome.done.inj ran).2.symm⟩

section
open Program

theorem preserves_mutexInit (m : M) : Preserves registryView (pthreadMutexInit m) := preserves_change (fun _ => rfl)
theorem preserves_mutexDestroy (m : M) : Preserves registryView (pthreadMutexDestroy m) := preserves_change (fun _ => rfl)
omit [DecidableEq M] in
theorem preserves_record (e : Event M) : Preserves registryView (record e) := preserves_change (fun _ => rfl)

theorem preserves_asyncInit (ret : ℤ) (m : M) : Preserves registryView (uvAsyncInit ret (.module m)) := by
  intro w a w' run
  unfold uvAsyncInit at run
  split at run <;> cases run <;> rfl

theorem preserves_close (m : M) : Preserves registryView (uvClose (.module m)) := by
  intro w a w' run
  rw [(close_done run).2]
  rfl

theorem preserves_reset (m : M) (loop : LoopRef) : Preserves registryView (resetModule m loop) :=
  preserves_bind (preserves_change fun _ => rfl) fun _ =>
    preserves_bind (preserves_mutexInit m) fun _ => preserves_change fun _ => rfl

/-- Starting a module leaves the registry to the module's callback. -/
theorem preserves_start {sys : System M} (quiet : StartQuiet sys) (m : M) (loop : LoopRef) :
    Preserves registryView (armdModuleStart sys (some m) loop) := by
  refine preserves_bind (preserves_record _) fun _ => preserves_bind ?_ fun _ =>
    preserves_bind (preserves_record _) fun _ => preserves_pure _
  cases loop with
  | null => exact preserves_pure _
  | defaultLoop =>
    unfold startModule
    cases ops : sys.mops m with
    | none => exact preserves_pure _
    | some mops =>
      refine preserves_bind (preserves_reset m _) fun _ => preserves_bind preserves_get fun _ =>
        preserves_bind (preserves_asyncInit _ m) fun ret => preserves_ite ?_ ?_
      · exact preserves_bind (preserves_mutexDestroy m) fun _ => preserves_pure _
      · cases onStart : mops.onStart with
        | none => exact preserves_pure _
        | some f =>
          refine preserves_bind (preserves_record _) fun _ =>
            preserves_bind (quiet m mops f ops onStart) fun ret => preserves_ite ?_ (preserves_pure _)
          exact preserves_bind (preserves_close m) fun _ =>
            preserves_bind (preserves_mutexDestroy m) fun _ => preserves_pure _

/-- The body of a stop goes along a preorder when its parts do. -/
theorem respects_stopModule (R : World M → World M → Prop) (refl : ∀ w, R w w)
    (trans : ∀ u v w, R u v → R v w → R u w) {sys : System M} {m : M} (enters : ∀ w, R w (w.record (.onStop m)))
    (callback : ∀ mops f, sys.mops m = some mops → mops.onStop = some f → Respects R (f m))
    (close : Respects R (uvClose (.module m))) (destroy : Respects R (pthreadMutexDestroy m)) :
    Respects R (stopModule sys m) := by
  unfold stopModule
  cases ops : sys.mops m with
  | none => exact respects_pure refl _
  | some mops =>
    refine respects_bind trans ?_ fun _ => respects_bind trans close fun _ => destroy
    cases onStop : mops.onStop with
    | none => exact respects_pure refl _
    | some f =>
      exact respects_bind trans (respects_change enters) fun _ =>
        respects_bind trans (callback mops f ops onStop) fun _ => respects_pure refl _

/-- Stopping a module leaves the registry to the module's callback. -/
theorem preserves_stop {sys : System M} (quiet : StopQuiet sys) (m : M) :
    Preserves registryView (armdModuleStop sys (some m)) := by
  refine preserves_bind (preserves_record _) fun _ => preserves_bind ?_ fun _ => preserves_record _
  exact respects_stopModule (fun w w' => registryView w' = registryView w) (fun _ => rfl)
    (fun _ _ _ first second => second.trans first) (fun _ => rfl) (quiet m) (preserves_close m) (preserves_mutexDestroy m)

end

end Armd.Module
