import Armd.Programs
import Armd.Queue
import Armd.Datastructure

/-!
The memory the daemon works on: the module objects, the link heap of the
registry, the async handles and the event loop's lists. The calls to pthread and
libuv write down in `trace` in which state they found their object. The return
codes of pthread are ignored by the daemon, so a misused mutex is only written
down; a failed assertion of libuv aborts.
-/
namespace Armd.Memory
open Armd.Programs Armd.LinkedRings Armd.Message Armd.Queue

def maxLevel : ℕ := 4

/-- `uv_loop_t *`: null or the default loop. -/
inductive LoopRef
  | null
  | defaultLoop
  deriving DecidableEq

/-- An async handle: zeroed memory, initialised, passed to `uv_close`, or closed. -/
inductive HandleState
  | unknown
  | active
  | closing
  | closed
  deriving DecidableEq

structure UvAsync where
  loop : LoopRef
  state : HandleState
  pending : Bool
  deriving DecidableEq

/-- The mutable part of `armd_module_t`; its `list` node is in the link heap. -/
structure ArmdModule where
  loop : LoopRef
  async : UvAsync
  msgQueue : ArmdMsgQueue

inductive Handle (M : Type)
  | module (m : M)
  | shutdown
  deriving DecidableEq

structure UvLoop (M : Type) where
  asyncHandles : List (Handle M)
  closingHandles : List (Handle M)
  activeHandles : ℕ

/-- The `armd_list_t` objects: the entries of `registry_sentinel` and the nodes in the modules. -/
inductive Node (M : Type)
  | sentinel (level : Fin maxLevel)
  | module (m : M)
  deriving DecidableEq

/-- What a run did, in the order it did it. -/
inductive Event (M : Type)
  | registered (m : M) (level : ℕ)
  | unregistered (m : M) (level : ℕ)
  | startCalled (m : M)
  | started (m : M) (ret : ℤ)
  | stopCalled (m : M)
  | stopped (m : M)
  | onStart (m : M)
  | onMessage (m : M) (msg : ArmdMsg)
  | onStop (m : M)
  | mutexInit (m : M) (found : Mutex)
  | mutexLock (m : M) (found : Mutex)
  | mutexDestroy (m : M) (found : Mutex)
  | queueReset (m : M) (found : HandleState) (lost : List ArmdMsg)
  | asyncInit (h : Handle M) (found : HandleState) (ret : ℤ)
  | asyncSend (h : Handle M) (found : HandleState)
  | close (h : Handle M) (found : HandleState)
  | posted (m : M) (msg : ArmdMsg) (ret : ℤ)
  | loopClosed

structure World (M : Type) where
  modules : M → ArmdModule
  shutdownAsync : UvAsync
  lists : Heap (Node M)
  registryInitialized : Bool
  uvLoop : UvLoop M
  trace : List (Event M)

variable {M : Type} [DecidableEq M]

def zeroAsync : UvAsync := ⟨.null,.unknown,false⟩
def zeroModule : ArmdModule := ⟨.null,zeroAsync,zeroQueue⟩

namespace World

/-- Static storage before `main` runs, with an empty event loop. -/
def zero : World M where
  modules := fun _ => zeroModule
  shutdownAsync := zeroAsync
  lists := fun _ => ⟨none,none⟩
  registryInitialized := false
  uvLoop := ⟨[],[],0⟩
  trace := []

def setModule (w : World M) (m : M) (module : ArmdModule) : World M :=
  { w with modules := Function.update w.modules m module }

def async (w : World M) : Handle M → UvAsync
  | .module m => (w.modules m).async
  | .shutdown => w.shutdownAsync

def setAsync (w : World M) (h : Handle M) (async : UvAsync) : World M :=
  match h with
  | .module m => w.setModule m { w.modules m with async := async }
  | .shutdown => { w with shutdownAsync := async }

def setQueue (w : World M) (m : M) (q : ArmdMsgQueue) : World M :=
  w.setModule m { w.modules m with msgQueue := q }

def setMutex (w : World M) (m : M) (mutex : Mutex) : World M :=
  w.setQueue m { (w.modules m).msgQueue with qMutex := mutex }

def record (w : World M) (e : Event M) : World M := { w with trace := w.trace ++ [e] }

end World

/-! ### pthread -/

def pthreadMutexInit (m : M) : Program (World M) Unit := .change fun w =>
  (w.setMutex m .live).record (.mutexInit m (w.modules m).msgQueue.qMutex)

def pthreadMutexDestroy (m : M) : Program (World M) Unit := .change fun w =>
  (w.setMutex m .destroyed).record (.mutexDestroy m (w.modules m).msgQueue.qMutex)

def pthreadMutexLock (m : M) : Program (World M) Unit := .change fun w =>
  w.record (.mutexLock m (w.modules m).msgQueue.qMutex)

/-! ### libuv -/

/-- The handle in `flags`, in the loop's queue of async handles and in its count of active ones. -/
def initHandle (w : World M) (h : Handle M) : World M :=
  { w.setAsync h ⟨.defaultLoop,.active,false⟩ with
    uvLoop := { w.uvLoop with
      asyncHandles := w.uvLoop.asyncHandles ++ [h]
      activeHandles := w.uvLoop.activeHandles+1 } }

/-- `ret` is what `uv__async_start` returns: 0, or the error of a system call. -/
def uvAsyncInit (ret : ℤ) (h : Handle M) : Program (World M) ℤ := fun w =>
  let w' := w.record (.asyncInit h (w.async h).state ret)
  if ret < 0 then .done ret w' else .done 0 (initHandle w' h)

def uvAsyncSend (h : Handle M) : Program (World M) Unit := fun w =>
  let w' := w.record (.asyncSend h (w.async h).state)
  if (w.async h).pending then .done () w'
  else
    let w' := w'.setAsync h { w.async h with pending := true }
    match (w.async h).loop with
    | .null => .abort w'
    | .defaultLoop => .done () w'

/-- `uv__async_close` sets the pending flag, so that no later send wakes the loop. -/
def closeHandle (w : World M) (h : Handle M) : World M :=
  { w.setAsync h { w.async h with state := .closing, pending := true } with
    uvLoop := {
      asyncHandles := w.uvLoop.asyncHandles.filter (· ≠ h)
      closingHandles := h :: w.uvLoop.closingHandles
      activeHandles := w.uvLoop.activeHandles-1 } }

def uvClose (h : Handle M) : Program (World M) Unit := fun w =>
  let w' := w.record (.close h (w.async h).state)
  if (w.async h).state = .active then .done () (closeHandle w' h) else .abort w'

/-- `uv__finish_close` on each handle of the list, whose assertions want a closing handle. -/
def finishClose : List (Handle M) → Program (World M) Unit
  | [] => pure ()
  | h :: hs => do
    let w ← Program.get
    if (w.async h).state = .closing then
      .change (fun w => w.setAsync h { w.async h with state := .closed })
      finishClose hs
    else .abort

def uvRunClosingHandles : Program (World M) Unit := do
  let w ← Program.get
  .change (fun w => { w with uvLoop := { w.uvLoop with closingHandles := [] } })
  finishClose w.uvLoop.closingHandles

section
variable (w : World M) (m : M)

omit [DecidableEq M] in
@[simp] theorem record_trace (e : Event M) : (w.record e).trace = w.trace ++ [e] := rfl
omit [DecidableEq M] in
@[simp] theorem record_modules (e : Event M) : (w.record e).modules = w.modules := rfl
@[simp] theorem setModule_trace (module : ArmdModule) : (w.setModule m module).trace = w.trace := rfl
@[simp] theorem setModule_modules (module : ArmdModule) :
    (w.setModule m module).modules = Function.update w.modules m module := rfl
@[simp] theorem setQueue_trace (q : ArmdMsgQueue) : (w.setQueue m q).trace = w.trace := rfl
@[simp] theorem setQueue_modules (q : ArmdMsgQueue) :
    (w.setQueue m q).modules = Function.update w.modules m { w.modules m with msgQueue := q } := rfl
@[simp] theorem setMutex_trace (mutex : Mutex) : (w.setMutex m mutex).trace = w.trace := rfl
@[simp] theorem setMutex_modules (mutex : Mutex) : (w.setMutex m mutex).modules =
    Function.update w.modules m { w.modules m with msgQueue := { (w.modules m).msgQueue with qMutex := mutex } } := rfl
@[simp] theorem setAsync_trace (async : UvAsync) : (w.setAsync (.module m) async).trace = w.trace := rfl
@[simp] theorem setAsync_modules (async : UvAsync) : (w.setAsync (.module m) async).modules =
    Function.update w.modules m { w.modules m with async := async } := rfl
@[simp] theorem initHandle_trace : (initHandle w (.module m)).trace = w.trace := rfl
@[simp] theorem initHandle_modules : (initHandle w (.module m)).modules =
    Function.update w.modules m { w.modules m with async := ⟨.defaultLoop,.active,false⟩ } := rfl
@[simp] theorem closeHandle_trace : (closeHandle w (.module m)).trace = w.trace := rfl
@[simp] theorem closeHandle_modules : (closeHandle w (.module m)).modules =
    Function.update w.modules m
      { w.modules m with async := { w.async (.module m) with state := .closing, pending := true } } := rfl

end

/-- The world after a `uv_async_send` that came back. -/
def sentWorld (w : World M) (h : Handle M) : World M :=
  (w.record (.asyncSend h (w.async h).state)).setAsync h { w.async h with pending := true }

@[simp] theorem sentWorld_trace (w : World M) (m : M) :
    (sentWorld w (.module m)).trace = w.trace ++ [.asyncSend (.module m) (w.modules m).async.state] := rfl
@[simp] theorem sentWorld_modules (w : World M) (m : M) : (sentWorld w (.module m)).modules =
    Function.update w.modules m { w.modules m with async := { (w.modules m).async with pending := true } } := rfl

/-- The pending flag is set in any case; the loop is looked up when it was not. -/
theorem send_eq (w : World M) (h : Handle M) : uvAsyncSend h w =
    if (w.async h).pending = false ∧ (w.async h).loop = .null then .abort (sentWorld w h) else .done () (sentWorld w h) := by
  cases pending : (w.async h).pending with
  | true =>
    have flagged : { w.async h with pending := true } = w.async h := by rw [← pending]
    have same : sentWorld w h = w.record (.asyncSend h (w.async h).state) := by
      rw [sentWorld,flagged]
      cases h with
      | module m => simp [World.setAsync,World.setModule,World.async,World.record]
      | shutdown => rfl
    simp [uvAsyncSend,pending,same]
  | false => cases loop : (w.async h).loop <;> simp [uvAsyncSend,sentWorld,pending,loop]

theorem send_run {w : World M} {h : Handle M} (loop : (w.async h).loop = .defaultLoop) :
    uvAsyncSend h w = .done () (sentWorld w h) := by
  simp [send_eq,loop]

theorem send_done {w w' : World M} {h : Handle M} {u : Unit} (sent : uvAsyncSend h w = .done u w') : w' = sentWorld w h := by
  rw [send_eq] at sent
  split at sent
  · cases sent
  · exact (Outcome.done.inj sent).2.symm

theorem close_done {w w' : World M} {h : Handle M} {u : Unit} (closed : uvClose h w = .done u w') :
    (w.async h).state = .active ∧ w' = closeHandle (w.record (.close h (w.async h).state)) h := by
  unfold uvClose at closed
  split at closed
  · cases closed; exact ⟨‹_›,rfl⟩
  · cases closed

/-- `uv__loop_alive`, as far as async handles go. -/
def uvLoopAlive (w : World M) : Bool := decide (0 < w.uvLoop.activeHandles) || !w.uvLoop.closingHandles.isEmpty

end Armd.Memory
