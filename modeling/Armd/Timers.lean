import Armd.BinaryHeap
import Armd.UvQueue

/-!
The timers of libuv. A timer's `node` is a union: the three words of a heap node
while the timer is active, else the two links of a queue, of which the first two
words are the `next` and the `prev` (`links`). An active timer is in the loop's
heap, ordered by its timeout and the order of starting; an inactive one is alone
or on the queue of a running `uv__run_timers`. What the loop and its timers hold
beside the pointers are the `Books`.
-/
namespace Armd.Timers
open Armd.Programs Armd.Programs.Program Armd.LinkedRings Armd.BinaryHeap Armd.UvQueue

/-- The memory a queue link of a timer leads to: a timer's node, or the queue on the stack of `uv__run_timers`. -/
inductive Node (T : Type)
  | timer (t : T)
  | readyQueue
  deriving DecidableEq

structure UvTimer (C : Type) where
  timerCb : Option C
  timeout : ℕ
  repeat_ : ℕ
  startId : ℕ
  active : Bool
  ref : Bool
  closing : Bool
  closed : Bool

/-- The calls that a program makes about timers, outside callbacks or in them. -/
inductive TimerCall (T C : Type)
  | init (t : T)
  | start (t : T) (cb : Option C) (timeout repeat_ : ℕ)
  | stop (t : T)
  | again (t : T)
  | setRepeat (t : T) (repeat_ : ℕ)
  | ref (t : T)
  | unref (t : T)
  | close (t : T)
  deriving DecidableEq

/-- What happened, each with the loop's time. -/
inductive Event (T C : Type)
  | called (call : TimerCall T C) (time : ℕ)
  | fired (t : T) (time : ℕ)
  deriving DecidableEq

/-- A loop and its timers without their pointers; `events` is the history. -/
structure Books (T C : Type) where
  timers : T → UvTimer C
  handleQueue : List T
  closingHandles : List T
  time : ℕ
  timerCounter : ℕ
  activeHandles : ℕ
  events : List (Event T C)

structure TimerLoop (T C : Type) extends Books T C where
  timerHeap : HeapState (Node T)

def uvEinval : ℤ := -22

/-- One more than the largest `uint64_t`. -/
def u64 : ℕ := 18446744073709551616

def intMax : ℕ := 2147483647

variable {T C : Type} [DecidableEq T]

namespace Books

def setTimer (b : Books T C) (t : T) (timer : UvTimer C) : Books T C :=
  { b with timers := Function.update b.timers t timer }

omit [DecidableEq T] in
def countHandle (b : Books T C) (up : Bool) : Books T C :=
  { b with activeHandles := if up then b.activeHandles+1 else b.activeHandles-1 }

/-- Starting or stopping a handle; one that keeps the loop alive is counted. -/
def changeActive (b : Books T C) (t : T) (on : Bool) : Books T C :=
  if (b.timers t).active = on then b
  else
    let b := b.setTimer t { b.timers t with active := on }
    if (b.timers t).ref then b.countHandle on else b

/-- Whether a handle keeps the loop alive; one that is active and not closing is counted. -/
def changeRef (b : Books T C) (t : T) (on : Bool) : Books T C :=
  if (b.timers t).ref = on then b
  else
    let b := b.setTimer t { b.timers t with ref := on }
    if (b.timers t).closing then b
    else if (b.timers t).active then b.countHandle on else b

def uvHandleStart (b : Books T C) (t : T) : Books T C := b.changeActive t true
def uvHandleStop (b : Books T C) (t : T) : Books T C := b.changeActive t false
def uvHandleRef (b : Books T C) (t : T) : Books T C := b.changeRef t true
def uvHandleUnref (b : Books T C) (t : T) : Books T C := b.changeRef t false

/-- The fields of `uv_timer_init`: those of `uv__handle_init` first. -/
def initTimer (b : Books T C) (t : T) : Books T C :=
  { b.setTimer t { b.timers t with
      ref := true, active := false, closing := false, closed := false, timerCb := none, timeout := 0, repeat_ := 0 } with
    handleQueue := b.handleQueue ++ [t] }

/-- The fields that `uv_timer_start` writes, a timeout past the end of the clock clamped to it. -/
def armTimer (b : Books T C) (t : T) (cb : Option C) (timeout repeat_ : ℕ) : Books T C :=
  let clamped := (b.time + timeout) % u64
  let clamped := if clamped < timeout then u64-1 else clamped
  { b.setTimer t { b.timers t with timerCb := cb, timeout := clamped, repeat_ := repeat_, startId := b.timerCounter } with
    timerCounter := (b.timerCounter+1) % u64 }

def uvTimerSetRepeat (b : Books T C) (t : T) (repeat_ : ℕ) : Books T C := b.setTimer t { b.timers t with repeat_ }

omit [DecidableEq T] in
def note (b : Books T C) (e : Event T C) : Books T C := { b with events := b.events ++ [e] }

end Books

/-- A node taken for the timer around it; the queue on the stack is in no heap. -/
def containerOf (timers : T → UvTimer C) : Node T → UvTimer C
  | .timer t => timers t
  | .readyQueue => ⟨none,0,0,0,false,false,false,false⟩

def timerLessThan (timers : T → UvTimer C) (ha hb : Node T) : Bool :=
  let a := containerOf timers ha
  let b := containerOf timers hb
  if a.timeout < b.timeout then true
  else if b.timeout < a.timeout then false
  else decide (a.startId < b.startId)

/-- The words of the nodes read as queue links. -/
def links (h : HeapState (Node T)) : Heap (Node T) := fun x => ⟨(h.nodes x).right,(h.nodes x).left⟩

/-- The words of the nodes after queue links were written; the third is not part of them. -/
def withLinks (h : HeapState (Node T)) (g : Heap (Node T)) : HeapState (Node T) :=
  { h with nodes := fun x => ⟨(g x).next,(g x).prev,(h.nodes x).parent⟩ }

def onBooks (f : Books T C → Books T C) : Program (TimerLoop T C) Unit := change fun w => { w with toBooks := f w.toBooks }

def onHeap (p : Program (HeapState (Node T)) Unit) : Program (TimerLoop T C) Unit := fun w =>
  match p w.timerHeap with
  | .done _ h => .done () { w with timerHeap := h }
  | .abort h => .abort { w with timerHeap := h }
  | .exhausted => .exhausted

def onQueue (op : Heap (Node T) → Option (Heap (Node T))) : Program (TimerLoop T C) Unit := fun w =>
  match op (links w.timerHeap) with
  | none => .abort w
  | some g => .done () { w with timerHeap := withLinks w.timerHeap g }

/-- The rounds of a walk in a heap: there is no deeper one of `unsigned int` many nodes. -/
def heapDepth : ℕ := 32

def uvTimerInit (t : T) : Program (TimerLoop T C) ℤ := do
  onBooks (·.initTimer t)
  onQueue fun g => some (uvQueueInit g (.timer t))
  pure 0

def uvTimerStop (t : T) : Program (TimerLoop T C) ℤ := do
  let w ← get
  let _ ← if (w.timers t).active then do
      onHeap (heapRemove (timerLessThan w.timers) heapDepth (some (.timer t)))
      onBooks (·.uvHandleStop t)
    else onQueue (uvQueueRemove · (.timer t))
  onQueue fun g => some (uvQueueInit g (.timer t))
  pure 0

def uvTimerStart (t : T) (cb : Option C) (timeout repeat_ : ℕ) : Program (TimerLoop T C) ℤ := do
  if ((← get).timers t).closing ∨ ((← get).timers t).closed ∨ cb.isNone then pure uvEinval
  else
    let _ ← uvTimerStop t
    onBooks (·.armTimer t cb timeout repeat_)
    let w ← get
    onHeap (heapInsert (timerLessThan w.timers) heapDepth (.timer t))
    onBooks (·.uvHandleStart t)
    pure 0

def uvTimerAgain (t : T) : Program (TimerLoop T C) ℤ := do
  let timer := (← get).timers t
  if timer.timerCb.isNone then pure uvEinval
  else if timer.repeat_ ≠ 0 then do
    let _ ← uvTimerStop t
    let _ ← uvTimerStart t timer.timerCb timer.repeat_ timer.repeat_
    pure 0
  else pure 0

/-- `uv_close` of a timer, without a close callback. -/
def uvClose (t : T) : Program (TimerLoop T C) Unit := do
  let timer := (← get).timers t
  if timer.closing ∨ timer.closed then abort
  else
    onBooks fun b => b.setTimer t { b.timers t with closing := true }
    let _ ← uvTimerStop t
    onBooks fun b => { b with closingHandles := t :: b.closingHandles }

/-- `uv__finish_close` of a timer. -/
def uvFinishClose (t : T) : Program (TimerLoop T C) Unit := do
  let timer := (← get).timers t
  if ¬ timer.closing ∨ timer.closed then abort
  else
    onBooks fun b => b.setTimer t { b.timers t with closed := true }
    onBooks (·.uvHandleUnref t)
    onBooks fun b => { b with handleQueue := b.handleQueue.erase t }

def finishEach : List T → Program (TimerLoop T C) Unit
  | [] => pure ()
  | p :: q => do
    uvFinishClose p
    finishEach q

def uvRunClosingHandles : Program (TimerLoop T C) Unit := do
  let p := (← get).closingHandles
  onBooks fun b => { b with closingHandles := [] }
  finishEach p

omit [DecidableEq T] in
/-- `uv__loop_alive` of a loop without requests and pending callbacks. -/
def uvLoopAlive (w : TimerLoop T C) : Bool := decide (0 < w.activeHandles) || !w.closingHandles.isEmpty

def uvTimerGetDueIn (b : Books T C) (t : T) : ℕ :=
  if (b.timers t).timeout ≤ b.time then 0 else (b.timers t).timeout - b.time

/-- How long polling may block: `-1` for ever. -/
def uvNextTimeout (w : TimerLoop T C) : ℤ :=
  match heapMin w.timerHeap with
  | none => -1
  | some node =>
    let timeout := (containerOf w.timers node).timeout
    if timeout ≤ w.time then 0
    else
      let diff := timeout - w.time
      if intMax < diff then intMax else diff

omit [DecidableEq T] in
/-- `uv__backend_timeout` of a loop without requests, pending callbacks and idle handles. -/
def uvBackendTimeout (w : TimerLoop T C) : ℤ :=
  if 0 < w.activeHandles ∧ w.closingHandles.isEmpty then uvNextTimeout w else 0

def TimerCall.perform : TimerCall T C → Program (TimerLoop T C) Unit
  | .init t => do let _ ← uvTimerInit t; pure ()
  | .start t cb timeout repeat_ => do let _ ← uvTimerStart t cb timeout repeat_; pure ()
  | .stop t => do let _ ← uvTimerStop t; pure ()
  | .again t => do let _ ← uvTimerAgain t; pure ()
  | .setRepeat t repeat_ => onBooks (·.uvTimerSetRepeat t repeat_)
  | .ref t => onBooks (·.uvHandleRef t)
  | .unref t => onBooks (·.uvHandleUnref t)
  | .close t => uvClose t

/-- The calls of a program one after the other, each on record. -/
def performAll : List (TimerCall T C) → Program (TimerLoop T C) Unit
  | [] => pure ()
  | call :: calls => do
    call.perform
    onBooks fun b => b.note (.called call b.time)
    performAll calls

/-- The body of the first loop of `uv__run_timers`: the first timer in order, when due, is stopped and put on the queue. -/
def collectRound : Program (TimerLoop T C) (Unit ⊕ Unit) := do
  let w ← get
  match heapMin w.timerHeap with
  | none => pure (.inr ())
  | some .readyQueue => abort
  | some (.timer t) =>
    if w.time < (w.timers t).timeout then pure (.inr ())
    else
      let _ ← uvTimerStop t
      onQueue (uvQueueInsertTail · .readyQueue (.timer t))
      pure (.inl ())

def collectDue (fuel : ℕ) : Program (TimerLoop T C) Unit := loop (fun _ => collectRound) fuel ()

/-- A callback makes the calls that its code decides on. -/
def runCallback (code : C → T → Books T C → List (TimerCall T C)) (t : T) : Program (TimerLoop T C) Unit := do
  let w ← get
  match (w.timers t).timerCb with
  | none => abort
  | some cb =>
    onBooks fun b => b.note (.fired t b.time)
    let w ← get
    performAll (code cb t w.toBooks)

/-- The body of the second loop: the timer at the head is taken off, started again if it repeats, and fired. -/
def fireRound (code : C → T → Books T C → List (TimerCall T C)) : Program (TimerLoop T C) (Unit ⊕ Unit) := do
  let w ← get
  if uvQueueEmpty (links w.timerHeap) .readyQueue then pure (.inr ())
  else
    match uvQueueHead (links w.timerHeap) .readyQueue with
    | some (.timer t) => do
      onQueue (uvQueueRemove · (.timer t))
      onQueue fun g => some (uvQueueInit g (.timer t))
      let _ ← uvTimerAgain t
      runCallback code t
      pure (.inl ())
    | _ => abort

def fireReady (code : C → T → Books T C → List (TimerCall T C)) (fuel : ℕ) : Program (TimerLoop T C) Unit :=
  loop (fun _ => fireRound code) fuel ()

def uvRunTimers (code : C → T → Books T C → List (TimerCall T C)) (fuel : ℕ) : Program (TimerLoop T C) Unit := do
  onQueue fun g => some (uvQueueInit g .readyQueue)
  collectDue fuel
  fireReady code fuel

/-- The timers of a loop that `uv_loop_init` has set up at a time, in memory of any content. -/
def uvLoopInit (timers : T → UvTimer C) (nodes : Node T → HeapNode (Node T)) (time : ℕ) : TimerLoop T C :=
  { timers, handleQueue := [], closingHandles := [], time, timerCounter := 0, activeHandles := 0, events := [],
    timerHeap := heapInit nodes }

end Armd.Timers
