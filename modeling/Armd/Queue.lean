import Armd.BoundedQueue
import Armd.Message

/-!
The message queue of a module, `armd_msg_queue_t`, and the two sections of code
that run while its mutex is held: the one of `armd_module_post` and the one of
`async_callback`.
-/
namespace Armd.Queue
open Armd.BoundedQueue Armd.Message

def queueSize : ℕ := 64

def einval : ℤ := 22
def enospc : ℤ := 28

/-- What is known of a pthread mutex: zero-initialised memory, initialised, or destroyed. -/
inductive Mutex
  | zero
  | live
  | destroyed
  deriving DecidableEq

structure ArmdMsgQueue where
  msgs : ℕ → ArmdMsg
  head : ℕ
  tail : ℕ
  qMutex : Mutex

def zeroQueue : ArmdMsgQueue := ⟨fun _ => zeroMsg,0,0,.zero⟩

namespace ArmdMsgQueue

/-- The locked section of `armd_module_post`; no result is the `-ENOSPC` exit. -/
def post (q : ArmdMsgQueue) (msg : ArmdMsg) : Option ArmdMsgQueue :=
  let nextHead := (q.head+1) % queueSize
  if nextHead = q.tail then none
  else some { q with msgs := Function.update q.msgs q.head msg, head := nextHead }

/-- The locked section of `async_callback`; no result is the exit on an empty queue. -/
def take (q : ArmdMsgQueue) : Option (ArmdMsg × ArmdMsgQueue) :=
  if q.tail = q.head then none
  else some (q.msgs q.tail,{ q with tail := (q.tail+1) % queueSize })

/-- The indices of `armd_module_start`. -/
def reset (q : ArmdMsgQueue) : ArmdMsgQueue := { q with head := 0, tail := 0 }

/-- Both indices are inside the array. -/
structure InBounds (q : ArmdMsgQueue) : Prop where
  head : q.head < queueSize
  tail : q.tail < queueSize

/-- The messages in the queue, oldest first. -/
def pending (q : ArmdMsgQueue) : List ArmdMsg := contents queueSize q.msgs q.head q.tail

theorem reset_inBounds (q : ArmdMsgQueue) : q.reset.InBounds := ⟨by simp [reset,queueSize],by simp [reset,queueSize]⟩

theorem reset_pending (q : ArmdMsgQueue) : q.reset.pending = [] :=
  (contents_nil_iff _ q.reset_inBounds.head q.reset_inBounds.tail).mpr rfl

/-- Where the indices meet there is no message. -/
theorem pending_of_meet {q : ArmdMsgQueue} (meet : q.tail = q.head) : q.pending = [] := by
  simp [pending,contents,size,meet]

theorem post_inBounds {q q' : ArmdMsgQueue} {msg : ArmdMsg} (inside : q.InBounds) (posted : q.post msg = some q') :
    q'.InBounds := by
  simp only [post,Option.ite_none_left_eq_some,Option.some.injEq] at posted
  obtain ⟨_,rfl⟩ := posted
  exact ⟨Nat.mod_lt _ (by decide),inside.tail⟩

/-- A post with room appends its message. -/
theorem post_some {q q' : ArmdMsgQueue} {msg : ArmdMsg} (inside : q.InBounds) (posted : q.post msg = some q') :
    q'.pending = q.pending ++ [msg] := by
  simp only [post,Option.ite_none_left_eq_some,Option.some.injEq] at posted
  obtain ⟨room,rfl⟩ := posted
  exact contents_push q.msgs msg inside.head inside.tail room

/-- A post is refused exactly when all cells but one are occupied. -/
theorem post_none_iff {q : ArmdMsgQueue} (inside : q.InBounds) (msg : ArmdMsg) :
    q.post msg = none ↔ q.pending.length = queueSize-1 := by
  simp only [post,ite_eq_left_iff,reduceCtorEq,imp_false,not_not,pending,contents_length]
  exact full_iff inside.head inside.tail

theorem post_mutex {q q' : ArmdMsgQueue} {msg : ArmdMsg} (posted : q.post msg = some q') : q'.qMutex = q.qMutex := by
  simp only [post,Option.ite_none_left_eq_some,Option.some.injEq] at posted
  obtain ⟨_,rfl⟩ := posted
  rfl

theorem take_mutex {q q' : ArmdMsgQueue} {msg : ArmdMsg} (got : q.take = some (msg,q')) : q'.qMutex = q.qMutex := by
  simp only [take,Option.ite_none_left_eq_some,Option.some.injEq,Prod.mk.injEq] at got
  obtain ⟨_,_,rfl⟩ := got
  rfl

theorem pending_length_lt {q : ArmdMsgQueue} (inside : q.InBounds) : q.pending.length < queueSize := by
  rw [pending,contents_length]
  exact size_lt inside.head

theorem post_isSome_iff {q : ArmdMsgQueue} (inside : q.InBounds) (msg : ArmdMsg) :
    (∃ q', q.post msg = some q') ↔ q.pending.length < queueSize-1 := by
  have bound := pending_length_lt inside
  rw [← Option.isSome_iff_exists,← Option.ne_none_iff_isSome,ne_eq,post_none_iff inside]
  omega

theorem take_inBounds {q q' : ArmdMsgQueue} {msg : ArmdMsg} (inside : q.InBounds) (got : q.take = some (msg,q')) :
    q'.InBounds := by
  simp only [take,Option.ite_none_left_eq_some,Option.some.injEq,Prod.mk.injEq] at got
  obtain ⟨_,_,rfl⟩ := got
  exact ⟨inside.head,Nat.mod_lt _ (by decide)⟩

/-- Taking removes the oldest message. -/
theorem take_some {q q' : ArmdMsgQueue} {msg : ArmdMsg} (inside : q.InBounds) (got : q.take = some (msg,q')) :
    q.pending = msg :: q'.pending := by
  simp only [take,Option.ite_none_left_eq_some,Option.some.injEq,Prod.mk.injEq] at got
  obtain ⟨some,rfl,rfl⟩ := got
  exact contents_pop q.msgs inside.head inside.tail some

theorem take_none_iff {q : ArmdMsgQueue} (inside : q.InBounds) : q.take = none ↔ q.pending = [] := by
  simp only [take,ite_eq_left_iff,reduceCtorEq,imp_false,not_not,pending]
  exact (contents_nil_iff q.msgs inside.head inside.tail).symm

end ArmdMsgQueue

end Armd.Queue
