import Armd.Channel
import Armd.Location

/-!
The modules of a loop and the wakeups between them. Any number of threads, and
the handlers that the loop thread runs, post to any of the modules; a post ends
in `uv_async_send`, whose steps are single accesses to the handle: a relaxed
read of `pending`, the count of senders in `busy`, the exchange of `pending`, and
the write to the eventfd that all handles of the loop share. The loop thread
polls the eventfd and runs `uv__async_io` over its handles, starts and closes
modules, and at its end `uv__async_stop`. The sections under a module's mutex are
single steps; the mutex hands on what its last holder knew of `pending`. Another
callback of the loop that posts, as the monitor's timer does, is one more thread.
-/
namespace Armd.AsyncSend
open Armd.Runs Armd.BoundedQueue Armd.Message Armd.Queue Armd.Location
open Armd.Channel (Poster)

/-- The life of a module's async handle. -/
inductive Status
  | fresh
  | running
  | closing
  | closed
  deriving DecidableEq

/-- A module with its async handle: its queue, `pending`, the busy flag, how much of `pending`'s modification order
    the mutex has handed on and where the loop last cleared it, and what was offered, taken and handed over. -/
structure Handle where
  status : Status
  queue : ArmdMsgQueue
  pending : Atomic Bool
  busy : ℕ
  published : ℕ
  cleared : ℕ
  history : List (FifoEvent ArmdMsg)
  handled : List ArmdMsg

/-- Where a poster is in `armd_module_post` to a module; from `check` on it is in `uv_async_send`. -/
inductive SendPc (M : Type)
  | outside (ret : Option ℤ)
  | entered (h : M) (msg : ArmdMsg)
  | full (h : M)
  | check (h : M) (seen : ℕ)
  | announce (h : M)
  | exchange (h : M)
  | write (h : M)
  | retire (h : M)

/-- Where the loop thread is: between callbacks, in `uv__async_io`, in a module's `async_callback`, in
    `uv__async_close` or in `uv__async_stop`. -/
inductive LoopPc (M : Type)
  | idle
  | visiting
  | top (h : M)
  | taken (h : M) (msg : ArmdMsg)
  | handling (h : M) (msg : ArmdMsg)
  | leaving (h : M)
  | spinning (h : M) (back : LoopPc M)
  | stopping
  | stopSpinning (h : M)
  | ended

/-- The handles, the count of the eventfd while it is open, `async_handles` and the queue of a pass, and where everybody is. -/
structure State (M P : Type) where
  handle : M → Handle
  eventfd : Option ℕ
  asyncHandles : List M
  ready : List M
  poster : Poster P → SendPc M
  loop : LoopPc M

inductive Label (M P : Type)
  | call (p : Poster P) (h : M) (msg : ArmdMsg)
  | lock (p : Poster P)
  | giveUp (p : Poster P)
  | load (p : Poster P)
  | announce (p : Poster P)
  | exchange (p : Poster P)
  | write (p : Poster P)
  | retire (p : Poster P)
  | poll
  | visit
  | endPass
  | lockTake
  | deliver
  | finish
  | leave
  | init (h : M)
  | close (h : M)
  | closed
  | stop
  | stopNext
  | stopSpun
  | stopEnd

/-- The largest count of an eventfd; a write past it fails and the senders take that for success. -/
def eventfdMax : ℕ := 18446744073709551614

variable {M P : Type} [DecidableEq M] [DecidableEq P]

namespace State

def setHandle (s : State M P) (h : M) (a : Handle) : State M P := { s with handle := Function.update s.handle h a }

def setPoster (s : State M P) (p : Poster P) (pc : SendPc M) : State M P :=
  { s with poster := Function.update s.poster p pc }

end State

/-- A thread may enter at any time, a handler only while an `on_message` runs. -/
def mayCall (s : State M P) : Poster P → Prop
  | .thread _ => True
  | .handler => ∃ h msg, s.loop = .handling h msg

/-- The loop thread is between callbacks, or in a handler that is not posting. -/
def mayClose (s : State M P) : Prop :=
  s.loop = .idle ∨ ∃ h msg ret, s.loop = .handling h msg ∧ s.poster .handler = .outside ret

/-- What `uv_async_init` and `armd_module_start` make of a module, over what its queue memory held before. -/
def started (a : Handle) : Handle where
  status := .running
  queue := ArmdMsgQueue.reset { a.queue with qMutex := .live }
  pending := ⟨[],false⟩
  busy := 0
  published := 0
  cleared := 0
  history := []
  handled := []

/-- The steps; `onMessage` says which modules have an `on_message`. A module is started at most once, and is closed between
    callbacks or by a module's handler. -/
inductive Step (onMessage : M → Bool) : State M P → Label M P → State M P → Prop
  | call {s p h msg ret} : s.poster p = .outside ret → mayCall s p → (s.handle h).status = .running →
      Step onMessage s (.call p h msg) (s.setPoster p (.entered h msg))
  | accept {s p h msg q} : s.poster p = .entered h msg → (s.handle h).queue.qMutex = .live →
      (s.handle h).queue.post msg = some q →
      Step onMessage s (.lock p) ((s.setPoster p (.check h (s.handle h).published)).setHandle h
        { s.handle h with queue := q, history := (s.handle h).history ++ [.offer msg true] })
  | reject {s p h msg} : s.poster p = .entered h msg → (s.handle h).queue.qMutex = .live →
      (s.handle h).queue.post msg = none →
      Step onMessage s (.lock p) ((s.setPoster p (.full h)).setHandle h
        { s.handle h with history := (s.handle h).history ++ [.offer msg false] })
  | giveUp {s p h} : s.poster p = .full h → Step onMessage s (.giveUp p) (s.setPoster p (.outside (some (-enospc))))
  -- the relaxed read; a set flag is left to whoever set it
  | load {s p h seen} (v : Bool) : s.poster p = .check h seen → (s.handle h).pending.CanRead seen v →
      Step onMessage s (.load p) (s.setPoster p (if v then .outside (some 0) else .announce h))
  | announce {s p h} : s.poster p = .announce h →
      Step onMessage s (.announce p) ((s.setPoster p (.exchange h)).setHandle h
        { s.handle h with busy := (s.handle h).busy+1 })
  | exchange {s p h} : s.poster p = .exchange h →
      Step onMessage s (.exchange p)
        ((s.setPoster p (if (s.handle h).pending.now then .retire h else .write h)).setHandle h
          { s.handle h with pending := (s.handle h).pending.write true })
  | write {s p h count} : s.poster p = .write h → s.eventfd = some count →
      Step onMessage s (.write p) { s.setPoster p (.retire h) with eventfd := some (min (count+1) eventfdMax) }
  | retire {s p h} : s.poster p = .retire h →
      Step onMessage s (.retire p) ((s.setPoster p (.outside (some 0))).setHandle h
        { s.handle h with busy := (s.handle h).busy-1 })
  -- `uv__async_io`: the eventfd is readable, is read, and the handles are moved to a queue of their own
  | poll {s count} : s.loop = .idle → s.eventfd = some count → 0 < count →
      Step onMessage s .poll { s with
        eventfd := some 0
        ready := s.asyncHandles
        asyncHandles := []
        loop := .visiting }
  | visit {s h rest} : s.loop = .visiting → s.ready = h :: rest → (s.handle h).pending.now = true →
      Step onMessage s .visit { s.setHandle h { s.handle h with
          pending := (s.handle h).pending.write false
          cleared := (s.handle h).pending.position+1 } with
        ready := rest
        asyncHandles := s.asyncHandles ++ [h]
        loop := .top h }
  | pass {s h rest} : s.loop = .visiting → s.ready = h :: rest → (s.handle h).pending.now = false →
      Step onMessage s .visit { s.setHandle h { s.handle h with
          pending := (s.handle h).pending.write false } with
        ready := rest
        asyncHandles := s.asyncHandles ++ [h] }
  | endPass {s} : s.loop = .visiting → s.ready = [] → Step onMessage s .endPass { s with loop := .idle }
  -- `async_callback`; a section that the loop leaves hands on that it has cleared `pending`
  | take {s h msg q} : s.loop = .top h → (s.handle h).queue.qMutex = .live → (s.handle h).queue.take = some (msg,q) →
      Step onMessage s .lockTake { s.setHandle h { s.handle h with
          queue := q
          published := (s.handle h).cleared
          history := (s.handle h).history ++ [.take msg] } with
        loop := .taken h msg }
  | empty {s h} : s.loop = .top h → (s.handle h).queue.qMutex = .live → (s.handle h).queue.take = none →
      Step onMessage s .lockTake { s.setHandle h { s.handle h with
          published := (s.handle h).cleared } with
        loop := .leaving h }
  | deliver {s h msg} : s.loop = .taken h msg →
      Step onMessage s .deliver { s.setHandle h { s.handle h with
          handled := (s.handle h).handled ++ [msg] } with
        loop := if onMessage h then .handling h msg else .top h }
  | finish {s h msg ret} : s.loop = .handling h msg → s.poster .handler = .outside ret →
      Step onMessage s .finish { s with loop := .top h }
  | leave {s h} : s.loop = .leaving h → Step onMessage s .leave { s with loop := .visiting }
  | init {s h} : mayClose s → (s.handle h).status = .fresh →
      Step onMessage s (.init h) { s.setHandle h (started (s.handle h)) with
        asyncHandles := s.asyncHandles ++ [h] }
  -- `uv__async_close`: the store of `uv__async_spin`, and when nobody is busy the removal
  | close {s h} : mayClose s → (s.handle h).status = .running →
      Step onMessage s (.close h) { s.setHandle h { s.handle h with
          status := .closing
          pending := (s.handle h).pending.write true } with
        loop := .spinning h s.loop }
  | closed {s h back} : s.loop = .spinning h back → (s.handle h).status = .closing → (s.handle h).busy = 0 →
      Step onMessage s .closed { s.setHandle h { s.handle h with
          status := .closed
          queue := { (s.handle h).queue with qMutex := .destroyed } } with
        asyncHandles := s.asyncHandles.erase h
        ready := s.ready.erase h
        loop := back }
  -- `uv__async_stop`
  | stop {s} : s.loop = .idle → Step onMessage s .stop { s with
        ready := s.asyncHandles
        asyncHandles := []
        loop := .stopping }
  | stopNext {s h rest} : s.loop = .stopping → s.ready = h :: rest →
      Step onMessage s .stopNext { s.setHandle h { s.handle h with
          pending := (s.handle h).pending.write true } with
        ready := rest
        asyncHandles := s.asyncHandles ++ [h]
        loop := .stopSpinning h }
  | stopSpun {s h} : s.loop = .stopSpinning h → (s.handle h).busy = 0 →
      Step onMessage s .stopSpun { s with loop := .stopping }
  | stopEnd {s} : s.loop = .stopping → s.ready = [] →
      Step onMessage s .stopEnd { s with eventfd := none, loop := .ended }

/-- A loop after `uv_loop_init`, with its eventfd open and no module started. -/
def initial (memory : M → Handle) : State M P where
  handle := fun h => { memory h with status := .fresh, pending := ⟨[],false⟩, busy := 0, published := 0, cleared := 0 }
  eventfd := some 0
  asyncHandles := []
  ready := []
  poster := fun _ => .outside none
  loop := .idle

section
variable (s : State M P) (p : Poster P) (pc : SendPc M) (h : M) (a : Handle)

omit [DecidableEq P] in
@[simp] theorem setHandle_self : (s.setHandle h a).handle h = a := by simp [State.setHandle]
omit [DecidableEq P] in
theorem setHandle_of_ne {h' : M} (other : h' ≠ h) : (s.setHandle h a).handle h' = s.handle h' := by
  simp [State.setHandle,other]
omit [DecidableEq P] in
theorem setHandle_handle (h' : M) : (s.setHandle h a).handle h' = if h' = h then a else s.handle h' := by
  by_cases same : h' = h
  · subst same; simp
  · rw [setHandle_of_ne s h a same,if_neg same]
omit [DecidableEq P] in
@[simp] theorem setHandle_poster : (s.setHandle h a).poster = s.poster := rfl
omit [DecidableEq P] in
@[simp] theorem setHandle_loop : (s.setHandle h a).loop = s.loop := rfl
omit [DecidableEq P] in
@[simp] theorem setHandle_ready : (s.setHandle h a).ready = s.ready := rfl
omit [DecidableEq P] in
@[simp] theorem setHandle_asyncHandles : (s.setHandle h a).asyncHandles = s.asyncHandles := rfl
omit [DecidableEq P] in
@[simp] theorem setHandle_eventfd : (s.setHandle h a).eventfd = s.eventfd := rfl

omit [DecidableEq M] in
@[simp] theorem setPoster_self : (s.setPoster p pc).poster p = pc := by simp [State.setPoster]
omit [DecidableEq M] in
theorem setPoster_of_ne {p' : Poster P} (other : p' ≠ p) : (s.setPoster p pc).poster p' = s.poster p' := by
  simp [State.setPoster,other]
omit [DecidableEq M] in
theorem setPoster_poster (p' : Poster P) : (s.setPoster p pc).poster p' = if p' = p then pc else s.poster p' := by
  by_cases same : p' = p
  · subst same; simp
  · rw [setPoster_of_ne s p pc same,if_neg same]
omit [DecidableEq M] in
@[simp] theorem setPoster_handle : (s.setPoster p pc).handle = s.handle := rfl
omit [DecidableEq M] in
@[simp] theorem setPoster_loop : (s.setPoster p pc).loop = s.loop := rfl
omit [DecidableEq M] in
@[simp] theorem setPoster_ready : (s.setPoster p pc).ready = s.ready := rfl
omit [DecidableEq M] in
@[simp] theorem setPoster_asyncHandles : (s.setPoster p pc).asyncHandles = s.asyncHandles := rfl
omit [DecidableEq M] in
@[simp] theorem setPoster_eventfd : (s.setPoster p pc).eventfd = s.eventfd := rfl

end

/-- Zeroed memory of a module. -/
def zeroHandle : Handle := ⟨.fresh,zeroQueue,⟨[],false⟩,0,0,0,[],[]⟩

/-- A module is started and a thread posts to it and wakes up the loop. -/
theorem one_message : ∃ s : State Unit Unit, Run (Step fun _ => true) (initial fun _ => zeroHandle)
    [.init (),.call (.thread ()) () zeroMsg,.lock (.thread ()),.load (.thread ()),.announce (.thread ()),
      .exchange (.thread ()),.write (.thread ()),.retire (.thread ())] s ∧
    (s.handle ()).status = .running ∧ (∀ p, ∃ ret, s.poster p = .outside ret) ∧ s.loop = .idle ∧ s.eventfd = some 1 := by
  refine ⟨_,(((((((Run.single (.init (.inl rfl) rfl)).snoc (.call rfl trivial rfl)).snoc (.accept rfl rfl rfl)).snoc
    (.load false rfl (.inl rfl))).snoc (.announce rfl)).snoc (.exchange rfl)).snoc (.write rfl rfl)).snoc (.retire rfl),
    rfl,fun p => ?_,rfl,rfl⟩
  cases p with
  | thread p => exact ⟨_,rfl⟩
  | handler => exact ⟨_,rfl⟩

end Armd.AsyncSend
