import Armd.Queue

/-!
One started module between its posters and the loop thread. Any number of
threads run `armd_module_post` while the loop thread dispatches the module's
async handle and runs `async_callback`, whose handler may itself post. A step is
one section under the mutex, one `uv_async_send`, one dispatch or one call or
return. Every run refines the bounded queue (`queue_refines_fifo`), and no
message is left without a wakeup (`no_lost_wakeup`).
-/
namespace Armd.Channel
open Armd.Runs Armd.BoundedQueue Armd.Message Armd.Queue

variable {P : Type} [DecidableEq P]

/-- Who calls `armd_module_post`: a thread, or the handler that the loop thread runs. -/
inductive Poster (P : Type)
  | thread (p : P)
  | handler
  deriving DecidableEq

/-- Where a poster is in `armd_module_post`. -/
inductive PostPc
  | outside (ret : Option ℤ)
  | entered (msg : ArmdMsg)
  | enqueued
  | full

/-- Where the loop thread is in `async_callback`. -/
inductive LoopPc
  | idle
  | top
  | taken (msg : ArmdMsg)
  | handling (msg : ArmdMsg)
  | leaving

/-- The module's queue and pending flag, the program counters, and what happened so far:
    the offers and removals in lock order and the messages handed to `on_message`. -/
structure State (P : Type) where
  queue : ArmdMsgQueue
  pending : Bool
  poster : Poster P → PostPc
  loop : LoopPc
  history : List (FifoEvent ArmdMsg)
  handled : List ArmdMsg

inductive Label (P : Type)
  | call (p : Poster P) (msg : ArmdMsg)
  | lock (p : Poster P)
  | send (p : Poster P)
  | giveUp (p : Poster P)
  | dispatch
  | lockTake
  | deliver
  | finish
  | leave

def State.setPoster (s : State P) (p : Poster P) (pc : PostPc) : State P :=
  { s with poster := Function.update s.poster p pc }

/-- A thread may enter at any time, the handler only while `on_message` runs. -/
def mayCall (s : State P) : Poster P → Bool
  | .thread _ => true
  | .handler => match s.loop with
    | .handling _ => true
    | _ => false

/-- The steps; `onMessage` says whether the module has an `on_message`. -/
inductive Step (onMessage : Bool) : State P → Label P → State P → Prop
  | call {s p msg ret} : s.poster p = .outside ret → mayCall s p → Step onMessage s (.call p msg) (s.setPoster p (.entered msg))
  | accept {s p msg q} : s.poster p = .entered msg → s.queue.post msg = some q →
      Step onMessage s (.lock p)
        { s.setPoster p .enqueued with queue := q, history := s.history ++ [.offer msg true] }
  | reject {s p msg} : s.poster p = .entered msg → s.queue.post msg = none →
      Step onMessage s (.lock p) { s.setPoster p .full with history := s.history ++ [.offer msg false] }
  | send {s p} : s.poster p = .enqueued →
      Step onMessage s (.send p) { s.setPoster p (.outside (some 0)) with pending := true }
  | giveUp {s p} : s.poster p = .full → Step onMessage s (.giveUp p) (s.setPoster p (.outside (some (-enospc))))
  -- the loop finds the flag set, clears it and calls `async_callback`
  | dispatch {s} : s.loop = .idle → s.pending = true →
      Step onMessage s .dispatch { s with loop := .top, pending := false }
  | take {s msg q} : s.loop = .top → s.queue.take = some (msg,q) →
      Step onMessage s .lockTake { s with queue := q, loop := .taken msg, history := s.history ++ [.take msg] }
  | empty {s} : s.loop = .top → s.queue.take = none → Step onMessage s .lockTake { s with loop := .leaving }
  | deliver {s msg} : s.loop = .taken msg →
      Step onMessage s .deliver
        { s with loop := if onMessage then .handling msg else .top, handled := s.handled ++ [msg] }
  | finish {s msg ret} : s.loop = .handling msg → s.poster .handler = .outside ret →
      Step onMessage s .finish { s with loop := .top }
  | leave {s} : s.loop = .leaving → Step onMessage s .leave { s with loop := .idle }

/-- A module right after `armd_module_start`, over whatever its queue memory held before. -/
def started (q : ArmdMsgQueue) : State P where
  queue := ArmdMsgQueue.reset { q with qMutex := .live }
  pending := false
  poster := fun _ => .outside none
  loop := .idle
  history := []
  handled := []

/-- The message that `async_callback` has taken out and not yet handed over. -/
def inHand (s : State P) : List ArmdMsg :=
  match s.loop with
  | .taken msg => [msg]
  | _ => []

@[simp] theorem setPoster_queue (s : State P) (p : Poster P) (pc : PostPc) : (s.setPoster p pc).queue = s.queue := rfl
@[simp] theorem setPoster_pending (s : State P) (p : Poster P) (pc : PostPc) : (s.setPoster p pc).pending = s.pending := rfl
@[simp] theorem setPoster_loop (s : State P) (p : Poster P) (pc : PostPc) : (s.setPoster p pc).loop = s.loop := rfl
@[simp] theorem setPoster_history (s : State P) (p : Poster P) (pc : PostPc) : (s.setPoster p pc).history = s.history := rfl
@[simp] theorem setPoster_handled (s : State P) (p : Poster P) (pc : PostPc) : (s.setPoster p pc).handled = s.handled := rfl
@[simp] theorem setPoster_self (s : State P) (p : Poster P) (pc : PostPc) : (s.setPoster p pc).poster p = pc := by
  simp [State.setPoster]
theorem setPoster_of_ne (s : State P) {p p' : Poster P} (pc : PostPc) (other : p' ≠ p) :
    (s.setPoster p pc).poster p' = s.poster p' := by
  simp [State.setPoster,other]

/-! ### Refinement of the bounded queue -/

/-- The queue is the abstract queue with room for all cells but one, after the recorded events. -/
structure Refines (s : State P) : Prop where
  inBounds : s.queue.InBounds
  fifo : Run (FifoStep (queueSize-1)) [] s.history s.queue.pending
  handedOver : taken s.history = s.handled ++ inHand s

omit [DecidableEq P] in
theorem refines_started (q : ArmdMsgQueue) : Refines (started q : State P) :=
  ⟨ArmdMsgQueue.reset_inBounds _,by
    rw [show (started q : State P).queue.pending = [] from ArmdMsgQueue.reset_pending _]; exact .nil,rfl⟩

/-- Every step of the code is a step of the abstract queue, or none. -/
theorem refines_step {onMessage : Bool} {s s' : State P} {l : Label P} (inv : Refines s)
    (fires : Step onMessage s l s') : Refines s' := by
  obtain ⟨inside,fifo,handed⟩ := inv
  cases fires with
  | call | send | giveUp => exact ⟨inside,fifo,handed⟩
  | @accept p msg q entered posted =>
    have room := (ArmdMsgQueue.post_isSome_iff inside msg).mp ⟨q,posted⟩
    refine ⟨ArmdMsgQueue.post_inBounds inside posted,?_,by simpa [inHand] using handed⟩
    rw [ArmdMsgQueue.post_some inside posted]
    exact fifo.snoc (.accept room)
  | @reject p msg entered refused =>
    have full := (ArmdMsgQueue.post_none_iff inside msg).mp refused
    exact ⟨inside,fifo.snoc (.reject (Nat.le_of_eq full.symm)),by simpa [inHand] using handed⟩
  | dispatch idle set => exact ⟨inside,fifo,by simpa [inHand,idle] using handed⟩
  | @take msg q top got =>
    have oldest := ArmdMsgQueue.take_some inside got
    refine ⟨ArmdMsgQueue.take_inBounds inside got,?_,by simpa [inHand,top] using handed⟩
    rw [oldest] at fifo
    exact fifo.snoc .take
  | empty top got => exact ⟨inside,fifo,by simpa [inHand,top] using handed⟩
  | deliver got =>
    refine ⟨inside,fifo,?_⟩
    cases onMessage <;> simpa [inHand,got] using handed
  | finish busy => exact ⟨inside,fifo,by simpa [inHand,busy] using handed⟩
  | leave seen => exact ⟨inside,fifo,by simpa [inHand,seen] using handed⟩

theorem refines_run {onMessage : Bool} {q : ArmdMsgQueue} {ls : List (Label P)} {s : State P}
    (run : Run (Step onMessage) (started q) ls s) : Refines s :=
  run.invariant Refines (refines_started q) (fun _ _ _ => refines_step)

/-- While the handler runs, the copy it was given is the message handed over last. -/
private theorem handling_last {onMessage : Bool} {q : ArmdMsgQueue} {ls : List (Label P)} {s : State P}
    (run : Run (Step onMessage) (started q) ls s) :
    ∀ msg, s.loop = .handling msg → s.handled.getLast? = some msg := by
  refine run.invariant (fun s => ∀ msg, s.loop = .handling msg → s.handled.getLast? = some msg) ?_ ?_
  · intro msg busy; cases busy
  · intro s l s' inv fires msg busy
    cases fires with
    | call | accept | reject | send | giveUp => exact inv msg busy
    | dispatch | take | empty | finish | leave => cases busy
    | deliver got =>
      cases onMessage
      · cases busy
      · cases busy; simp

/-- Only a call makes a poster be about to enqueue a message. -/
theorem entered_step {onMessage : Bool} {s s' : State P} {l : Label P} (fires : Step onMessage s l s')
    {p : Poster P} {msg : ArmdMsg} (entered : s'.poster p = .entered msg) :
    s.poster p = .entered msg ∨ l = .call p msg := by
  have moved : ∀ (p' : Poster P) (pc : PostPc), (s.setPoster p' pc).poster p = .entered msg →
      s.poster p = .entered msg ∨ (p' = p ∧ pc = .entered msg) := by
    intro p' pc there
    by_cases same : p = p'
    · subst same
      rw [setPoster_self] at there
      exact .inr ⟨rfl,there⟩
    · rw [setPoster_of_ne s pc same] at there
      exact .inl there
  cases fires with
  | call =>
    rcases moved _ _ entered with before | ⟨rfl,same⟩
    · exact .inl before
    · cases same; exact .inr rfl
  | accept | reject | send | giveUp =>
    rcases moved _ _ entered with before | ⟨_,same⟩
    · exact .inl before
    · cases same
  | dispatch | take | empty | deliver | finish | leave => exact .inl entered

/-- What the code guarantees of the queue of a started module. -/
structure BoundedFifo (onMessage : Bool) (s : State P) : Prop where
  headIn : s.queue.head < queueSize
  tailIn : s.queue.tail < queueSize
  fifo : Run (FifoStep (queueSize-1)) [] s.history s.queue.pending
  conserved : accepted s.history = taken s.history ++ s.queue.pending
  locks : ∀ p msg, s.poster p = .entered msg → ∃ s', Step onMessage s (.lock p) s'
  accepts : ∀ p msg s', s.poster p = .entered msg → Step onMessage s (.lock p) s' →
    s.queue.pending.length < queueSize-1 →
      s'.poster p = .enqueued ∧ s'.queue.pending = s.queue.pending ++ [msg] ∧
        accepted s'.history = accepted s.history ++ [msg]
  refuses : ∀ p msg s', s.poster p = .entered msg → Step onMessage s (.lock p) s' →
    queueSize-1 ≤ s.queue.pending.length →
      s'.poster p = .full ∧ s'.queue = s.queue ∧ accepted s'.history = accepted s.history
  returnsZero : ∀ p s', s.poster p = .enqueued → Step onMessage s (.send p) s' → s'.poster p = .outside (some 0)
  returnsEnospc : ∀ p s', s.poster p = .full → Step onMessage s (.giveUp p) s' →
    s'.poster p = .outside (some (-enospc)) ∧ s'.queue = s.queue
  handedOver : taken s.history = s.handled ++ inHand s
  current : ∀ msg, s.loop = .handling msg → s.handled.getLast? = some msg

private theorem lock_accepts {onMessage : Bool} {s s' : State P} {p : Poster P} {msg : ArmdMsg} (inside : s.queue.InBounds)
    (entered : s.poster p = .entered msg) (fires : Step onMessage s (.lock p) s')
    (room : s.queue.pending.length < queueSize-1) :
    s'.poster p = .enqueued ∧ s'.queue.pending = s.queue.pending ++ [msg] ∧
      accepted s'.history = accepted s.history ++ [msg] := by
  cases fires with
  | accept entered' posted =>
    rw [entered] at entered'
    cases entered'
    exact ⟨setPoster_self s p _,ArmdMsgQueue.post_some inside posted,by simp⟩
  | reject entered' refused =>
    have full := (ArmdMsgQueue.post_none_iff inside _).mp refused
    omega

private theorem lock_refuses {onMessage : Bool} {s s' : State P} {p : Poster P} (inside : s.queue.InBounds)
    (fires : Step onMessage s (.lock p) s') (full : queueSize-1 ≤ s.queue.pending.length) :
    s'.poster p = .full ∧ s'.queue = s.queue ∧ accepted s'.history = accepted s.history := by
  cases fires with
  | accept _ posted =>
    have room := (ArmdMsgQueue.post_isSome_iff inside _).mp ⟨_,posted⟩
    omega
  | reject => exact ⟨setPoster_self s p _,rfl,by simp⟩

private theorem lock_enabled {onMessage : Bool} {s : State P} {p : Poster P} {msg : ArmdMsg} (entered : s.poster p = .entered msg) :
    ∃ s', Step onMessage s (.lock p) s' := by
  cases posted : s.queue.post msg with
  | none => exact ⟨_,.reject entered posted⟩
  | some q => exact ⟨_,.accept entered posted⟩

/-- For any number of posters and every interleaving with the drain loop, the queue of a started
    module is a bounded first-in first-out queue with room for `queueSize-1` messages. -/
theorem queue_refines_fifo (onMessage : Bool) (q : ArmdMsgQueue) {ls : List (Label P)} {s : State P}
    (run : Run (Step onMessage) (started q) ls s) : BoundedFifo onMessage s := by
  have inv := refines_run run
  refine {
    headIn := inv.inBounds.head
    tailIn := inv.inBounds.tail
    fifo := inv.fifo
    conserved := fifo_conserves inv.fifo
    locks := fun p msg entered => lock_enabled entered
    accepts := fun p msg s' entered fires room => lock_accepts inv.inBounds entered fires room
    refuses := fun p msg s' _ fires full => lock_refuses inv.inBounds fires full
    returnsZero := ?_
    returnsEnospc := ?_
    handedOver := inv.handedOver
    current := handling_last run }
  · intro p s' _ fires
    cases fires with
    | send => exact setPoster_self s p _
  · intro p s' _ fires
    cases fires with
    | giveUp => exact ⟨setPoster_self s p _,rfl⟩

def aliveMsg : ArmdMsg := { zeroMsg with event := evMonitorAlive }

/-- Two threads post into the fresh queue, one of them while the message of the other is taken out. -/
theorem post_and_take : ∃ s : State Bool,
    Run (Step true) (started zeroQueue)
      [.call (.thread false) zeroMsg,.lock (.thread false),.call (.thread true) aliveMsg,.send (.thread false),.dispatch,
        .lockTake,.lock (.thread true),.deliver] s ∧
      s.handled = [zeroMsg] ∧ s.queue.pending = [aliveMsg] ∧ BoundedFifo true s := by
  have run : ∃ s : State Bool, Run (Step true) (started zeroQueue)
      [.call (.thread false) zeroMsg,.lock (.thread false),.call (.thread true) aliveMsg,.send (.thread false),.dispatch,
        .lockTake,.lock (.thread true),.deliver] s ∧ s.handled = [zeroMsg] ∧ s.queue.pending = [aliveMsg] :=
    ⟨_,(((((((Run.single (.call rfl rfl)).snoc (.accept rfl rfl)).snoc (.call rfl rfl)).snoc (.send rfl)).snoc
      (.dispatch rfl rfl)).snoc (.take rfl rfl)).snoc (.accept rfl rfl)).snoc (.deliver rfl),rfl,rfl⟩
  obtain ⟨s,run,handled,pending⟩ := run
  exact ⟨s,run,handled,pending,queue_refines_fifo true zeroQueue run⟩

/-! ### No lost wakeup -/

/-- `async_callback` runs and has not seen the queue empty. -/
def Draining (s : State P) : Prop := s.loop ≠ .idle ∧ s.loop ≠ .leaving

/-- Somebody will still look at the queue. -/
def WakeupDue (s : State P) : Prop := s.pending = true ∨ Draining s ∨ ∃ p, s.poster p = .enqueued

private theorem wakeup_setPoster {s : State P} {p : Poster P} {pc : PostPc} (due : WakeupDue s)
    (before : s.poster p ≠ .enqueued) : WakeupDue (s.setPoster p pc) := by
  rcases due with set | running | ⟨p',between⟩
  · exact .inl set
  · exact .inr (.inl running)
  · have other : p' ≠ p := fun same => before (same ▸ between)
    exact .inr (.inr ⟨p',by rw [setPoster_of_ne s pc other,between]⟩)

private theorem wakeup_step {onMessage : Bool} {s s' : State P} {l : Label P} (inside : s.queue.InBounds)
    (inv : s.queue.pending ≠ [] → WakeupDue s) (fires : Step onMessage s l s') :
    s'.queue.pending ≠ [] → WakeupDue s' := by
  intro some
  cases fires with
  | call before => exact wakeup_setPoster (inv some) (by simp [before])
  | accept => exact .inr (.inr ⟨_,setPoster_self s _ _⟩)
  | reject before => exact wakeup_setPoster (inv some) (by simp [before])
  | send => exact .inl rfl
  | giveUp before => exact wakeup_setPoster (inv some) (by simp [before])
  | dispatch => exact .inr (.inl ⟨by simp,by simp⟩)
  | take => exact .inr (.inl ⟨by simp,by simp⟩)
  | empty _ got => exact absurd ((ArmdMsgQueue.take_none_iff inside).mp got) some
  | deliver => exact .inr (.inl ⟨by cases onMessage <;> simp,by cases onMessage <;> simp⟩)
  | finish => exact .inr (.inl ⟨by simp,by simp⟩)
  | leave seen =>
    -- after it saw the queue empty, the callback itself promises nothing
    rcases inv some with set | running | between
    · exact .inl set
    · exact absurd seen running.2
    · exact .inr (.inr between)

/-- Whenever the queue of a started module holds a message, its flag is set, the callback still
    drains, or a poster is about to set the flag; when all three are over, every accepted
    message has been handed over. -/
theorem no_lost_wakeup (onMessage : Bool) (q : ArmdMsgQueue) {ls : List (Label P)} {s : State P}
    (run : Run (Step onMessage) (started q) ls s) :
    (s.queue.pending ≠ [] → WakeupDue s) ∧
      ((∀ p, ∃ ret, s.poster p = .outside ret) → s.pending = false → s.loop = .idle → s.handled = accepted s.history) := by
  have inv := refines_run run
  have due : s.queue.pending ≠ [] → WakeupDue s := by
    have both : Refines s ∧ (s.queue.pending ≠ [] → WakeupDue s) := by
      refine run.invariant (fun s => Refines s ∧ (s.queue.pending ≠ [] → WakeupDue s)) ?_ ?_
      · exact ⟨refines_started q,fun some => absurd (ArmdMsgQueue.reset_pending _) some⟩
      · intro t l t' both fires
        exact ⟨refines_step both.1 fires,wakeup_step both.1.inBounds both.2 fires⟩
    exact both.2
  refine ⟨due,fun outside clear idle => ?_⟩
  have drained : s.queue.pending = [] := by
    by_contra some
    rcases due some with set | running | ⟨p,between⟩
    · simp [clear] at set
    · exact running.1 idle
    · obtain ⟨ret,out⟩ := outside p
      simp [out] at between
  have handed := inv.handedOver
  rw [fifo_conserves inv.fifo,drained,handed]
  simp [inHand,idle]

/-- After the first of two messages the callback has taken, the second waits for its sender; after the second round
    both are handed over. -/
theorem wakeup_of_post : ∃ s t : State Bool,
    Run (Step false) (started zeroQueue)
      [.call (.thread false) zeroMsg,.lock (.thread false),.send (.thread false),.dispatch,.lockTake,.deliver,.lockTake,
        .leave,.call (.thread true) aliveMsg,.lock (.thread true)] s ∧
      Run (Step false) s [.send (.thread true),.dispatch,.lockTake,.deliver,.lockTake,.leave] t ∧
        WakeupDue s ∧ t.handled = [zeroMsg,aliveMsg] := by
  have run : ∃ s t : State Bool, Run (Step false) (started zeroQueue)
      [.call (.thread false) zeroMsg,.lock (.thread false),.send (.thread false),.dispatch,.lockTake,.deliver,.lockTake,
        .leave,.call (.thread true) aliveMsg,.lock (.thread true)] s ∧ s.queue.pending = [aliveMsg] ∧
      Run (Step false) s [.send (.thread true),.dispatch,.lockTake,.deliver,.lockTake,.leave] t ∧
        t.pending = false ∧ t.loop = .idle ∧ (∀ p, ∃ ret, t.poster p = .outside ret) ∧ accepted t.history = [zeroMsg,aliveMsg] := by
    refine ⟨_,_,(((((((((Run.single (.call rfl rfl)).snoc (.accept rfl rfl)).snoc (.send rfl)).snoc (.dispatch rfl rfl)).snoc
      (.take rfl rfl)).snoc (.deliver rfl)).snoc (.empty rfl rfl)).snoc (.leave rfl)).snoc (.call rfl rfl)).snoc
      (.accept rfl rfl),rfl,(((((Run.single (.send rfl)).snoc (.dispatch rfl rfl)).snoc (.take rfl rfl)).snoc
      (.deliver rfl)).snoc (.empty rfl rfl)).snoc (.leave rfl),rfl,rfl,fun p => ?_,rfl⟩
    cases p with
    | thread p => cases p <;> exact ⟨_,rfl⟩
    | handler => exact ⟨_,rfl⟩
  obtain ⟨s,t,before,waits,after,clear,idle,outside,offered⟩ := run
  have due := (no_lost_wakeup false zeroQueue before).1
  have done := (no_lost_wakeup false zeroQueue (before.trans after)).2 outside clear idle
  exact ⟨s,t,before,after,due (by simp [waits]),done.trans offered⟩

end Armd.Channel
