import Armd.Channel

/-!
What a message carries from `set_message` through the queue to `on_message`. The
queue hands over exactly the message that was posted (`delivered_eq`), so all
depends on `set_message`, which announces the length it was asked for even when
it has no payload to copy. Two runs that agree on the sender's arguments agree on
everything a handler may read exactly when a length comes with a payload
(`carries_iff`).
-/
namespace Armd.Payloads
open Armd.Runs Armd.BoundedQueue Armd.Message Armd.Queue Armd.Channel

/-- What a sender passes to `set_message`; the payload is null or a buffer. -/
structure Sent where
  src : Option String
  dst : Option String
  dir : MsgDirection
  event : UInt32
  payload : Option (ℕ → UInt8)
  payloadLen : UInt32

/-- The message built where `stack` was before. -/
def Sent.message (sent : Sent) (stack : ArmdMsg) : ArmdMsg :=
  setMessage stack sent.src sent.dst sent.dir sent.event sent.payload sent.payloadLen

/-- The two messages look the same to a handler, which reads no byte that the sender did not supply. -/
structure Agree (sent : Sent) (a b : ArmdMsg) : Prop where
  src : a.src = b.src
  dst : a.dst = b.dst
  dir : a.dir = b.dir
  event : a.event = b.event
  payloadLen : a.payloadLen = b.payloadLen
  bounded : a.payloadLen.toNat ≤ maxMsgPayloadSize
  bytes : ∀ i : Fin maxMsgPayloadSize, i.val < a.payloadLen.toNat →
    a.payload i = b.payload i ∧ ∃ bytes, sent.payload = some bytes ∧ a.payload i = bytes i.val

/-- A length comes with a payload. -/
def Backed (sent : Sent) : Prop := sent.payload ≠ none ∨ sent.payloadLen = 0

/-! ### What `set_message` writes -/

section
variable (sent : Sent) (stack stack' : ArmdMsg)

/-- The announced length. -/
def Sent.announced (sent : Sent) : UInt32 :=
  if sent.payloadLen.toNat > maxMsgPayloadSize then UInt32.ofNat maxMsgPayloadSize else sent.payloadLen

private theorem announced_le : sent.announced.toNat ≤ maxMsgPayloadSize := by
  unfold Sent.announced
  split
  · decide
  · omega

private theorem announced_pos_iff : 0 < sent.announced.toNat ↔ 0 < sent.payloadLen.toNat := by
  unfold Sent.announced
  split
  · next large =>
    have full : (UInt32.ofNat maxMsgPayloadSize).toNat = maxMsgPayloadSize := by decide
    constructor
    · intro _; omega
    · intro _; rw [full]; decide
  · exact Iff.rfl

/-- With no payload to copy, the old bytes stay. -/
private theorem message_null (null : sent.payload = none) :
    sent.message stack = ⟨sent.src,sent.dst,sent.dir,sent.event,sent.announced,stack.payload⟩ := by
  simp [Sent.message,setMessage,null,Sent.announced]

/-- A payload is copied up to the announced length. -/
private theorem message_some {bytes : ℕ → UInt8} (some : sent.payload = some bytes) :
    sent.message stack =
      ⟨sent.src,sent.dst,sent.dir,sent.event,sent.announced,memcpy stack.payload bytes sent.announced.toNat⟩ := by
  by_cases empty : sent.payloadLen > 0
  · simp [Sent.message,setMessage,some,empty,Sent.announced]
  · have zero : sent.payloadLen = 0 := by
      have small := UInt32.not_lt.mp empty
      exact UInt32.le_zero_iff.mp small
    have nothing : memcpy stack.payload bytes 0 = stack.payload := by funext i; simp [memcpy]
    simp [Sent.message,setMessage,some,zero,Sent.announced,nothing]

private theorem agree_of_backed (backed : Backed sent) : Agree sent (sent.message stack) (sent.message stack') := by
  have bound := announced_le sent
  cases given : sent.payload with
  | none =>
    have zero : sent.payloadLen = 0 := backed.resolve_left (fun some => some given)
    have short : sent.announced.toNat = 0 := by simp [Sent.announced,zero]
    rw [message_null sent stack given,message_null sent stack' given]
    refine ⟨rfl,rfl,rfl,rfl,rfl,bound,fun i inside => ?_⟩
    simp only [short] at inside
    omega
  | some bytes =>
    rw [message_some sent stack given,message_some sent stack' given]
    refine ⟨rfl,rfl,rfl,rfl,rfl,bound,fun i inside => ?_⟩
    simp only at inside
    exact ⟨by simp [memcpy,inside],bytes,given,by simp [memcpy,inside]⟩

end

/-! ### From the sender to the handler -/

/-- The history of a module only grows. -/
private theorem history_step {P : Type} [DecidableEq P] {onMessage : Bool} {s s' : State P} {l : Label P}
    (fires : Step onMessage s l s') : s.history <+: s'.history := by
  cases fires with
  | accept | reject | take => exact List.prefix_append _ _
  | call | send | giveUp | dispatch | empty | deliver | finish | leave => exact List.prefix_refl _

private theorem history_run {P : Type} [DecidableEq P] {onMessage : Bool} {s s' : State P} {ls : List (Label P)}
    (run : Run (Step onMessage) s ls s') : s.history <+: s'.history :=
  run.invariant (fun t => s.history <+: t.history) (List.prefix_refl _) fun _ _ _ grown fires => grown.trans (history_step fires)

/-- In some run from the start of the module, among any other posters, a poster builds its message where `stack`
    was, its post is accepted, and `async_callback` hands over `delivered` in the place of that post. -/
def Delivers (P : Type) [DecidableEq P] (sent : Sent) (stack : ArmdMsg) (slots : ArmdMsgQueue) (delivered : ArmdMsg) :
    Prop :=
  ∃ (poster : Poster P) (before after : List (Label P)) (s t u : State P),
    Run (Step true) (started slots) before s ∧ s.poster poster = .entered (sent.message stack) ∧
    Step true s (.lock poster) t ∧ t.poster poster = .enqueued ∧
    Run (Step true) t after u ∧ u.handled[(accepted s.history).length]? = some delivered

section
variable {P : Type} [DecidableEq P] {sent : Sent} {stack : ArmdMsg} {slots : ArmdMsgQueue} {delivered : ArmdMsg}

/-- The handler gets the message that was posted. -/
theorem delivered_eq (delivers : Delivers P sent stack slots delivered) : delivered = sent.message stack := by
  obtain ⟨poster,before,after,s,t,u,first,entered,locks,enqueued,rest,handed⟩ := delivers
  have accepts : accepted t.history = accepted s.history ++ [sent.message stack] := by
    cases locks with
    | accept entered' _ =>
      rw [entered] at entered'
      cases entered'
      simp
    | reject => simp at enqueued
  have kept : accepted t.history <+: accepted u.history := (history_run rest).filterMap _
  have inPlace : (accepted u.history)[(accepted s.history).length]? = some (sent.message stack) := by
    obtain ⟨more,split⟩ := kept
    rw [← split,accepts]
    simp
  have inv := refines_run ((first.snoc locks).trans rest)
  have conserved : accepted u.history = u.handled ++ (inHand u ++ u.queue.pending) := by
    rw [fifo_conserves inv.fifo,inv.handedOver,List.append_assoc]
  have inside : (accepted s.history).length < u.handled.length := (List.getElem?_eq_some_iff.mp handed).1
  rw [conserved,List.getElem?_append_left inside,handed] at inPlace
  exact Option.some.inj inPlace

/-- A thread posts into the fresh queue, and the loop hands the message over. -/
private theorem delivers_alone (someone : P) (sent : Sent) (stack : ArmdMsg) (slots : ArmdMsgQueue) :
    Delivers P sent stack slots (sent.message stack) := by
  have entered : Run (Step true) (started slots) [.call (.thread someone) (sent.message stack)]
      ((started slots).setPoster (.thread someone) (.entered (sent.message stack))) := Run.single (.call rfl rfl)
  obtain ⟨t,locks,enqueued,idle,⟨q,got⟩,fresh⟩ : ∃ t : State P,
      Step true ((started slots).setPoster (.thread someone) (.entered (sent.message stack))) (.lock (.thread someone)) t ∧
      t.poster (.thread someone) = .enqueued ∧ t.loop = .idle ∧
      (∃ q, t.queue.take = some (sent.message stack,q)) ∧ t.handled = [] :=
    ⟨_,.accept (setPoster_self _ _ _) rfl,setPoster_self _ _ _,rfl,⟨_,rfl⟩,rfl⟩
  have delivery : Run (Step true) t [.send (.thread someone),.dispatch,.lockTake,.deliver] _ :=
    (((Run.single (.send enqueued)).snoc (.dispatch idle rfl)).snoc (.take rfl got)).snoc (.deliver rfl)
  exact ⟨.thread someone,_,_,_,t,_,entered,setPoster_self _ _ _,locks,enqueued,delivery,
    by simp [started,State.setPoster,fresh,accepted]⟩

/-- Whatever the memory held before, a handler sees the same message, with no byte that its sender did not
    supply, exactly when a length comes with a payload. -/
theorem carries_iff (someone : P) (sent : Sent) :
    (∀ stack stack' slots slots' a b, Delivers P sent stack slots a → Delivers P sent stack' slots' b → Agree sent a b) ↔
      Backed sent := by
  constructor
  · intro agree
    by_contra unbacked
    obtain ⟨null,long⟩ := not_or.mp unbacked
    have isNull : sent.payload = none := not_not.mp null
    have agrees := agree zeroMsg zeroMsg zeroQueue zeroQueue _ _ (delivers_alone someone sent zeroMsg zeroQueue)
      (delivers_alone someone sent zeroMsg zeroQueue)
    have positive : 0 < sent.payloadLen.toNat := by
      refine Nat.pos_of_ne_zero fun zero => long ?_
      exact UInt32.toNat_inj.mp zero
    have announces : (sent.message zeroMsg).payloadLen = sent.announced := by rw [message_null sent zeroMsg isNull]
    obtain ⟨_,bytes,some,_⟩ := agrees.bytes ⟨0,by decide⟩ (by rw [announces]; exact (announced_pos_iff sent).mpr positive)
    simp [isNull] at some
  · intro backed stack stack' slots slots' a b first second
    rw [delivered_eq first,delivered_eq second]
    exact agree_of_backed sent stack stack' backed

end

/-- A message of four bytes without a payload. -/
def bare : Sent := ⟨some "a",some "b",.inner,1,none,4⟩

/-- Memory that holds one byte everywhere. -/
def filled (byte : UInt8) : ArmdMsg := { zeroMsg with payload := fun _ => byte }

/-- The four bytes that the handler is told about are what the sender's stack held before. -/
theorem bare_message_leaks : ∃ a b : ArmdMsg, Delivers Unit bare (filled 1) zeroQueue a ∧
    Delivers Unit bare (filled 2) zeroQueue b ∧ a.payloadLen = 4 ∧ b.payloadLen = 4 ∧
      (∀ i : Fin maxMsgPayloadSize, a.payload i = 1 ∧ b.payload i = 2) ∧ ¬ Agree bare a b := by
  refine ⟨_,_,delivers_alone () bare (filled 1) zeroQueue,delivers_alone () bare (filled 2) zeroQueue,rfl,rfl,
    fun i => ⟨rfl,rfl⟩,fun agree => ?_⟩
  have same := (agree.bytes ⟨0,by decide⟩ (by decide)).1
  exact absurd same (by decide)

end Armd.Payloads
