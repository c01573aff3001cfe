import Armd.Channel
import Mathlib.Data.Nat.Digits.Defs

/-!
The monitor module between its heartbeat timer and its message handler. A
firing counts one tick and posts it; the handler reads the tick back. On every
run the ticks read so far and those still in the queue are, in order, the
counter values of the firings whose post was accepted (`heartbeat_integrity`).
-/
namespace Armd.Monitor
open Armd.Runs Armd.BoundedQueue Armd.Message Armd.Queue
open Armd.Channel (Poster PostPc LoopPc)

def monitorName : String := "monitor"

/-- The eight bytes of a `uint64_t` in memory. -/
def bytesOf (v : UInt64) (i : ℕ) : UInt8 := UInt8.ofNat (v.toNat / 256^i)
/-- The byte at an offset of a payload. -/
def byteAt (payload : Fin maxMsgPayloadSize → UInt8) (i : ℕ) : ℕ :=
  if inside : i < maxMsgPayloadSize then (payload ⟨i,inside⟩).toNat else 0
/-- The `uint64_t` whose memory is the front of a payload. -/
def readUInt64 (payload : Fin maxMsgPayloadSize → UInt8) : UInt64 :=
  UInt64.ofNat (Nat.ofDigits 256 ((List.range 8).map (byteAt payload)))

/-- The message of `monitor_timer_cb`; `stack` is what the local variable held before. -/
def monitorTimerMsg (stack : ArmdMsg) (tick : UInt64) : ArmdMsg :=
  setMessage stack (some monitorName) (some monitorName) .inner evMonitorAlive (some (bytesOf tick)) 8

/-- The tick that `monitor_on_message` reports, for the event it knows. -/
def monitorOnMessage (msg : ArmdMsg) : Option UInt64 :=
  if msg.event = evMonitorAlive then
    some (if msg.payloadLen ≥ 8 then readUInt64 msg.payload else 0)
  else none

private theorem ofDigits_bytes (n v : ℕ) : Nat.ofDigits 256 ((List.range n).map (fun i => v / 256^i % 256)) = v % 256^n := by
  induction n generalizing v with
  | zero => simp [Nat.mod_one]
  | succ n ih =>
    have tail : (List.range n).map ((fun i => v / 256^i % 256) ∘ Nat.succ) =
        (List.range n).map (fun i => v / 256 / 256^i % 256) := by
      apply List.map_congr_left
      intro i _
      simp only [Function.comp_apply,Nat.succ_eq_add_one,Nat.pow_succ',Nat.div_div_eq_div_mul]
    rw [List.range_succ_eq_map,List.map_cons,List.map_map,Nat.ofDigits_cons,tail,ih,Nat.pow_succ',Nat.mod_mul]
    simp

private theorem readUInt64_bytesOf (payload : Fin maxMsgPayloadSize → UInt8) (v : UInt64) :
    readUInt64 (memcpy payload (bytesOf v) 8) = v := by
  have bytes : (List.range 8).map (byteAt (memcpy payload (bytesOf v) 8)) =
      (List.range 8).map (fun i => v.toNat / 256^i % 256) := by
    apply List.map_congr_left
    intro i member
    have front : i < 8 := List.mem_range.mp member
    have inside : i < maxMsgPayloadSize := front.trans (by decide)
    simp [byteAt,inside,memcpy,front,bytesOf]
  have small : v.toNat % 256^8 = v.toNat := Nat.mod_eq_of_lt v.toNat_lt
  rw [readUInt64,bytes,ofDigits_bytes,small,UInt64.ofNat_toNat]

/-- The handler reads back what the timer callback wrote. -/
private theorem monitorOnMessage_timer (stack : ArmdMsg) (tick : UInt64) :
    monitorOnMessage (monitorTimerMsg stack tick) = some tick := by
  have fits : ¬ (8 : UInt32).toNat > maxMsgPayloadSize := by decide
  have some : (8 : UInt32) > 0 := by decide
  simp only [monitorOnMessage,monitorTimerMsg,setMessage,if_neg fits,if_pos some]
  simp [readUInt64_bytesOf]

variable {P : Type} [DecidableEq P]

/-- The monitor at work: its channel, posted to by threads and by the timer callback (`none`),
    the tick counter, for each firing whether its post was accepted, and the ticks read. -/
structure State (P : Type) where
  chan : Channel.State (Option P)
  tick : UInt64
  results : List Bool
  decoded : List UInt64

inductive Label (P : Type)
  | fire (stack : ArmdMsg)
  | other (l : Channel.Label (Option P))

/-- The poster that runs `monitor_timer_cb`. -/
abbrev timer : Poster (Option P) := .thread none

/-- The channel steps next to a firing: posts of the timer callback are its firings, others never post
    `evMonitorAlive`, `monitor_on_message` posts nothing, and the loop thread dispatches no
    handle before the timer callback has returned. -/
def Admissible (s : State P) : Channel.Label (Option P) → Prop
  | .call (.thread none) _ => False
  | .call (.thread (some _)) msg => msg.event ≠ evMonitorAlive
  | .call .handler _ => False
  | .dispatch => ∃ ret, s.chan.poster timer = .outside ret
  | _ => True

/-- What `monitor_on_message` reads when a message is handed to it. -/
def readBy (s : State P) : Channel.Label (Option P) → List UInt64
  | .deliver => (Channel.inHand s.chan).filterMap monitorOnMessage
  | _ => []

/-- A firing counts, builds its message and runs the locked section of its post; nothing another
    thread does can come between these. Its send or its `-enospc` exit is a step of its own. -/
inductive Step : State P → Label P → State P → Prop
  | fire {s stack entered locked} : s.chan.loop = .idle →
      Channel.Step true s.chan (.call timer (monitorTimerMsg stack (s.tick+1))) entered →
      Channel.Step true entered (.lock timer) locked →
      Step s (.fire stack)
        { s with
          chan := locked
          tick := s.tick+1
          results := s.results ++ [(s.chan.queue.post (monitorTimerMsg stack (s.tick+1))).isSome] }
  | other {s l next} : Admissible s l → Channel.Step true s.chan l next →
      Step s (.other l) { s with chan := next, decoded := s.decoded ++ readBy s l }

/-- The monitor right after `monitor_on_start` returned 0. -/
def started (q : ArmdMsgQueue) : State P where
  chan := Channel.started q
  tick := 0
  results := []
  decoded := []

/-- The messages that were accepted and not yet handed over. -/
def undelivered (s : State P) : List ArmdMsg := Channel.inHand s.chan ++ s.chan.queue.pending

/-- The numbers of the firings whose post was accepted. -/
def acceptedTicks (results : List Bool) : List ℕ :=
  (List.range' 1 results.length).filter (fun k => results[k-1]? = some true)

private theorem acceptedTicks_snoc (results : List Bool) (ok : Bool) :
    acceptedTicks (results ++ [ok]) = acceptedTicks results ++ if ok then [results.length+1] else [] := by
  have old : (List.range' 1 results.length).filter (fun k => (results ++ [ok])[k-1]? = some true) =
      acceptedTicks results := by
    apply List.filter_congr
    intro k member
    have inside := List.mem_range'_1.mp member
    rw [List.getElem?_append_left (by omega)]
  rw [acceptedTicks,List.length_append,List.length_singleton,List.range'_1_concat,List.filter_append,old]
  cases ok <;> simp [Nat.add_comm]

private theorem mem_acceptedTicks (results : List Bool) (k : ℕ) :
    k ∈ acceptedTicks results ↔ 1 ≤ k ∧ k ≤ results.length ∧ results[k-1]? = some true := by
  simp only [acceptedTicks,List.mem_filter,List.mem_range'_1,decide_eq_true_eq]
  constructor
  · rintro ⟨⟨low,high⟩,ok⟩; exact ⟨low,by omega,ok⟩
  · rintro ⟨low,high,ok⟩; exact ⟨⟨low,by omega⟩,ok⟩

/-- A poster other than the timer is never about to enqueue a heartbeat, and the timer is
    never between its call and its locked section. -/
def OthersQuiet (s : State P) : Prop :=
  ∀ p msg, s.chan.poster p = .entered msg → monitorOnMessage msg = none

structure Invariant (s : State P) : Prop where
  refines : Channel.Refines s.chan
  counter : s.tick = UInt64.ofNat s.results.length
  quiet : OthersQuiet s
  decoded : s.decoded = s.chan.handled.filterMap monitorOnMessage
  posted : (accepted s.chan.history).filterMap monitorOnMessage = (acceptedTicks s.results).map UInt64.ofNat

omit [DecidableEq P] in
private theorem invariant_started (q : ArmdMsgQueue) : Invariant (started q : State P) where
  refines := Channel.refines_started q
  counter := rfl
  quiet := by intro p msg entered; cases entered
  decoded := rfl
  posted := rfl

/-- A message handed over in a channel step is read by the handler. -/
private theorem handled_step {s : State P} {l : Channel.Label (Option P)} {next : Channel.State (Option P)}
    (fires : Channel.Step true s.chan l next) :
    next.handled.filterMap monitorOnMessage = s.chan.handled.filterMap monitorOnMessage ++ readBy s l := by
  cases fires with
  | deliver got => simp [readBy,Channel.inHand,got]
  | call | accept | reject | send | giveUp | dispatch | take | empty | finish | leave => simp [readBy]

/-- A step of the others adds no heartbeat to what was accepted. -/
private theorem posted_step {s : State P} {l : Channel.Label (Option P)} {next : Channel.State (Option P)}
    (quiet : OthersQuiet s) (fires : Channel.Step true s.chan l next) :
    (accepted next.history).filterMap monitorOnMessage = (accepted s.chan.history).filterMap monitorOnMessage := by
  cases fires with
  | accept entered => simp [quiet _ _ entered]
  | call | reject | send | giveUp | dispatch | take | empty | deliver | finish | leave => simp

theorem quiet_step {s : State P} {l : Channel.Label (Option P)} {next : Channel.State (Option P)}
    (quiet : OthersQuiet s) (admissible : Admissible s l) (fires : Channel.Step true s.chan l next) :
    ∀ p msg, next.poster p = .entered msg → monitorOnMessage msg = none := by
  intro p msg entered
  rcases Channel.entered_step fires entered with before | rfl
  · exact quiet p msg before
  · match p, admissible with
    | .thread (some _), other => exact if_neg other

private theorem invariant_other {s : State P} {l : Channel.Label (Option P)} {next : Channel.State (Option P)}
    (inv : Invariant s) (admissible : Admissible s l) (fires : Channel.Step true s.chan l next) :
    Invariant { s with chan := next, decoded := s.decoded ++ readBy s l } where
  refines := Channel.refines_step inv.refines fires
  counter := inv.counter
  quiet := quiet_step inv.quiet admissible fires
  decoded := by rw [handled_step fires,inv.decoded]
  posted := by rw [posted_step inv.quiet fires,inv.posted]

omit [DecidableEq P] in
/-- The counter before a firing is one less than the number it posts. -/
private theorem tick_succ {s : State P} (inv : Invariant s) : s.tick+1 = UInt64.ofNat (s.results.length+1) := by
  rw [inv.counter,UInt64.ofNat_add]
  rfl

/-- The call and the locked section of a post together. -/
private theorem post_effect {c entered locked : Channel.State (Option P)} {msg : ArmdMsg}
    (call : Channel.Step true c (.call timer msg) entered) (lock : Channel.Step true entered (.lock timer) locked) :
    locked.handled = c.handled ∧
      accepted locked.history = accepted c.history ++ (if (c.queue.post msg).isSome then [msg] else []) ∧
      ∀ p msg', locked.poster p = .entered msg' → c.poster p = .entered msg' := by
  have elsewhere : ∀ p msg', locked.poster p = .entered msg' → c.poster p = .entered msg' := by
    intro p msg' there
    rcases Channel.entered_step lock there with before | same
    · rcases Channel.entered_step call before with earlier | same
      · exact earlier
      · cases same
        cases lock <;> simp [timer] at there
    · cases same
  cases call with
  | call outside may =>
    cases lock with
    | accept there posted =>
      obtain rfl : msg = _ := by simpa [timer] using there
      have posted : c.queue.post msg = _ := posted
      exact ⟨rfl,by simp [posted],elsewhere⟩
    | reject there refused =>
      obtain rfl : msg = _ := by simpa [timer] using there
      have refused : c.queue.post msg = none := refused
      exact ⟨rfl,by simp [refused],elsewhere⟩

private theorem invariant_fire {s : State P} {stack : ArmdMsg} {entered locked : Channel.State (Option P)} (inv : Invariant s)
    (call : Channel.Step true s.chan (.call timer (monitorTimerMsg stack (s.tick+1))) entered)
    (lock : Channel.Step true entered (.lock timer) locked) :
    Invariant { s with
      chan := locked
      tick := s.tick+1
      results := s.results ++ [(s.chan.queue.post (monitorTimerMsg stack (s.tick+1))).isSome] } := by
  obtain ⟨handled,history,elsewhere⟩ := post_effect call lock
  refine ⟨Channel.refines_step (Channel.refines_step inv.refines call) lock,by simp [tick_succ inv],?_,?_,?_⟩
  · intro p msg there; exact inv.quiet p msg (elsewhere p msg there)
  · rw [handled]; exact inv.decoded
  · simp only [history,acceptedTicks_snoc,List.filterMap_append,List.map_append,inv.posted]
    congr 1
    split
    · simp [monitorOnMessage_timer,tick_succ inv]
    · rfl

private theorem invariant_step {s s' : State P} {l : Label P} (inv : Invariant s) (fires : Step s l s') : Invariant s' := by
  cases fires with
  | fire _ call lock => exact invariant_fire inv call lock
  | other admissible fires => exact invariant_other inv admissible fires

private theorem invariant_run {q : ArmdMsgQueue} {ls : List (Label P)} {s : State P} (run : Run Step (started q) ls s) :
    Invariant s :=
  run.invariant Invariant (invariant_started q) (fun _ _ _ => invariant_step)

omit [DecidableEq P] in
/-- What was read and what is still to be read are the accepted ticks, in order. -/
private theorem decoded_undelivered {s : State P} (inv : Invariant s) (few : s.results.length < 2^64) :
    s.decoded.map UInt64.toNat ++ ((undelivered s).filterMap monitorOnMessage).map UInt64.toNat =
      acceptedTicks s.results := by
  have all : s.decoded ++ (undelivered s).filterMap monitorOnMessage = (acceptedTicks s.results).map UInt64.ofNat := by
    rw [inv.decoded,undelivered,← List.filterMap_append,← inv.posted,fifo_conserves inv.refines.fifo,
      inv.refines.handedOver,List.append_assoc]
  rw [← List.map_append,all,List.map_map]
  refine (List.map_congr_left ?_).trans (List.map_id _)
  intro k member
  have high := ((mem_acceptedTicks _ _).mp member).2.1
  exact UInt64.toNat_ofNat_of_lt' (by simp [UInt64.size]; omega)

/-- What the monitor has read, with `n` firings so far. -/
structure Heartbeat (s : State P) (n : ℕ) : Prop where
  counter : s.results.length = n ∧ s.tick.toNat = n
  increasing : (s.decoded.map UInt64.toNat).Pairwise (· < ·)
  subsequence : (s.decoded.map UInt64.toNat).Sublist (List.range' 1 n)
  absent : ∀ k, 1 ≤ k → k ≤ n → (k ∉ s.decoded.map UInt64.toNat ↔
    s.results[k-1]? = some false ∨ ∃ msg ∈ undelivered s, monitorOnMessage msg = some (UInt64.ofNat k))

omit [DecidableEq P] in
private theorem absent_iff {s : State P} (inv : Invariant s) (few : s.results.length < 2^64) {k : ℕ} (low : 1 ≤ k)
    (high : k ≤ s.results.length) :
    k ∉ s.decoded.map UInt64.toNat ↔
      s.results[k-1]? = some false ∨ ∃ msg ∈ undelivered s, monitorOnMessage msg = some (UInt64.ofNat k) := by
  have all := decoded_undelivered inv few
  have distinct : (acceptedTicks s.results).Nodup := List.filter_sublist.nodup List.nodup_range'
  have pendingIff : (∃ msg ∈ undelivered s, monitorOnMessage msg = some (UInt64.ofNat k)) ↔
      k ∈ ((undelivered s).filterMap monitorOnMessage).map UInt64.toNat := by
    simp only [List.mem_map,List.mem_filterMap]
    constructor
    · rintro ⟨msg,inside,reads⟩
      exact ⟨_,⟨msg,inside,reads⟩,UInt64.toNat_ofNat_of_lt' (by simp [UInt64.size]; omega)⟩
    · rintro ⟨v,⟨msg,inside,reads⟩,rfl⟩
      exact ⟨msg,inside,by simpa using reads⟩
  have result : s.results[k-1]? = some true ∨ s.results[k-1]? = some false := by
    rw [List.getElem?_eq_getElem (by omega)]
    cases s.results[k-1] <;> simp
  rw [pendingIff]
  rw [← all] at distinct
  have apart := (List.nodup_append.mp distinct).2.2
  constructor
  · intro unread
    rcases result with ok | failed
    · have member : k ∈ acceptedTicks s.results := (mem_acceptedTicks _ _).mpr ⟨low,high,ok⟩
      rw [← all] at member
      exact .inr ((List.mem_append.mp member).resolve_left unread)
    · exact .inl failed
  · rintro (failed | waiting) read
    · have member : k ∈ acceptedTicks s.results := all ▸ List.mem_append_left _ read
      have ok := ((mem_acceptedTicks _ _).mp member).2.2
      simp [failed] at ok
    · exact apart k read k waiting rfl

/-- For every interleaving of firings, dispatches and other posts, the ticks read are a strictly
    increasing subsequence of `1, …, n`, and one is missing only while its message waits or
    because its post found the queue full. -/
theorem heartbeat_integrity (q : ArmdMsgQueue) {ls : List (Label P)} {s : State P} (run : Run Step (started q) ls s)
    (few : s.results.length < 2^64) : Heartbeat s s.results.length := by
  have inv := invariant_run run
  have leading : (s.decoded.map UInt64.toNat).Sublist (acceptedTicks s.results) := by
    rw [← decoded_undelivered inv few]
    exact List.sublist_append_left _ _
  have subsequence := leading.trans List.filter_sublist
  have counter : s.tick.toNat = s.results.length := by
    rw [inv.counter]
    exact UInt64.toNat_ofNat_of_lt' (by simp [UInt64.size]; omega)
  exact {
    counter := ⟨rfl,counter⟩
    increasing := List.Pairwise.sublist subsequence List.pairwise_lt_range'
    subsequence := subsequence
    absent := fun k low high => absent_iff inv few low high }

/-- One firing, posted, taken out and read. -/
theorem heartbeat_of_one : ∃ s : State Unit, Run Step (started zeroQueue)
    [.fire zeroMsg,.other (.send timer),.other .dispatch,.other .lockTake,.other .deliver] s ∧
      s.results.length < 2^64 ∧ Heartbeat s s.results.length := by
  have run : ∃ s : State Unit, Run Step (started zeroQueue)
      [.fire zeroMsg,.other (.send timer),.other .dispatch,.other .lockTake,.other .deliver] s ∧
        s.results.length = 1 :=
    ⟨_,((((Run.single (.fire rfl (.call rfl rfl) (.accept rfl rfl))).snoc (.other trivial (.send rfl))).snoc
      (.other ⟨_,rfl⟩ (.dispatch rfl rfl))).snoc (.other trivial (.take rfl rfl))).snoc
      (.other trivial (.deliver rfl)),rfl⟩
  obtain ⟨s,run,one⟩ := run
  have few : s.results.length < 2^64 := by rw [one]; decide
  exact ⟨s,run,few,heartbeat_integrity zeroQueue run few⟩

end Armd.Monitor
