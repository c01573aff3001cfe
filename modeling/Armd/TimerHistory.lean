import Armd.TimerRuns

/-!
What the history of a loop says of a single timer. `planOf` reads the calls on
one timer and its own firings and takes no notice of the heap, of the other
timers or of the queue of a pass. Every timer of a reachable loop is as its plan
says (`Recorded`): it is active, or waits in a pass, when it has a deadline, and
no timer fires before the deadline its plan gave it (`Punctual`). What follows
from the plan alone then holds of the loop.
-/
namespace Armd.TimerHistory
open Armd.Programs Armd.Programs.Program Armd.LinkedRings Armd.BinaryHeap Armd.HeapOperations Armd.UvQueue Armd.Timers
  Armd.TimerBooks Armd.TimerRefinement Armd.TimerPass Armd.TimerRuns
variable {T C : Type} [DecidableEq T]

/-- A timer by itself. -/
structure Plan (C : Type) where
  callback : Option C
  repeat_ : ℕ
  closing : Bool
  deadline : Option ℕ

/-- The time after a delay, on a clock that ends. -/
def after (time delay : ℕ) : ℕ := min (time+delay) (u64-1)

namespace Plan

def fire (p : Plan C) (time : ℕ) : Plan C :=
  { p with deadline := if p.repeat_ = 0 then none else some (after time p.repeat_) }

def obey (p : Plan C) (time : ℕ) : TimerCall T C → Plan C
  | .init _ => ⟨none,0,false,none⟩
  | .start _ cb timeout repeat_ =>
    if p.closing ∨ cb.isNone then p
    else { p with callback := cb, repeat_ := repeat_, deadline := some (after time timeout) }
  | .stop _ => { p with deadline := none }
  | .again _ =>
    if p.callback.isNone ∨ p.repeat_ = 0 then p
    else { p with deadline := if p.closing then none else some (after time p.repeat_) }
  | .setRepeat _ repeat_ => { p with repeat_ := repeat_ }
  | .ref _ => p
  | .unref _ => p
  | .close _ => { p with closing := true, deadline := none }

def next (t : T) (p : Plan C) : Event T C → Plan C
  | .called call time => if TimerCall.target call = t then p.obey time call else p
  | .fired u time => if u = t then p.fire time else p

end Plan

def planOf (t : T) (events : List (Event T C)) : Plan C := events.foldl (Plan.next t) ⟨none,0,false,none⟩

/-- A timer's record as a plan; on the queue of a pass it still has its deadline. -/
def seen (timer : UvTimer C) (waits : Bool) : Plan C :=
  ⟨timer.timerCb,timer.repeat_,timer.closing,if timer.active || waits then some timer.timeout else none⟩

/-- The handles are as the history says. -/
def Recorded (b : Books T C) (q : List T) : Prop :=
  ∀ t ∈ b.handleQueue, planOf t b.events = seen (b.timers t) (decide (t ∈ q))

/-- No timer has fired but at or after its deadline. -/
def Punctual (events : List (Event T C)) : Prop :=
  ∀ front t time back, events = front ++ .fired t time :: back → ∃ d, (planOf t front).deadline = some d ∧ d ≤ time

/-- What the books and the history of a loop have to do with each other. -/
structure Told (b : Books T C) (q : List T) : Prop where
  recorded : Recorded b q
  punctual : Punctual b.events
  due : ∀ t ∈ q, (b.timers t).timeout ≤ b.time
  time : b.time < u64
  repeats : ∀ t ∈ b.handleQueue, (b.timers t).repeat_ < u64

/-! ### The record of one timer -/

/-- `uv_timer_start` computes the end of the delay, be the sum past the end of the clock. -/
private theorem clamped_eq {time timeout : ℕ} (early : time < u64) (short : timeout < u64) :
    (if (time + timeout) % u64 < timeout then u64-1 else (time + timeout) % u64) = after time timeout := by
  unfold after u64 at *
  by_cases fits : time + timeout < 18446744073709551616
  · rw [Nat.mod_eq_of_lt fits,if_neg (by omega)]
    omega
  · have wrapped : (time + timeout) % 18446744073709551616 = time + timeout - 18446744073709551616 := by omega
    rw [wrapped,if_pos (by omega)]
    omega

section
variable {b : Books T C} {t u : T}

private theorem armTimer_timers (early : b.time < u64) {timeout : ℕ} (short : timeout < u64) (cb : Option C) (repeat_ : ℕ) :
    (b.armTimer t cb timeout repeat_).timers = Function.update b.timers t
      { b.timers t with timerCb := cb, timeout := after b.time timeout, repeat_, startId := b.timerCounter } := by
  rw [← clamped_eq early short]
  rfl

/-- A timer that starts has its new callback, times and place, and is active. -/
theorem startTimer_timers (early : b.time < u64) {timeout : ℕ} (short : timeout < u64) {cb : Option C}
    (accepted : ¬ ((b.timers t).closing ∨ (b.timers t).closed ∨ cb.isNone)) (repeat_ : ℕ) :
    ∃ startId, (startTimer b t cb timeout repeat_).timers = Function.update b.timers t
      { b.timers t with timerCb := cb, timeout := after b.time timeout, repeat_, startId, active := true } := by
  have same := sameBooks_changeActive b t false
  refine ⟨(b.uvHandleStop t).timerCounter,?_⟩
  rw [startTimer,if_neg accepted,Books.uvHandleStart,changeActive_timers,
    armTimer_timers (show (b.uvHandleStop t).time < u64 from same.time.symm ▸ early) short]
  simp [Books.uvHandleStop,same.time]

theorem againTimer_timers (early : b.time < u64) (short : (b.timers t).repeat_ < u64)
    (callback : (b.timers t).timerCb ≠ none) (repeats : (b.timers t).repeat_ ≠ 0) (closed : (b.timers t).closed = false) :
    ∃ timeout startId, (againTimer b t).timers = Function.update b.timers t { b.timers t with
      timeout, startId, active := ! (b.timers t).closing } ∧
      ((b.timers t).closing = false → timeout = after b.time (b.timers t).repeat_) := by
  have some : ¬ (b.timers t).timerCb.isNone := by simpa using callback
  have now : (b.uvHandleStop t).time = b.time := (sameBooks_changeActive b t false).time
  have here : (b.uvHandleStop t).timers = Function.update b.timers t { b.timers t with active := false } :=
    changeActive_timers b t false
  cases shut : (b.timers t).closing with
  | true =>
    refine ⟨(b.timers t).timeout,(b.timers t).startId,?_,nofun⟩
    rw [againTimer,if_neg some,if_pos repeats,startTimer,if_pos (by simp [here,shut]),here]
    rfl
  | false =>
    have accepted : ¬ (((b.uvHandleStop t).timers t).closing ∨ ((b.uvHandleStop t).timers t).closed ∨
        (b.timers t).timerCb.isNone) := by simp [here,shut,closed,callback]
    obtain ⟨startId,started⟩ := startTimer_timers (now.symm ▸ early) short accepted (b.timers t).repeat_
    refine ⟨after b.time (b.timers t).repeat_,startId,?_,fun _ => rfl⟩
    rw [againTimer,if_neg some,if_pos repeats,started,now,here]
    simp

/-- A call writes the record of its timer only. -/
theorem act_away (call : TimerCall T C) (other : u ≠ TimerCall.target call) : (act b call).timers u = b.timers u := by
  have stopped : ∀ (b : Books T C) (on : Bool), (b.changeActive (TimerCall.target call) on).timers u = b.timers u := fun b on => by
    rw [changeActive_timers,Function.update_of_ne other]
  have armed : ∀ (b : Books T C) (cb : Option C) (timeout repeat_ : ℕ),
      (b.armTimer (TimerCall.target call) cb timeout repeat_).timers u = b.timers u := fun b cb timeout repeat_ => by
    simp [Books.armTimer,Books.setTimer,Function.update_of_ne other]
  have started : ∀ (b : Books T C) (cb : Option C) (timeout repeat_ : ℕ),
      (startTimer b (TimerCall.target call) cb timeout repeat_).timers u = b.timers u := fun b cb timeout repeat_ => by
    unfold startTimer
    split
    · rfl
    · exact ((stopped _ true).trans (armed _ _ _ _)).trans (stopped _ false)
  cases call with
  | start t cb timeout repeat_ => exact started b cb timeout repeat_
  | stop t => exact stopped b false
  | again t =>
    simp only [act,againTimer]
    split
    · rfl
    · split
      · exact (started _ _ _ _).trans (stopped b false)
      · rfl
  | close t => exact (stopped _ false).trans (Function.update_of_ne other _ _)
  | ref t => simp [act,Books.uvHandleRef,Function.update_of_ne (show u ≠ t from other)]
  | unref t => simp [act,Books.uvHandleUnref,Function.update_of_ne (show u ≠ t from other)]
  | init t => exact Function.update_of_ne other _ _
  | setRepeat t repeat_ => exact Function.update_of_ne other _ _

/-- A call that does not stop its timer leaves the times as they are. -/
private theorem act_quiet {call : TimerCall T C} (quiet : ¬ Stops b call) (known : TimerCall.target call ∈ b.handleQueue)
    (allowed : Allowed b call) (u : T) : ((act b call).timers u).timeout = (b.timers u).timeout := by
  have update (t : T) (r : UvTimer C) (same : r.timeout = (b.timers t).timeout) :
      (Function.update b.timers t r u).timeout = (b.timers u).timeout := by
    by_cases isT : u = t
    · rw [isT,Function.update_self,same]
    · rw [Function.update_of_ne isT]
  cases call with
  | init t => exact absurd known allowed.1
  | start t cb timeout repeat_ =>
    have refused : (b.timers t).closing ∨ (b.timers t).closed ∨ cb.isNone := not_not.mp quiet
    rw [act,startTimer,if_pos refused]
  | stop t => exact absurd trivial quiet
  | again t =>
    have idle : (b.timers t).timerCb.isNone = true ∨ (b.timers t).repeat_ = 0 := by
      by_contra runs
      rw [not_or] at runs
      exact quiet ⟨by simpa [← Option.isSome_iff_ne_none] using runs.1,runs.2⟩
    rw [act,againTimer_idle idle]
  | setRepeat t repeat_ => exact update t _ rfl
  | ref t =>
    rw [act,Books.uvHandleRef,changeRef_timers]
    exact update t _ rfl
  | unref t =>
    rw [act,Books.uvHandleUnref,changeRef_timers]
    exact update t _ rfl
  | close t => exact absurd trivial quiet

private theorem queueAfter_away {q : List T} (call : TimerCall T C) (other : u ≠ TimerCall.target call) :
    u ∈ queueAfter b q call ↔ u ∈ q := by
  unfold queueAfter
  split
  · exact List.mem_erase_of_ne other
  · exact Iff.rfl

/-- A call does to its timer what the timer's plan says. -/
private theorem seen_act {others : ℕ} {q : List T} (sound : Sound others b q) (early : b.time < u64)
    (repeats : ∀ t ∈ b.handleQueue, (b.timers t).repeat_ < u64) {call : TimerCall T C} (allowed : Allowed b call)
    (isT : TimerCall.target call = t) : seen ((act b call).timers t) (decide (t ∈ queueAfter b q call)) =
      (seen (b.timers t) (decide (t ∈ q))).obey b.time call := by
  have gone : t ∉ q.erase t := sound.distinct.not_mem_erase
  cases call with
  | init u =>
    obtain rfl : u = t := isT
    have notWaiting : u ∉ q := fun waits => allowed.1 (sound.waiting u waits).1
    simp [act,queueAfter,Stops,notWaiting,Books.initTimer,Books.setTimer,seen,Plan.obey]
  | start u cb timeout repeat_ =>
    obtain rfl : u = t := isT
    have unfinished := sound.finished u allowed.1
    by_cases refused : (b.timers u).closing ∨ (b.timers u).closed ∨ cb.isNone
    · have refused' : (b.timers u).closing = true ∨ cb.isNone = true := by simpa [unfinished] using refused
      have stays : queueAfter b q (.start u cb timeout repeat_) = q :=
        if_neg fun stops : Stops b (.start u cb timeout repeat_) => stops refused
      have same : act b (.start u cb timeout repeat_) = b := if_pos refused
      rw [stays,same,Plan.obey,if_pos (show (seen (b.timers u) _).closing = true ∨ cb.isNone = true from refused')]
    · have accepted : ¬ ((b.timers u).closing = true ∨ cb.isNone = true) := by simpa [unfinished] using refused
      have left : queueAfter b q (.start u cb timeout repeat_) = q.erase u :=
        if_pos (show Stops b (.start u cb timeout repeat_) from refused)
      obtain ⟨startId,started⟩ := startTimer_timers early allowed.2.1 refused repeat_
      rw [left,Plan.obey,if_neg (show ¬ ((seen (b.timers u) _).closing = true ∨ cb.isNone = true) from accepted),act,started]
      simp [seen]
  | stop u =>
    obtain rfl : u = t := isT
    simp [act,queueAfter,Stops,TimerCall.target,gone,Books.uvHandleStop,seen,Plan.obey]
  | again u =>
    obtain rfl : u = t := isT
    by_cases idle : (b.timers u).timerCb.isNone = true ∨ (b.timers u).repeat_ = 0
    · have same : act b (.again u) = b := by
        simp only [act,againTimer]
        rcases idle with none | once
        · rw [if_pos none]
        · simp [once]
      have stays : queueAfter b q (.again u) = q := if_neg fun stops : Stops b (.again u) => by
        rcases idle with none | once
        · rw [Option.isNone_iff_eq_none] at none
          simp [Stops,none] at stops
        · exact stops.2 once
      rw [stays,same,Plan.obey,if_pos (show (seen (b.timers u) _).callback.isNone = true ∨ (seen (b.timers u) _).repeat_ = 0 from idle)]
    · have callback : (b.timers u).timerCb ≠ none := fun none => idle (.inl (by rw [none]; rfl))
      have repeating : (b.timers u).repeat_ ≠ 0 := fun once => idle (.inr once)
      have left : queueAfter b q (.again u) = q.erase u :=
        if_pos (show Stops b (.again u) from ⟨by simpa [Option.isSome_iff_ne_none] using callback,repeating⟩)
      obtain ⟨timeout,startId,again,isTime⟩ := againTimer_timers early (repeats u allowed) callback repeating
        (sound.finished u allowed)
      rw [left,Plan.obey,if_neg (show ¬ ((seen (b.timers u) _).callback.isNone = true ∨ (seen (b.timers u) _).repeat_ = 0) from idle),
        act,again]
      cases shut : (b.timers u).closing with
      | true => simp [seen,shut,gone]
      | false => simp [seen,shut,isTime shut]
  | setRepeat u repeat_ =>
    obtain rfl : u = t := isT
    simp [act,queueAfter,Stops,Books.uvTimerSetRepeat,Books.setTimer,seen,Plan.obey]
  | ref u =>
    obtain rfl : u = t := isT
    simp [act,queueAfter,Stops,Books.uvHandleRef,seen,Plan.obey]
  | unref u =>
    obtain rfl : u = t := isT
    simp [act,queueAfter,Stops,Books.uvHandleUnref,seen,Plan.obey]
  | close u =>
    obtain rfl : u = t := isT
    simp [act,queueAfter,Stops,TimerCall.target,gone,closeTimer,Books.uvHandleStop,Books.setTimer,seen,Plan.obey]

omit [DecidableEq T] in
private theorem act_handleQueue [DecidableEq T] (call : TimerCall T C) : (act b call).handleQueue = b.handleQueue ∨
    (∃ t, call = .init t) ∧ (act b call).handleQueue = b.handleQueue ++ [TimerCall.target call] := by
  cases call with
  | init t => exact .inr ⟨⟨t,rfl⟩,rfl⟩
  | start t cb timeout repeat_ => exact .inl (sameBooks_startTimer b t cb timeout repeat_).handleQueue
  | stop t => exact .inl (sameBooks_changeActive b t false).handleQueue
  | again t => exact .inl (sameBooks_againTimer b t).handleQueue
  | setRepeat t repeat_ => exact .inl rfl
  | ref t => exact .inl (sameBooks_changeRef b t true).handleQueue
  | unref t => exact .inl (sameBooks_changeRef b t false).handleQueue
  | close t => exact .inl (sameBooks_changeActive _ t false).handleQueue

/-- Only the timer of a call is new among the handles. -/
private theorem mem_act_handleQueue {call : TimerCall T C} (inside : u ∈ (act b call).handleQueue)
    (other : u ≠ TimerCall.target call) : u ∈ b.handleQueue := by
  rcases act_handleQueue (b := b) call with same | ⟨_,more⟩
  · exact same ▸ inside
  · rw [more,List.mem_append,List.mem_singleton] at inside
    exact inside.resolve_right other

theorem planOf_snoc (t : T) (events : List (Event T C)) (e : Event T C) :
    planOf t (events ++ [e]) = (planOf t events).next t e := by
  rw [planOf,List.foldl_append]
  rfl

/-- A history stays punctual with an event that is not a firing, or is one that was due. -/
theorem Punctual.snoc {events : List (Event T C)} (punctual : Punctual events) {e : Event T C}
    (due : ∀ t time, e = .fired t time → ∃ d, (planOf t events).deadline = some d ∧ d ≤ time) : Punctual (events ++ [e]) := by
  intro front t time back split
  rcases List.eq_nil_or_concat back with rfl | ⟨back,last,rfl⟩
  · obtain ⟨rfl,same⟩ := List.append_inj' split rfl
    exact due t time (List.singleton_inj.mp same)
  · rw [List.concat_eq_append,← List.cons_append,← List.append_assoc] at split
    exact punctual front t time back (List.append_inj' split rfl).1

/-- The delays that a call sets are those of the program, and these are times. -/
private theorem act_repeats {call : TimerCall T C} (early : b.time < u64) (repeats : ∀ t ∈ b.handleQueue, (b.timers t).repeat_ < u64)
    (finished : ∀ t ∈ b.handleQueue, (b.timers t).closed = false) (allowed : Allowed b call) :
    ∀ t ∈ (act b call).handleQueue, ((act b call).timers t).repeat_ < u64 := by
  intro u inside
  by_cases other : u = TimerCall.target call
  · cases call with
    | init t =>
      obtain rfl : u = t := other
      simp [act,Books.initTimer,Books.setTimer,u64]
    | start t cb timeout repeat_ =>
      obtain rfl : u = t := other
      by_cases refused : (b.timers u).closing ∨ (b.timers u).closed ∨ cb.isNone
      · rw [act,startTimer,if_pos refused]
        exact repeats u allowed.1
      · obtain ⟨startId,started⟩ := startTimer_timers early allowed.2.1 refused repeat_
        rw [act,started,Function.update_self]
        exact allowed.2.2
    | stop t =>
      obtain rfl : u = t := other
      simpa [act,Books.uvHandleStop] using repeats u allowed
    | again t =>
      obtain rfl : u = t := other
      by_cases idle : (b.timers u).timerCb.isNone = true ∨ (b.timers u).repeat_ = 0
      · rw [act,againTimer_idle idle]
        exact repeats u allowed
      · have callback : (b.timers u).timerCb ≠ none := fun none => idle (.inl (by rw [none]; rfl))
        obtain ⟨timeout,startId,again,_⟩ := againTimer_timers early (repeats u allowed) callback
          (fun once => idle (.inr once)) (finished u allowed)
        rw [act,again,Function.update_self]
        exact repeats u allowed
    | setRepeat t repeat_ =>
      obtain rfl : u = t := other
      simpa [act,Books.uvTimerSetRepeat,Books.setTimer] using allowed.2
    | ref t =>
      obtain rfl : u = t := other
      simpa [act,Books.uvHandleRef] using repeats u allowed
    | unref t =>
      obtain rfl : u = t := other
      simpa [act,Books.uvHandleUnref] using repeats u allowed
    | close t =>
      obtain rfl : u = t := other
      simpa [act,closeTimer,Books.uvHandleStop,Books.setTimer] using repeats u allowed.1
  · rw [act_away call other]
    exact repeats u (mem_act_handleQueue inside other)

end

/-! ### Calls and firings -/

section
variable {others : ℕ} {b : Books T C} {q : List T}

/-- A call leaves the times of the timers that still wait after it. -/
theorem act_waiting (sound : Sound others b q) {call : TimerCall T C} (allowed : Allowed b call) {u : T}
    (inside : u ∈ queueAfter b q call) : u ∈ q ∧ ((act b call).timers u).timeout = (b.timers u).timeout := by
  have before : u ∈ q := (queueAfter_sublist b q call).subset inside
  refine ⟨before,?_⟩
  by_cases same : u = TimerCall.target call
  · have quiet : ¬ Stops b call := fun stops => by
      have left : queueAfter b q call = q.erase (TimerCall.target call) := if_pos stops
      rw [left,same] at inside
      exact sound.distinct.not_mem_erase inside
    exact act_quiet quiet (same ▸ (sound.waiting u before).1) allowed u
  · rw [act_away call same]

theorem told_turn (sound : Sound others b q) (told : Told b q) {call : TimerCall T C} (allowed : Allowed b call) :
    Told (turn (b,q) call).1 (turn (b,q) call).2 where
  recorded := by
    intro u inside
    show planOf u ((act b call).events ++ [.called call (act b call).time]) =
      seen ((act b call).timers u) (decide (u ∈ queueAfter b q call))
    rw [act_events,act_time,planOf_snoc]
    by_cases same : TimerCall.target call = u
    · rw [Plan.next,if_pos same,seen_act sound told.time told.repeats allowed same]
      by_cases known : u ∈ b.handleQueue
      · rw [told.recorded u known]
      · rcases act_handleQueue (b := b) call with stays | ⟨⟨t,rfl⟩,_⟩
        · exact absurd (stays ▸ inside) known
        · rfl
    · have other : u ≠ TimerCall.target call := fun isU => same isU.symm
      rw [Plan.next,if_neg same,act_away call other,told.recorded u (mem_act_handleQueue inside other)]
      simp only [queueAfter_away call other]
  punctual := by
    show Punctual ((act b call).events ++ [_])
    rw [act_events]
    exact told.punctual.snoc nofun
  due := by
    intro u inside
    show ((act b call).timers u).timeout ≤ (act b call).time
    obtain ⟨before,same⟩ := act_waiting sound allowed inside
    rw [act_time,same]
    exact told.due u before
  time := by
    show (act b call).time < u64
    rw [act_time]
    exact told.time
  repeats := act_repeats told.time told.repeats sound.finished allowed

/-- The timer at the head of the queue fires, which was due, and starts again if it repeats. -/
theorem told_fired {t : T} (sound : Sound others b (t :: q)) (told : Told b (t :: q)) :
    Told ((againTimer b t).note (.fired t (againTimer b t).time)) q := by
  obtain ⟨member,idle⟩ := sound.waiting t (by simp)
  obtain ⟨callback,open_,unfinished⟩ := sound.live t (.inr (by simp))
  have fresh : t ∉ q := (List.nodup_cons.mp sound.distinct).1
  have same := sameBooks_againTimer b t
  have plan := told.recorded t member
  have away : ∀ u, u ≠ t → (againTimer b t).timers u = b.timers u := fun u other => act_away (.again t) other
  have here : seen ((againTimer b t).timers t) false = (planOf t b.events).fire b.time := by
    rw [plan]
    by_cases once : (b.timers t).repeat_ = 0
    · simp [againTimer_idle (.inr once),seen,Plan.fire,idle,once]
    · obtain ⟨timeout,startId,again,isTime⟩ := againTimer_timers told.time (told.repeats t member) callback once unfinished
      rw [again,Function.update_self]
      simp [seen,Plan.fire,open_,once,isTime open_]
  have kept : ((againTimer b t).timers t).repeat_ = (b.timers t).repeat_ := by
    have both := congrArg Plan.repeat_ here
    rw [plan] at both
    exact both
  refine ⟨?_,?_,?_,?_,?_⟩
  · intro u inside
    show planOf u ((againTimer b t).events ++ [.fired t (againTimer b t).time]) = seen ((againTimer b t).timers u) (decide (u ∈ q))
    have known : u ∈ b.handleQueue := same.handleQueue ▸ (inside : u ∈ (againTimer b t).handleQueue)
    rw [same.events,same.time,planOf_snoc]
    by_cases isT : t = u
    · subst isT
      simp only [Plan.next,if_true,fresh,decide_false,here]
    · rw [Plan.next,if_neg isT,away u fun isU => isT isU.symm,told.recorded u known]
      have other : u ≠ t := fun isU => isT isU.symm
      simp [other]
  · show Punctual ((againTimer b t).events ++ [.fired t (againTimer b t).time])
    rw [same.events,same.time]
    refine told.punctual.snoc fun u time isFired => ?_
    cases isFired
    refine ⟨(b.timers t).timeout,?_,told.due t (by simp)⟩
    rw [plan]
    simp [seen]
  · intro u inside
    show ((againTimer b t).timers u).timeout ≤ (againTimer b t).time
    rw [same.time,away u fun isT => fresh (isT ▸ inside)]
    exact told.due u (List.mem_cons_of_mem t inside)
  · show (againTimer b t).time < u64
    rw [same.time]
    exact told.time
  · intro u inside
    show ((againTimer b t).timers u).repeat_ < u64
    have known : u ∈ b.handleQueue := same.handleQueue ▸ (inside : u ∈ (againTimer b t).handleQueue)
    by_cases isT : u = t
    · rw [isT,kept]
      exact told.repeats t member
    · rw [away u isT]
      exact told.repeats u known

variable {code : C → T → Books T C → List (TimerCall T C)}

private theorem told_fireList (lawful : Lawful code) (n : ℕ) (sound : Sound others b q) (told : Told b q) (short : q.length ≤ n) :
    Told (fireList code n b q) [] :=
  fireList_invariant lawful Told (fun _ _ _ sound told => told_turn sound told) (fun _ _ _ sound told => told_fired sound told)
    n sound told short

/-- The timers that are due wait on the queue with the deadline they had. -/
theorem told_stopAll {due : List T} (told : Told b []) (list : DueList b due) : Told (stopAll b due) due := by
  have same := sameBooks_stopAll b due
  have record : ∀ u, ((stopAll b due).timers u).timeout = (b.timers u).timeout ∧
      ((stopAll b due).timers u).repeat_ = (b.timers u).repeat_ := fun u => by
    rw [stopAll_timers]
    split <;> exact ⟨rfl,rfl⟩
  refine ⟨fun u inside => ?_,?_,fun u inside => ?_,?_,fun u inside => ?_⟩
  · rw [same.events,told.recorded u (same.handleQueue ▸ inside),stopAll_timers]
    by_cases waits : u ∈ due
    · simp [seen,waits,((list.mem u).mp waits).1]
    · simp [waits]
  · rw [same.events]
    exact told.punctual
  · rw [(record u).1,same.time]
    exact ((list.mem u).mp inside).2
  · rw [same.time]
    exact told.time
  · rw [(record u).2]
    exact told.repeats u (same.handleQueue ▸ inside)

end

/-! ### Open handles -/

/-- A timer that was initialised is a handle of the loop as long as it is not closing. -/
def Held (b : Books T C) : Prop :=
  ∀ t time, .called (.init t) time ∈ b.events → (planOf t b.events).closing = false → t ∈ b.handleQueue

section
variable {b b' : Books T C} {q : List T}

theorem Held.congr (held : Held b) (events : b'.events = b.events) (queue : b'.handleQueue = b.handleQueue) : Held b' := by
  intro t time made open_
  rw [events] at made open_
  rw [queue]
  exact held t time made open_

omit [DecidableEq T] in
private theorem obey_closing {p : Plan C} {call : TimerCall T C} {time : ℕ} (open_ : (p.obey time call).closing = false)
    (other : ∀ t, call ≠ .init t) : p.closing = false := by
  cases call with
  | init t => exact absurd rfl (other t)
  | start t cb timeout repeat_ =>
    rw [Plan.obey] at open_
    split at open_ <;> exact open_
  | again t =>
    rw [Plan.obey] at open_
    split at open_ <;> exact open_
  | close t => cases open_
  | _ => exact open_

private theorem held_turn (held : Held b) (call : TimerCall T C) : Held (turn (b,q) call).1 := by
  intro t time made open_
  change Event.called (.init t) time ∈ (act b call).events ++ [.called call (act b call).time] at made
  change (planOf t ((act b call).events ++ [.called call (act b call).time])).closing = false at open_
  show t ∈ (act b call).handleQueue
  rw [act_events] at made open_
  rw [planOf_snoc] at open_
  rcases act_handleQueue (b := b) call with stays | ⟨⟨u,rfl⟩,more⟩
  · have other : ∀ u, call ≠ .init u := by
      rintro u rfl
      have longer := congrArg List.length stays
      simp [act,Books.initTimer] at longer
    rw [stays]
    rcases List.mem_append.mp made with old | new
    · refine held t time old ?_
      rw [Plan.next] at open_
      split at open_
      · exact obey_closing open_ other
      · exact open_
    · exact absurd (Event.called.inj (List.mem_singleton.mp new)).1.symm (other t)
  · rw [more,List.mem_append,List.mem_singleton]
    by_cases isT : t = u
    · exact .inr isT
    · rw [Plan.next,if_neg fun same => isT same.symm] at open_
      rcases List.mem_append.mp made with old | new
      · exact .inl (held t time old open_)
      · exact absurd (TimerCall.init.inj (Event.called.inj (List.mem_singleton.mp new)).1) isT

private theorem held_fired (held : Held b) (t : T) : Held ((againTimer b t).note (.fired t (againTimer b t).time)) := by
  have same := sameBooks_againTimer b t
  intro u time made open_
  change Event.called (.init u) time ∈ (againTimer b t).events ++ [.fired t (againTimer b t).time] at made
  change (planOf u ((againTimer b t).events ++ [.fired t (againTimer b t).time])).closing = false at open_
  show u ∈ (againTimer b t).handleQueue
  rw [same.events] at made open_
  rw [same.handleQueue]
  refine held u time (by simpa using made) ?_
  rw [planOf_snoc,Plan.next] at open_
  split at open_ <;> exact open_

private theorem held_fireList {others : ℕ} {code : C → T → Books T C → List (TimerCall T C)} (lawful : Lawful code) (n : ℕ)
    (sound : Sound others b q) (held : Held b) (short : q.length ≤ n) : Held (fireList code n b q) :=
  fireList_invariant lawful (fun b _ => Held b) (fun _ _ call _ held _ => held_turn held call)
    (fun _ _ t _ held => held_fired held t) n sound held short

end

/-! ### Runs -/

section
variable {others : ℕ} {code : C → T → Books T C → List (TimerCall T C)} {w : TimerLoop T C}

theorem reachable_told (lawful : Lawful code) (reachable : Reachable code others w) : Told w.toBooks [] := by
  induction reachable with
  | start timers nodes time early inactive => exact ⟨nofun,fun front t time back split => by simp [uvLoopInit] at split,nofun,early,nofun⟩
  | @step others w w' before step permitted run ih =>
    have good := before.good lawful
    cases step with
    | call call =>
      obtain ⟨h,ran,_⟩ := performAll_good [call] w none good ⟨permitted,trivial⟩
      rw [takeStep,ran] at run
      cases run
      have none : queueAfter w.toBooks [] call = [] := List.eq_nil_of_sublist_nil (queueAfter_sublist w.toBooks [] call)
      have told : Told (turn (w.toBooks,[]) call).1 (queueAfter w.toBooks [] call) := told_turn good.sound ih permitted
      rw [none] at told
      exact told
    | updateTime now =>
      cases run
      exact ⟨ih.recorded,ih.punctual,nofun,permitted.2,ih.repeats⟩
    | runTimers =>
      obtain ⟨due,h,list,sound,ran,_⟩ := uvRunTimers_good lawful good (Nat.lt_succ_self w.timerHeap.nelts)
      simp only [takeStep,bind_run,get_run,Outcome.andThen_done,ran] at run
      cases run
      exact told_fireList lawful due.length sound (told_stopAll ih list) le_rfl
    | runClosingHandles =>
      obtain ⟨b,ran,_,_,finished⟩ := uvRunClosingHandles_good good
      rw [takeStep,ran] at run
      cases run
      have kept : ∀ t ∈ b.handleQueue, t ∈ w.handleQueue ∧ b.timers t = w.timers t := fun t inside =>
        ⟨finished.handleQueue t inside,finished.timers t fun closing => finished.gone t closing inside⟩
      refine ⟨fun t inside => ?_,?_,nofun,?_,fun t inside => ?_⟩
      · rw [finished.events,(kept t inside).2]
        exact ih.recorded t (kept t inside).1
      · rw [finished.events]
        exact ih.punctual
      · rw [finished.time]
        exact ih.time
      · rw [(kept t inside).2]
        exact ih.repeats t (kept t inside).1
    | otherHandle up =>
      cases run
      exact ⟨ih.recorded,ih.punctual,nofun,ih.time,ih.repeats⟩

/-- In a reachable loop a timer is a handle from its initialisation to its closing. -/
theorem reachable_held (lawful : Lawful code) (reachable : Reachable code others w) : Held w.toBooks := by
  induction reachable with
  | start timers nodes time early inactive => exact fun t time made => by simp [uvLoopInit] at made
  | @step others w w' before step permitted run ih =>
    have good := before.good lawful
    cases step with
    | call call =>
      obtain ⟨h,ran,_⟩ := performAll_good [call] w none good ⟨permitted,trivial⟩
      rw [takeStep,ran] at run
      cases run
      exact held_turn ih call
    | updateTime now =>
      cases run
      exact ih.congr rfl rfl
    | runTimers =>
      obtain ⟨due,h,list,sound,ran,_⟩ := uvRunTimers_good lawful good (Nat.lt_succ_self w.timerHeap.nelts)
      simp only [takeStep,bind_run,get_run,Outcome.andThen_done,ran] at run
      cases run
      have same := sameBooks_stopAll w.toBooks due
      exact held_fireList lawful due.length sound (ih.congr same.events same.handleQueue) le_rfl
    | runClosingHandles =>
      obtain ⟨b,ran,_,_,finished⟩ := uvRunClosingHandles_good good
      rw [takeStep,ran] at run
      cases run
      intro t time made open_
      rw [finished.events] at made open_
      have known := ih t time made open_
      refine finished.kept t known fun closing => ?_
      rw [(reachable_told lawful before).recorded t known] at open_
      have shut := ((good.sound.pending t).mp closing).2
      rw [show (w.timers t).closing = false from open_] at shut
      cases shut
    | otherHandle up =>
      cases run
      exact ih.congr rfl rfl

/-- A timer of a reachable loop is as its own calls and firings have left it, and has never fired before it was due. -/
theorem timers_follow_plans (lawful : Lawful code) (reachable : Reachable code others w) :
    (∀ t ∈ w.handleQueue, planOf t w.events = seen (w.timers t) false) ∧ Punctual w.events := by
  have told := reachable_told lawful reachable
  exact ⟨fun t inside => told.recorded t inside,told.punctual⟩

end

/-- One callback has stopped the second timer, which was started again, and its own has started the first one again. -/
theorem timers_follow_plans_one : ∃ w, Reachable rivalCode 0 w ∧
    w.events = rivals.events ++ [.fired false 5000,.called (.stop true) 5000,.called (.again true) 5000,.fired true 8000,
      .called (.again false) 8000] ∧
    (∀ t ∈ w.handleQueue, planOf t w.events = seen (w.timers t) false) ∧ Punctual w.events := by
  obtain ⟨h,reachable⟩ := rivalsRestarted_reachable
  have events : rivalsRestarted.events = rivals.events ++ [.fired false 5000,.called (.stop true) 5000,
      .called (.again true) 5000,.fired true 8000,.called (.again false) 8000] := by decide
  exact ⟨_,reachable,events,timers_follow_plans rivalCode_lawful reachable⟩

/-! ### What follows from a plan -/

/-- The event is a call on the timer. -/
def isCallOn (t : T) : Event T C → Bool
  | .called call _ => decide (TimerCall.target call = t)
  | .fired _ _ => false

/-- The calls that may make a stopped timer active. -/
def mayStart : TimerCall T C → Bool
  | .start _ _ _ _ => true
  | .again _ => true
  | _ => false

def startsTimer (t : T) : Event T C → Bool
  | .called call _ => decide (TimerCall.target call = t) && mayStart call
  | .fired _ _ => false

section
variable {t : T}

theorem Punctual.prefix {events back : List (Event T C)} (punctual : Punctual (events ++ back)) : Punctual events := by
  intro front u time rest split
  exact punctual front u time (rest ++ back) (by rw [split]; simp)

omit [DecidableEq T] in
private theorem obey_idle {p : Plan C} (idle : p.deadline = none) {call : TimerCall T C} (quiet : mayStart call = false) (time : ℕ) :
    (p.obey time call).deadline = none := by
  cases call with
  | start t cb timeout repeat_ => cases quiet
  | again t => cases quiet
  | setRepeat t repeat_ => exact idle
  | ref t => exact idle
  | unref t => exact idle
  | _ => rfl

/-- A timer without a deadline does not fire until it is started. -/
private theorem idle_until_started {front mid : List (Event T C)} (punctual : Punctual (front ++ mid))
    (idle : (planOf t front).deadline = none) (quiet : ∀ e ∈ mid, startsTimer t e = false) :
    (planOf t (front ++ mid)).deadline = none ∧ t ∉ firedOf mid := by
  induction mid using List.reverseRecOn with
  | nil => exact ⟨by simpa using idle,by simp [firedOf]⟩
  | append_singleton mid e ih =>
    rw [← List.append_assoc] at punctual ⊢
    obtain ⟨before,silent⟩ := ih punctual.prefix fun e' inside => quiet e' (List.mem_append_left _ inside)
    have last := quiet e (by simp)
    cases e with
    | called call time =>
      refine ⟨?_,by simpa using silent⟩
      rw [planOf_snoc,Plan.next]
      split
      · rename_i isT
        exact obey_idle before (by simpa [startsTimer,isT] using last) time
      · exact before
    | fired u time =>
      have other : u ≠ t := by
        rintro rfl
        obtain ⟨d,deadline,_⟩ := punctual (front ++ mid) u time [] (by simp)
        rw [before] at deadline
        cases deadline
      refine ⟨?_,?_⟩
      · rw [planOf_snoc,Plan.next,if_neg other]
        exact before
      · simpa [silent] using fun isU : t = u => other isU.symm

theorem asleep_until_started {events : List (Event T C)} (punctual : Punctual events)
    (quiet : ∀ e ∈ events, startsTimer t e = false) : (planOf t events).deadline = none ∧ t ∉ firedOf events := by
  have asleep : (planOf t ([] : List (Event T C))).deadline = none := rfl
  rw [← List.nil_append events] at punctual
  simpa using idle_until_started punctual asleep quiet

/-- Until the next call on it, a timer keeps its delay, and its deadline is no earlier than that many delays after
    the first. -/
private theorem plan_schedule {front mid : List (Event T C)} (punctual : Punctual (front ++ mid)) {first : ℕ}
    (deadline : (planOf t front).deadline = some first) (bounded : first < u64)
    (quiet : ∀ e ∈ mid, isCallOn t e = false) :
    (planOf t (front ++ mid)).repeat_ = (planOf t front).repeat_ ∧
      ∀ d, (planOf t (front ++ mid)).deadline = some d →
        after first ((firedOf mid).count t * (planOf t front).repeat_) ≤ d ∧
          ((planOf t front).repeat_ = 0 → (firedOf mid).count t = 0) := by
  induction mid using List.reverseRecOn with
  | nil =>
    refine ⟨by simp,fun d isD => ?_⟩
    rw [List.append_nil,deadline,Option.some.injEq] at isD
    subst isD
    simp [firedOf,after]
  | append_singleton mid e ih =>
    rw [← List.append_assoc] at punctual ⊢
    obtain ⟨delay,schedule⟩ := ih punctual.prefix fun e' inside => quiet e' (List.mem_append_left _ inside)
    have last := quiet e (by simp)
    rw [planOf_snoc]
    cases e with
    | called call time =>
      have other : TimerCall.target call ≠ t := by simpa [isCallOn] using last
      simp only [Plan.next,if_neg other,firedOf_append,firedOf_called]
      simpa using ⟨delay,schedule⟩
    | fired u time =>
      by_cases isT : u = t
      · subst isT
        obtain ⟨d,isD,reached⟩ := punctual (front ++ mid) u time [] (by simp)
        obtain ⟨early,_⟩ := schedule d isD
        simp only [Plan.next,if_true,Plan.fire,delay,firedOf_append,firedOf_fired,List.count_append,List.count_cons_self]
        refine ⟨trivial,fun d' isD' => ?_⟩
        split at isD'
        · cases isD'
        · rename_i repeats
          rw [Option.some.injEq] at isD'
          refine ⟨?_,fun none => absurd none repeats⟩
          subst isD'
          rw [firedOf_nil,List.count_nil,Nat.zero_add,Nat.add_mul,Nat.one_mul]
          unfold after at *
          omega
      · simp only [Plan.next,if_neg isT,firedOf_append,firedOf_fired,List.count_append,List.count_cons_of_ne isT]
        simpa using ⟨delay,schedule⟩

/-- A timer that fires after a call that halts it was started in between. -/
theorem Punctual.restarted {front mid back : List (Event T C)} {call : TimerCall T C} {time time' : ℕ}
    (punctual : Punctual (front ++ .called call time :: (mid ++ .fired (TimerCall.target call) time' :: back)))
    (halted : halts call = true) :
    ∃ again at_, .called again at_ ∈ mid ∧ TimerCall.target again = TimerCall.target call ∧ mayStart again = true := by
  by_contra none
  have quiet : ∀ e ∈ mid, startsTimer (TimerCall.target call) e = false := by
    intro e inside
    cases e with
    | fired u at_ => rfl
    | called again at_ =>
      by_contra starts
      simp only [startsTimer,Bool.and_eq_true,decide_eq_true_eq,Bool.not_eq_false] at starts
      exact none ⟨again,at_,inside,starts.1,starts.2⟩
  have stopped : (planOf (TimerCall.target call) (front ++ [.called call time])).deadline = Option.none := by
    rw [planOf_snoc,Plan.next,if_pos rfl]
    cases call <;> first | rfl | cases halted
  have whole : front ++ .called call time :: (mid ++ .fired (TimerCall.target call) time' :: back) =
      ((front ++ [.called call time]) ++ mid) ++ .fired (TimerCall.target call) time' :: back := by simp
  rw [whole] at punctual
  obtain ⟨idle,_⟩ := idle_until_started punctual.prefix stopped quiet
  obtain ⟨d,deadline,_⟩ := punctual _ _ _ _ rfl
  rw [idle] at deadline
  cases deadline

/-- A timer that was started and has not been called since fires by its delays. -/
theorem Punctual.interval {front mid back : List (Event T C)} {cb : C} {timeout repeat_ time time' : ℕ}
    (punctual : Punctual (front ++ .called (.start t (some cb) timeout repeat_) time :: (mid ++ .fired t time' :: back)))
    (open_ : (planOf t front).closing = false) (quiet : ∀ e ∈ mid, isCallOn t e = false) :
    after time (timeout + (firedOf mid).count t * repeat_) ≤ time' ∧ (repeat_ = 0 → t ∉ firedOf mid) := by
  have whole : front ++ .called (.start t (some cb) timeout repeat_) time :: (mid ++ .fired t time' :: back) =
      ((front ++ [.called (.start t (some cb) timeout repeat_) time]) ++ mid) ++ .fired t time' :: back := by simp
  rw [whole] at punctual
  have started : planOf t (front ++ [.called (.start t (some cb) timeout repeat_) time]) =
      { planOf t front with callback := some cb, repeat_, deadline := some (after time timeout) } := by
    simp [planOf_snoc,Plan.next,TimerCall.target,Plan.obey,open_]
  obtain ⟨_,schedule⟩ := plan_schedule punctual.prefix (congrArg Plan.deadline started)
    (by unfold after u64; omega) quiet
  obtain ⟨d,deadline,reached⟩ := punctual _ _ _ _ rfl
  obtain ⟨early,once⟩ := schedule d deadline
  rw [started] at early once
  refine ⟨?_,fun none => List.count_eq_zero.mp (once none)⟩
  unfold after at *
  simp only at early
  omega

end

section
variable {others : ℕ} {code : C → T → Books T C → List (TimerCall T C)} {w : TimerLoop T C}

/-- A timer that was stopped or closed does not fire until it is started again. -/
theorem no_firing_after_stop (lawful : Lawful code) (reachable : Reachable code others w) {front mid back : List (Event T C)}
    {call : TimerCall T C} {time time' : ℕ} (halted : halts call = true)
    (history : w.events = front ++ .called call time :: (mid ++ .fired (TimerCall.target call) time' :: back)) :
    ∃ again at_, .called again at_ ∈ mid ∧ TimerCall.target again = TimerCall.target call ∧ mayStart again = true := by
  have punctual := (reachable_told lawful reachable).punctual
  rw [history] at punctual
  exact punctual.restarted halted

/-- The second timer, which a callback stopped, fires after it was started again. -/
theorem no_firing_after_stop_one : ∃ w, Reachable rivalCode 0 w ∧
    w.events = rivals.events ++ [.fired false 5000] ++ .called (.stop true) 5000 :: ([.called (.again true) 5000] ++
      .fired true 8000 :: [.called (.again false) 8000]) ∧
    ∃ again at_, .called again at_ ∈ [Event.called (.again true : TimerCall Bool Unit) 5000] ∧
      TimerCall.target again = true ∧ mayStart again = true := by
  obtain ⟨h,reachable⟩ := rivalsRestarted_reachable
  have history : rivalsRestarted.events = rivals.events ++ [.fired false 5000] ++ .called (.stop true) 5000 ::
      ([.called (.again true) 5000] ++ .fired true 8000 :: [.called (.again false) 8000]) := by decide
  exact ⟨_,reachable,history,no_firing_after_stop rivalCode_lawful reachable rfl history⟩

/-- After a start, and until the next call on it, a timer fires no more often than its delays allow: firing number
    `k` is no earlier than the timeout and `k` repeats after the start, and the only one if the timer does not repeat. -/
theorem firings_keep_interval (lawful : Lawful code) (reachable : Reachable code others w) {front mid back : List (Event T C)}
    {t : T} {cb : C} {timeout repeat_ time time' : ℕ} (open_ : (planOf t front).closing = false)
    (history : w.events = front ++ .called (.start t (some cb) timeout repeat_) time :: (mid ++ .fired t time' :: back))
    (quiet : ∀ e ∈ mid, isCallOn t e = false) :
    after time (timeout + (firedOf mid).count t * repeat_) ≤ time' ∧ (repeat_ = 0 → t ∉ firedOf mid) := by
  have punctual := (reachable_told lawful reachable).punctual
  rw [history] at punctual
  exact punctual.interval open_ quiet

/-- The first timer fires a second time. -/
theorem firings_keep_interval_one : ∃ w, Reachable rivalCode 0 w ∧
    w.events = [.called (.init false) 0,.called (.init true) 0] ++ .called (.start false (some ()) 5000 5000) 0 ::
      ([.called (.start true (some ()) 5000 3000) 0,.fired false 5000,.called (.stop true) 5000] ++
        .fired false 10000 :: [.called (.stop true) 10000]) ∧
    after 0 (5000 + 1*5000) ≤ 10000 := by
  obtain ⟨h,reachable⟩ := rivalsTwice_reachable
  have history : rivalsTwice.events = [.called (.init false) 0,.called (.init true) 0] ++
      .called (.start false (some ()) 5000 5000) 0 ::
        ([.called (.start true (some ()) 5000 3000) 0,.fired false 5000,.called (.stop true) 5000] ++
          .fired false 10000 :: [.called (.stop true) 10000]) := by decide
  exact ⟨_,reachable,history,(firings_keep_interval rivalCode_lawful reachable rfl history (by decide)).1⟩

end

end Armd.TimerHistory
