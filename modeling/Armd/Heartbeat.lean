import Armd.UvRun

/-!
The heartbeat of the monitor module: a timer that `monitor_on_start` starts with
an interval for its timeout and its repeat, and that `monitor_on_stop` stops and
closes. What the other timers of the loop do, and how long its passes are apart,
makes no beat come early, and none comes after the stop. In `uv_run` no beat is
left out either: each comes within the bounds on how late its timers are.
-/
namespace Armd.Heartbeat
open Armd.Runs Armd.Timers Armd.TimerBooks Armd.TimerPass Armd.TimerRuns Armd.TimerHistory Armd.UvRun
variable {T C : Type} [DecidableEq T]

def monitorIntervalMs : ℕ := 5000

/-- What `monitor_on_start` calls on its timer. -/
def monitorOnStart (timer : T) (monitorTimerCb : C) : List (TimerCall T C) :=
  [.init timer,.start timer (some monitorTimerCb) monitorIntervalMs monitorIntervalMs]

/-- What `monitor_on_stop` calls on its timer. -/
def monitorOnStop (timer : T) : List (TimerCall T C) := [.stop timer,.close timer]

def callsOn (t : T) (events : List (Event T C)) : List (TimerCall T C) :=
  events.filterMap fun
    | .called call _ => if TimerCall.target call = t then some call else none
    | .fired _ _ => none

section
variable {t : T}

private theorem callsOn_append (xs ys : List (Event T C)) : callsOn t (xs ++ ys) = callsOn t xs ++ callsOn t ys :=
  List.filterMap_append

/-- The last of the calls on a timer parts the history. -/
private theorem last_call {events : List (Event T C)} {calls : List (TimerCall T C)} {call : TimerCall T C}
    (made : callsOn t events = calls ++ [call]) : ∃ front time back, events = front ++ .called call time :: back ∧
      callsOn t front = calls ∧ callsOn t back = [] ∧ TimerCall.target call = t := by
  induction events using List.reverseRecOn generalizing calls call with
  | nil => simp [callsOn] at made
  | append_singleton events e ih =>
    rw [callsOn_append] at made
    by_cases onT : callsOn t [e] = []
    · rw [onT,List.append_nil] at made
      obtain ⟨front,time,back,rfl,before,silent,isT⟩ := ih made
      refine ⟨front,time,back ++ [e],by simp,before,?_,isT⟩
      rw [callsOn_append,silent,onT]
      rfl
    · cases e with
      | fired u time => exact absurd rfl onT
      | called last time =>
        have isT : TimerCall.target last = t := by
          by_contra other
          exact onT (by simp [callsOn,other])
        have single : callsOn t [.called last time] = [last] := by simp [callsOn,isT]
        rw [single] at made
        obtain ⟨before,same⟩ := List.append_inj' made rfl
        cases same
        exact ⟨events,time,[],rfl,before,rfl,isT⟩

private theorem mem_callsOn {events : List (Event T C)} {call : TimerCall T C} {time : ℕ} (inside : .called call time ∈ events)
    (isT : TimerCall.target call = t) : call ∈ callsOn t events :=
  List.mem_filterMap.mpr ⟨_,inside,by simp [isT]⟩

/-- A timer on which no such call was made has not been started. -/
private theorem quiet_of_calls {events : List (Event T C)} (calls : ∀ call ∈ callsOn t events, mayStart call = false) :
    ∀ e ∈ events, startsTimer t e = false := by
  intro e inside
  cases e with
  | fired u time => rfl
  | called call time =>
    by_cases isT : TimerCall.target call = t
    · simp [startsTimer,calls call (mem_callsOn inside isT)]
    · simp [startsTimer,isT]

private theorem open_until_close {events : List (Event T C)} (calls : ∀ call ∈ callsOn t events, ∀ u, call ≠ .close u) :
    (planOf t events).closing = false := by
  induction events using List.reverseRecOn with
  | nil => rfl
  | append_singleton events e ih =>
    have before := ih fun call inside => calls call (callsOn_append events [e] ▸ List.mem_append_left _ inside)
    rw [planOf_snoc]
    cases e with
    | fired u time =>
      rw [Plan.next]
      split <;> exact before
    | called call time =>
      rw [Plan.next]
      split
      · rename_i isT
        have last := calls call (mem_callsOn (show Event.called call time ∈ events ++ [.called call time] by simp) isT)
        cases call with
        | init u => rfl
        | start u cb timeout repeat_ =>
          rw [Plan.obey]
          split <;> exact before
        | again u =>
          rw [Plan.obey]
          split <;> exact before
        | close u => exact absurd rfl (last u)
        | _ => exact before
      · exact before

private theorem silent_of_no_calls {events : List (Event T C)} (none : callsOn t events = []) :
    ∀ e ∈ events, isCallOn t e = false := by
  intro e inside
  cases e with
  | fired u time => rfl
  | called call time =>
    by_contra onT
    have among := mem_callsOn inside (by simpa [isCallOn] using onT)
    rw [none] at among
    cases among

omit [DecidableEq T] in
/-- Calls from the start of the monitor to its stop that include the start of the timer, and do not end by halting
    it, are those of the start. -/
private theorem calls_are_start {made stop : List (TimerCall T C)} {monitorTimerCb : C} (stops : stop <+: monitorOnStop t)
    (planned : made <+: monitorOnStart t monitorTimerCb ++ stop) (started : ∃ call ∈ made, mayStart call = true)
    (running : ∀ calls call, made = calls ++ [call] → halts call = false) : made = monitorOnStart t monitorTimerCb := by
  obtain ⟨rest,total⟩ := planned
  rcases List.append_eq_append_iff.mp total with ⟨more,isStart,_⟩ | ⟨more,beyond,isStop⟩
  -- they end within the start: the first of its calls does not start the timer
  · obtain ⟨call,among,starts⟩ := started
    match made,isStart,among with
    | [],_,among => cases among
    | [first],isStart,among =>
      rw [monitorOnStart,List.cons_append,List.cons.injEq] at isStart
      rw [List.mem_singleton.mp among,← isStart.1] at starts
      cases starts
    | first :: second :: later,isStart,_ =>
      simp only [monitorOnStart,List.cons_append,List.cons.injEq,List.nil_eq,List.append_eq_nil_iff] at isStart
      rw [isStart.2.2.1,← isStart.1,← isStart.2.1]
      rfl
  -- they go on into the stop: each of its calls halts the timer
  · rcases List.eq_nil_or_concat more with rfl | ⟨front,last,rfl⟩
    · simpa using beyond
    · have inside : last ∈ monitorOnStop t := by
        refine stops.subset ?_
        rw [isStop]
        simp
      have halted : halts last = true := by
        rcases List.mem_cons.mp inside with rfl | second
        · rfl
        · rw [List.mem_singleton.mp second]; rfl
      rw [List.concat_eq_append,← List.append_assoc] at beyond
      rw [running _ last beyond] at halted
      cases halted

/-- A timer that fires is halted by none of its calls that nothing followed. -/
private theorem running_when_fired {front back : List (Event T C)} {time : ℕ}
    (punctual : Punctual (front ++ .fired t time :: back)) {calls : List (TimerCall T C)} {call : TimerCall T C}
    (made : callsOn t front = calls ++ [call]) : halts call = false := by
  by_contra halted
  obtain ⟨before,time',since,split,_,silent,isT⟩ := last_call made
  have whole : front ++ .fired t time :: back =
      before ++ .called call time' :: (since ++ .fired (TimerCall.target call) time :: back) := by
    rw [split,isT]
    simp
  rw [whole] at punctual
  obtain ⟨again,at_,inside,same,_⟩ := punctual.restarted (by simpa using halted)
  have among := mem_callsOn inside (same.trans isT)
  rw [silent] at among
  cases among

/-- A timer that fires was started. -/
private theorem started_when_fired {front back : List (Event T C)} {time : ℕ}
    (punctual : Punctual (front ++ .fired t time :: back)) : ∃ call ∈ callsOn t front, mayStart call = true := by
  by_contra none
  have quiet : ∀ call ∈ callsOn t front, mayStart call = false := fun call inside => by
    by_contra starts
    exact none ⟨call,inside,by simpa using starts⟩
  have idle := (asleep_until_started punctual.prefix (quiet_of_calls quiet)).1
  obtain ⟨d,deadline,_⟩ := punctual front t time back rfl
  rw [deadline] at idle
  cases idle

end

variable {others : ℕ} {code : C → T → Books T C → List (TimerCall T C)} {w : TimerLoop T C}

/-- No beat comes before its turn, counted in intervals from the start, and none after the stop. -/
theorem heartbeats_keep_interval (lawful : Lawful code) (reachable : Reachable code others w) {timer : T}
    {monitorTimerCb : C} {stop : List (TimerCall T C)} (stops : stop <+: monitorOnStop timer)
    (calls : callsOn timer w.events = monitorOnStart timer monitorTimerCb ++ stop) {front back : List (Event T C)} {time : ℕ}
    (history : w.events = front ++ .fired timer time :: back) :
    callsOn timer front = monitorOnStart timer monitorTimerCb ∧ ∃ start,
      .called (.start timer (some monitorTimerCb) monitorIntervalMs monitorIntervalMs) start ∈ front ∧
      after start (((firedOf front).count timer + 1) * monitorIntervalMs) ≤ time := by
  have punctual := (reachable_told lawful reachable).punctual
  rw [history] at punctual
  have planned : callsOn timer front <+: monitorOnStart timer monitorTimerCb ++ stop := by
    rw [← calls,history,callsOn_append]
    exact List.prefix_append _ _
  have onlyStart := calls_are_start stops planned (started_when_fired punctual) fun _ _ => running_when_fired punctual
  refine ⟨onlyStart,?_⟩
  have lastStart : callsOn timer front = [.init timer] ++
      [.start timer (some monitorTimerCb) monitorIntervalMs monitorIntervalMs] := onlyStart
  obtain ⟨before,start,mid,split,first,silent,_⟩ := last_call lastStart
  have open_ : (planOf timer before).closing = false := open_until_close (by simp [first])
  have asleep : timer ∉ firedOf before := by
    rw [split] at punctual
    exact (asleep_until_started punctual.prefix.prefix (quiet_of_calls (by simp [first,mayStart]))).2
  have whole : front ++ .fired timer time :: back =
      before ++ .called (.start timer (some monitorTimerCb) monitorIntervalMs monitorIntervalMs) start ::
        (mid ++ .fired timer time :: back) := by
    rw [split]
    simp
  rw [whole] at punctual
  have interval := (punctual.interval open_ (silent_of_no_calls silent)).1
  refine ⟨start,by simp [split],?_⟩
  rw [split,firedOf_append,firedOf_called,List.count_append,List.count_eq_zero.mpr asleep,Nat.zero_add,Nat.add_mul,
    Nat.one_mul,Nat.add_comm]
  exact interval

/-- The second beat. -/
theorem heartbeats_keep_interval_one : ∃ (w : TimerLoop Bool Unit) (front : List (Event Bool Unit)), Reachable rivalCode 0 w ∧
    w.events = front ++ .fired false 10000 :: [.called (.stop true) 10000] ∧ callsOn false front = monitorOnStart false () ∧
      ∃ start, .called (.start false (some ()) monitorIntervalMs monitorIntervalMs) start ∈ front ∧
        after start (2 * monitorIntervalMs) ≤ 10000 := by
  obtain ⟨h,reachable⟩ := rivalsTwice_reachable
  have history : rivalsTwice.events = (rivals.events ++ [.fired false 5000,.called (.stop true) 5000]) ++
      .fired false 10000 :: [.called (.stop true) 10000] := by decide
  have calls : callsOn false rivalsTwice.events = monitorOnStart false () ++ [] := by decide
  obtain ⟨onlyStart,start,made,beat⟩ := heartbeats_keep_interval rivalCode_lawful reachable List.nil_prefix calls history
  have once : (firedOf (rivals.events ++ [.fired false 5000,.called (.stop true) 5000])).count false = 1 := by decide
  rw [once] at beat
  exact ⟨_,_,reachable,history,onlyStart,start,made,beat⟩

/-! ### No beat is left out -/

section
variable {late : ℕ} {t : T}

theorem Prompt.before {events back : List (Event T C)} (prompt : Prompt late (events ++ back)) : Prompt late events := by
  intro front u time rest split
  exact prompt front u time (rest ++ back) (by rw [split]; simp)

/-- Until the next call on it, a timer that repeats always has a deadline, which falls behind by `late` with every firing
    at most. -/
theorem Prompt.schedule {front mid : List (Event T C)} (prompt : Prompt late (front ++ mid)) {first : ℕ}
    (deadline : (planOf t front).deadline = some first) (repeats : (planOf t front).repeat_ ≠ 0)
    (quiet : ∀ e ∈ mid, isCallOn t e = false) :
    (planOf t (front ++ mid)).repeat_ = (planOf t front).repeat_ ∧ ∃ d, (planOf t (front ++ mid)).deadline = some d ∧
      d ≤ first + (firedOf mid).count t * ((planOf t front).repeat_ + late) := by
  induction mid using List.reverseRecOn with
  | nil => exact ⟨by simp,first,by simpa using deadline,by simp⟩
  | append_singleton mid e ih =>
    rw [← List.append_assoc] at prompt ⊢
    obtain ⟨delay,d,isD,bound⟩ := ih (Prompt.before prompt) fun e' inside => quiet e' (List.mem_append_left _ inside)
    have last := quiet e (by simp)
    rw [planOf_snoc]
    cases e with
    | called call time =>
      have other : TimerCall.target call ≠ t := by simpa [isCallOn] using last
      rw [Plan.next,if_neg other,firedOf_append,firedOf_called,firedOf_nil,List.append_nil]
      exact ⟨delay,d,isD,bound⟩
    | fired u time =>
      by_cases isT : u = t
      · subst isT
        obtain ⟨d',isD',soon⟩ := prompt (front ++ mid) u time [] (by simp)
        obtain rfl : d = d' := Option.some.inj (isD.symm.trans isD')
        rw [Plan.next,if_pos rfl,Plan.fire,delay,if_neg repeats]
        refine ⟨rfl,_,rfl,?_⟩
        rw [firedOf_append,firedOf_fired,firedOf_nil,List.count_append,List.count_singleton_self,Nat.add_mul,Nat.one_mul]
        unfold after
        omega
      · rw [Plan.next,if_neg isT,firedOf_append,firedOf_fired,firedOf_nil,List.count_append,List.count_singleton,
          if_neg (by simpa using isT),Nat.add_zero]
        exact ⟨delay,d,isD,bound⟩

private theorem exists_of_mem_callsOn {events : List (Event T C)} {call : TimerCall T C} (made : call ∈ callsOn t events) :
    ∃ time, .called call time ∈ events := by
  obtain ⟨e,inside,isCall⟩ := List.mem_filterMap.mp made
  cases e with
  | fired u time => cases isCall
  | called call' time =>
    simp only at isCall
    split at isCall
    · rw [Option.some.inj isCall] at inside
      exact ⟨time,inside⟩
    · cases isCall

end

/-- As long as the monitor is not stopped, in every run the time is no further than the next beat is due and may be late:
    one more interval than there were beats, each stretched by the bounds. -/
theorem heartbeats_keep_pace (lawful : Lawful code) {slack busy time : ℕ} {timers : T → UvTimer C}
    {nodes : Node T → BinaryHeap.HeapNode (Node T)} (early : time < u64) (inactive : ∀ t, (timers t).active = false)
    {ls : List (Label T C)} {s : State T C} (run : Run (Step code slack busy) (initial timers nodes time busy) ls s)
    {timer : T} {monitorTimerCb : C} (calls : callsOn timer s.loop.events = monitorOnStart timer monitorTimerCb) :
    ∃ start, .called (.start timer (some monitorTimerCb) monitorIntervalMs monitorIntervalMs) start ∈ s.loop.events ∧
      s.loop.time ≤ start + ((firedOf s.loop.events).count timer + 1) * (monitorIntervalMs + (slack+2*busy)) := by
  have inv := inv_run lawful early inactive run
  have told := reachable_told lawful inv.reachable
  have isStart : callsOn timer s.loop.events = [.init timer] ++
      [.start timer (some monitorTimerCb) monitorIntervalMs monitorIntervalMs] := calls
  obtain ⟨before,start,mid,split,first,silent,_⟩ := last_call isStart
  have whole : s.loop.events = (before ++ [.called (.start timer (some monitorTimerCb) monitorIntervalMs monitorIntervalMs)
      start]) ++ mid := by simp [split]
  -- from its start on the timer has a deadline
  have open_ : (planOf timer before).closing = false := open_until_close (by simp [first])
  have started : planOf timer (before ++ [.called (.start timer (some monitorTimerCb) monitorIntervalMs monitorIntervalMs)
      start]) = { planOf timer before with
        callback := some monitorTimerCb, repeat_ := monitorIntervalMs, deadline := some (after start monitorIntervalMs) } := by
    simp [planOf_snoc,Plan.next,TimerCall.target,Plan.obey,open_]
  have prompt := inv.prompt
  rw [whole] at prompt
  obtain ⟨_,d,deadline,bound⟩ := Prompt.schedule prompt (congrArg Plan.deadline started)
    (by rw [started]; exact (by decide : monitorIntervalMs ≠ 0)) (silent_of_no_calls silent)
  rw [← whole] at deadline
  rw [started] at bound
  change d ≤ after start monitorIntervalMs + (firedOf mid).count timer * (monitorIntervalMs + (slack+2*busy)) at bound
  -- so it is active
  obtain ⟨opened,made⟩ := exists_of_mem_callsOn (calls ▸ (by simp [monitorOnStart]) :
    TimerCall.init timer ∈ callsOn timer s.loop.events)
  have known := reachable_held lawful inv.reachable timer opened made (open_until_close (by simp [calls,monitorOnStart]))
  rw [told.recorded timer known] at deadline
  have up : (s.loop.timers timer).active = true ∧ (s.loop.timers timer).timeout = d := by
    cases active : (s.loop.timers timer).active <;> simp [seen,active] at deadline
    exact ⟨rfl,deadline⟩
  have soon := inv.late up.1
  have asleep : timer ∉ firedOf before := by
    have punctual := told.punctual
    rw [split] at punctual
    exact (asleep_until_started punctual.prefix (quiet_of_calls (by simp [first,mayStart]))).2
  have beats : (firedOf s.loop.events).count timer = (firedOf mid).count timer := by
    rw [split,firedOf_append,firedOf_called,List.count_append,List.count_eq_zero.mpr asleep,Nat.zero_add]
  refine ⟨start,by simp [split],?_⟩
  have clamped : after start monitorIntervalMs ≤ start + monitorIntervalMs := Nat.min_le_left _ _
  rw [beats,Nat.add_mul,Nat.one_mul]
  omega

theorem heartbeats_keep_pace_one : ∃ s : State Unit Unit,
    s.loop.events = [.called (.init ()) 0,.called (.start () (some ()) 5000 5000) 0,.fired () 5048] ∧
      ∃ start, .called (.start () (some ()) monitorIntervalMs monitorIntervalMs) start ∈ s.loop.events ∧
        s.loop.time ≤ start + ((firedOf s.loop.events).count () + 1) * (monitorIntervalMs + (10+2*20)) := by
  obtain ⟨s,run,events⟩ := fiveSeconds_run
  have calls : callsOn () s.loop.events = monitorOnStart () () := by
    rw [events]
    rfl
  exact ⟨s,events,heartbeats_keep_pace quietCode_lawful (by decide) (fun _ => rfl) run calls⟩

end Armd.Heartbeat
