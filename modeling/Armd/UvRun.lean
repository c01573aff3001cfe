import Armd.Runs
import Armd.TimerHistory

/-!
`uv_run` with a clock. The timeout of a poll is reckoned from the time that the
loop has on record, and the poll itself runs from when the thread gets to it. So
how late a timer fires depends on two things outside the loop: by how much a poll
outlasts its timeout (`slack`), and how long the thread takes from a pass to the
poll and from the poll to the next pass (`busy`). No timer is ever overdue by more
than `slack` and twice `busy`, and none is overdue when a pass has ended
(`timers_fire_in_time`).
-/
namespace Armd.UvRun
open Armd.Programs Armd.Programs.Program Armd.Runs Armd.BinaryHeap Armd.Timers Armd.TimerBooks Armd.TimerRefinement
  Armd.TimerPass Armd.TimerRuns Armd.TimerHistory
variable {T C : Type} [DecidableEq T]

/-- Where the thread is: not in `uv_run`, before its first pass, at the head of its loop, after the poll, after the
    closing handles, and before the pass that ends an iteration. -/
inductive Phase
  | outside
  | entered
  | head
  | polled
  | closed
  | updated
  deriving DecidableEq

/-- The loop, its other active handles, the place of the thread, and the latest that the clock reads when the thread
    gets to the next poll or pass. -/
structure State (T C : Type) where
  loop : TimerLoop T C
  others : ℕ
  phase : Phase
  limit : ℕ

inductive Label (T C : Type)
  | call (call : TimerCall T C)
  | otherHandle (up : Bool)
  | enter (now : ℕ)
  | refuse (now : ℕ)
  | poll (start now : ℕ)
  | updateTime (now : ℕ)
  | closingHandles
  | update (now : ℕ)
  | runTimers

/-- The program runs outside `uv_run`, the callbacks that prepare a poll before it and all others behind it. -/
def Phase.runsCallbacks : Phase → Bool
  | .outside | .head | .polled => true
  | _ => false

/-- A reading of the clock before the next poll or pass. -/
def State.Reads (s : State T C) (now : ℕ) : Prop := s.loop.time ≤ now ∧ now < u64 ∧ now ≤ s.limit

/-- A poll from `start` to `now`, which was given the timeout that the loop has for the time on record. -/
def State.Polls (slack : ℕ) (s : State T C) (start now : ℕ) : Prop :=
  s.Reads start ∧ start ≤ now ∧ now < u64 ∧
    (0 ≤ uvBackendTimeout s.loop → (now : ℤ) ≤ start + uvBackendTimeout s.loop + slack)

inductive Step (code : C → T → Books T C → List (TimerCall T C)) (slack busy : ℕ) :
    State T C → Label T C → State T C → Prop
  | call {s call w} : s.phase.runsCallbacks = true → Allowed s.loop.toBooks call →
      takeStep code (.call call) s.loop = .done () w → Step code slack busy s (.call call) { s with loop := w }
  | otherHandle {s up w} : s.phase.runsCallbacks = true → (up = false → 0 < s.others) →
      takeStep code (.otherHandle up) s.loop = .done () w →
      Step code slack busy s (.otherHandle up) { s with loop := w, others := othersAfter s.others (.otherHandle up : LoopStep T C) }
  | enter {s now w} : s.phase = .outside → uvLoopAlive s.loop = true → s.Reads now →
      takeStep code (.updateTime now) s.loop = .done () w →
      Step code slack busy s (.enter now) { s with loop := w, phase := .entered }
  -- a loop that is not alive only has its time updated
  | refuse {s now w} : s.phase = .outside → uvLoopAlive s.loop = false → s.Reads now →
      takeStep code (.updateTime now) s.loop = .done () w → Step code slack busy s (.refuse now) { s with loop := w }
  | firstTimers {s w} : s.phase = .entered → takeStep code .runTimers s.loop = .done () w →
      Step code slack busy s .runTimers { s with loop := w, phase := .head, limit := w.time+busy }
  | poll {s start now w} : s.phase = .head → s.Polls slack start now → takeStep code (.updateTime now) s.loop = .done () w →
      Step code slack busy s (.poll start now) { s with loop := w, phase := .polled, limit := now+busy }
  | updateTime {s now w} : s.phase = .polled → s.Reads now → takeStep code (.updateTime now) s.loop = .done () w →
      Step code slack busy s (.updateTime now) { s with loop := w }
  | closingHandles {s w} : s.phase = .polled → takeStep code .runClosingHandles s.loop = .done () w →
      Step code slack busy s .closingHandles { s with loop := w, phase := .closed }
  | update {s now w} : s.phase = .closed → s.Reads now → takeStep code (.updateTime now) s.loop = .done () w →
      Step code slack busy s (.update now) { s with loop := w, phase := .updated }
  | timers {s w} : s.phase = .updated → takeStep code .runTimers s.loop = .done () w →
      Step code slack busy s .runTimers
        { s with loop := w, phase := if uvLoopAlive w then .head else .outside, limit := w.time+busy }

/-- A loop that was just set up. -/
def initial (timers : T → UvTimer C) (nodes : Node T → HeapNode (Node T)) (time busy : ℕ) : State T C where
  loop := uvLoopInit timers nodes time
  others := 0
  phase := .outside
  limit := time+busy

/-! ### What no call makes overdue -/

/-- No active timer is due by more than `late` before the time. -/
def Within (late time : ℕ) (b : Books T C) : Prop := ∀ t, (b.timers t).active = true → time ≤ (b.timers t).timeout + late

section
variable {others late time : ℕ} {b : Books T C} {q : List T}

private theorem le_after {time delay : ℕ} (early : time < u64) : time ≤ after time delay := by
  unfold after u64 at *
  omega

/-- What a call starts is due now or later. -/
private theorem within_act (within : Within late time b) (soon : time ≤ b.time + late) (sound : Sound others b q) (told : Told b q)
    {call : TimerCall T C} (allowed : Allowed b call) : Within late time (act b call) := by
  intro u up
  by_cases other : u = TimerCall.target call
  · cases call with
    | init t =>
      obtain rfl : u = t := other
      simp [act,Books.initTimer,Books.setTimer] at up
    | start t cb timeout repeat_ =>
      obtain rfl : u = t := other
      by_cases refused : (b.timers u).closing ∨ (b.timers u).closed ∨ cb.isNone
      · rw [act,startTimer,if_pos refused] at up ⊢
        exact within u up
      · obtain ⟨startId,started⟩ := startTimer_timers told.time allowed.2.1 refused repeat_
        rw [act,started,Function.update_self]
        exact soon.trans (Nat.add_le_add_right (le_after told.time) late)
    | stop t =>
      obtain rfl : u = t := other
      simp [act,Books.uvHandleStop] at up
    | again t =>
      obtain rfl : u = t := other
      by_cases idle : (b.timers u).timerCb.isNone = true ∨ (b.timers u).repeat_ = 0
      · rw [act,againTimer_idle idle] at up ⊢
        exact within u up
      · have callback : (b.timers u).timerCb ≠ none := fun none => idle (.inl (by rw [none]; rfl))
        obtain ⟨timeout,startId,again,isTime⟩ := againTimer_timers told.time (told.repeats u allowed) callback
          (fun once => idle (.inr once)) (sound.finished u allowed)
        rw [act,again,Function.update_self] at up ⊢
        rw [isTime (by simpa using up)]
        exact soon.trans (Nat.add_le_add_right (le_after told.time) late)
    | setRepeat t repeat_ =>
      obtain rfl : u = t := other
      simp only [act,Books.uvTimerSetRepeat,Books.setTimer,Function.update_self] at up ⊢
      exact within u up
    | ref t =>
      obtain rfl : u = t := other
      simp only [act,Books.uvHandleRef,changeRef_timers,Function.update_self] at up ⊢
      exact within u up
    | unref t =>
      obtain rfl : u = t := other
      simp only [act,Books.uvHandleUnref,changeRef_timers,Function.update_self] at up ⊢
      exact within u up
    | close t =>
      obtain rfl : u = t := other
      simp [act,closeTimer,Books.uvHandleStop,Books.setTimer] at up
  · rw [act_away call other] at up ⊢
    exact within u up

end

/-! ### A pass -/

/-- No timer has fired but within `late` of its deadline. -/
def Prompt (late : ℕ) (events : List (Event T C)) : Prop :=
  ∀ front t time back, events = front ++ .fired t time :: back →
    ∃ d, (planOf t front).deadline = some d ∧ time ≤ d + late

/-- The timers that wait in a pass are due by no more than `late`, and none that is active is overdue. -/
structure OnTime (late : ℕ) (b : Books T C) (q : List T) : Prop where
  ahead : Within 0 b.time b
  waiting : ∀ t ∈ q, b.time ≤ (b.timers t).timeout + late
  prompt : Prompt late b.events

section
variable {others late : ℕ} {b : Books T C} {q : List T}

theorem Prompt.snoc {events : List (Event T C)} (prompt : Prompt late events) {e : Event T C}
    (last : ∀ t time, e = .fired t time → ∃ d, (planOf t events).deadline = some d ∧ time ≤ d + late) :
    Prompt late (events ++ [e]) := by
  intro front t time back split
  rcases List.eq_nil_or_concat back with rfl | ⟨back',e',rfl⟩
  · obtain ⟨rfl,isFired⟩ := List.append_inj' split rfl
    exact last t time (List.singleton_inj.mp isFired)
  · rw [List.concat_eq_append,← List.cons_append,← List.append_assoc] at split
    exact prompt front t time back' (List.append_inj' split rfl).1

theorem Prompt.called {events : List (Event T C)} (prompt : Prompt late events) (call : TimerCall T C) (time : ℕ) :
    Prompt late (events ++ [.called call time]) :=
  prompt.snoc nofun

private theorem onTime_turn (sound : Sound others b q) (told : Told b q) (onTime : OnTime late b q) {call : TimerCall T C}
    (allowed : Allowed b call) : OnTime late (turn (b,q) call).1 (turn (b,q) call).2 where
  ahead := by
    show Within 0 (act b call).time (act b call)
    rw [act_time]
    exact within_act onTime.ahead le_rfl sound told allowed
  waiting := by
    intro u inside
    show (act b call).time ≤ ((act b call).timers u).timeout + late
    obtain ⟨before,same⟩ := act_waiting sound allowed inside
    rw [act_time,same]
    exact onTime.waiting u before
  prompt := by
    show Prompt late ((act b call).events ++ [_])
    rw [act_events]
    exact onTime.prompt.called call _

/-- The timer at the head of the queue fires by its deadline and `late`, and is due again after its repeat. -/
private theorem onTime_fired {t : T} (sound : Sound others b (t :: q)) (told : Told b (t :: q)) (onTime : OnTime late b (t :: q)) :
    OnTime late ((againTimer b t).note (.fired t (againTimer b t).time)) q := by
  obtain ⟨member,idle⟩ := sound.waiting t (by simp)
  have fresh : t ∉ q := (List.nodup_cons.mp sound.distinct).1
  have same := sameBooks_againTimer b t
  refine ⟨?_,fun u inside => ?_,?_⟩
  · show Within 0 (againTimer b t).time (againTimer b t)
    rw [same.time]
    exact within_act onTime.ahead le_rfl sound told (show Allowed b (.again t) from member)
  · show (againTimer b t).time ≤ ((againTimer b t).timers u).timeout + late
    have other : u ≠ t := fun isT => fresh (isT ▸ inside)
    rw [same.time,show (againTimer b t).timers u = b.timers u from act_away (.again t) other]
    exact onTime.waiting u (List.mem_cons_of_mem t inside)
  · show Prompt late ((againTimer b t).events ++ [.fired t (againTimer b t).time])
    rw [same.events,same.time]
    refine onTime.prompt.snoc fun u time isFired => ?_
    cases isFired
    refine ⟨(b.timers t).timeout,?_,onTime.waiting t (by simp)⟩
    rw [told.recorded t member]
    simp [seen]

variable {code : C → T → Books T C → List (TimerCall T C)}

private theorem onTime_fireList (lawful : Lawful code) (n : ℕ) (sound : Sound others b q) (told : Told b q)
    (onTime : OnTime late b q) (short : q.length ≤ n) : OnTime late (fireList code n b q) [] :=
  (fireList_invariant lawful (fun b q => Told b q ∧ OnTime late b q)
    (fun _ _ _ sound both allowed => ⟨told_turn sound both.1 allowed,onTime_turn sound both.1 both.2 allowed⟩)
    (fun _ _ _ sound both => ⟨told_fired sound both.1,onTime_fired sound both.1 both.2⟩) n sound ⟨told,onTime⟩ short).2

/-- Once the timers that are due wait on the queue, none that is active is due. -/
private theorem onTime_stopAll {due : List T} (within : Within late b.time b) (prompt : Prompt late b.events) (list : DueList b due) :
    OnTime late (stopAll b due) due := by
  have same := sameBooks_stopAll b due
  have timeout : ∀ u, ((stopAll b due).timers u).timeout = (b.timers u).timeout := fun u => by
    rw [stopAll_timers]
    split <;> rfl
  refine ⟨fun u up => ?_,fun u inside => ?_,same.events.symm ▸ prompt⟩
  · obtain ⟨up,outside⟩ := (stopAll_active b due u).mp up
    have notDue : ¬ (b.timers u).timeout ≤ b.time := fun reached => outside ((list.mem u).mpr ⟨up,reached⟩)
    rw [same.time,timeout]
    omega
  · rw [same.time,timeout]
    exact within u ((list.mem u).mp inside).1

end

/-! ### Runs -/

section
variable {code : C → T → Books T C → List (TimerCall T C)} {slack busy : ℕ} {s s' : State T C} {l : Label T C}

/-- How late a timer may be at each place. -/
def InTime (slack busy : ℕ) (s : State T C) : Prop :=
  match s.phase with
  | .entered | .updated => Within (slack+2*busy) s.loop.time s.loop.toBooks
  | .head => s.limit = s.loop.time + busy ∧ Within 0 s.loop.time s.loop.toBooks
  | .outside | .polled | .closed =>
    s.loop.time ≤ s.limit ∧ s.limit ≤ s.loop.time + busy ∧ Within (slack+2*busy) s.limit s.loop.toBooks

structure Inv (code : C → T → Books T C → List (TimerCall T C)) (slack busy : ℕ) (s : State T C) : Prop where
  reachable : Reachable code s.others s.loop
  prompt : Prompt (slack+2*busy) s.loop.events
  inTime : InTime slack busy s

omit [DecidableEq T] in
/-- The loop polls for no longer than until any of its timers is due. -/
private theorem uvNextTimeout_le {others : ℕ} {w : TimerLoop T C} (good : Good others w none) {t : T}
    (up : (w.timers t).active = true) : ∃ r : ℕ, uvNextTimeout w = r ∧ r ≤ (w.timers t).timeout - w.time := by
  have first := good.first
  cases root : heapMin w.timerHeap with
  | none =>
    rw [root] at first
    have idle := first t
    rw [up] at idle
    cases idle
  | some x =>
    rw [root] at first
    cases x with
    | readyQueue => exact first.elim
    | timer u =>
      have earlier : (w.timers u).timeout ≤ (w.timers t).timeout := timeout_le_of_order (first.2 t up)
      have due := uvTimerGetDueIn_eq w.toBooks u
      exact ⟨_,uvNextTimeout_eq root,by omega⟩

omit [DecidableEq T] in
private theorem within_polled {others start now : ℕ} {w : TimerLoop T C} (good : Good others w none)
    (ahead : Within 0 w.time w.toBooks) (soon : start ≤ w.time + busy)
    (polls : 0 ≤ uvBackendTimeout w → (now : ℤ) ≤ start + uvBackendTimeout w + slack) :
    Within (slack+busy) now w.toBooks := by
  intro t up
  have notYet := ahead t up
  obtain ⟨r,isNext,short⟩ := uvNextTimeout_le good up
  rw [uvBackendTimeout] at polls
  split at polls
  · rw [isNext] at polls
    omega
  · omega

/-- A pass leaves no timer overdue. -/
private theorem pass_inTime (lawful : Lawful code) (inv : Inv code slack busy s)
    (within : Within (slack+2*busy) s.loop.time s.loop.toBooks) {w : TimerLoop T C}
    (ran : takeStep code .runTimers s.loop = .done () w) :
    Prompt (slack+2*busy) w.events ∧ Within 0 w.time w.toBooks := by
  obtain ⟨due,h,list,sound,run,_⟩ := uvRunTimers_good lawful (inv.reachable.good lawful) (Nat.lt_succ_self s.loop.timerHeap.nelts)
  simp only [takeStep,bind_run,get_run,Outcome.andThen_done,run] at ran
  cases ran
  have told := told_stopAll (reachable_told lawful inv.reachable) list
  have onTime := onTime_fireList lawful due.length sound told (onTime_stopAll within inv.prompt list) le_rfl
  exact ⟨onTime.prompt,onTime.ahead⟩

omit [DecidableEq T] in
/-- The callbacks of a place leave every timer in time there. -/
private theorem inTime_callbacks (inTime : InTime slack busy s) (runs : s.phase.runsCallbacks = true) {w : TimerLoop T C}
    {others : ℕ} (time : w.time = s.loop.time)
    (within : ∀ late bound, bound ≤ s.loop.time + late → Within late bound s.loop.toBooks → Within late bound w.toBooks) :
    InTime slack busy { s with loop := w, others := others } := by
  cases phase : s.phase with
  | outside | polled =>
    simp only [InTime,phase,time] at inTime ⊢
    obtain ⟨reached,soon,all⟩ := inTime
    exact ⟨reached,soon,within _ _ (by omega) all⟩
  | head =>
    simp only [InTime,phase,time] at inTime ⊢
    exact ⟨inTime.1,within _ _ le_rfl inTime.2⟩
  | entered | closed | updated =>
    rw [phase] at runs
    cases runs

omit [DecidableEq T] in
/-- What the clock reads before a pass is within the bounds. -/
private theorem inTime_reads {now : ℕ} (inTime : InTime slack busy s) (reads : s.Reads now)
    (place : s.phase = .outside ∨ s.phase = .polled ∨ s.phase = .closed) :
    now ≤ s.limit ∧ s.limit ≤ now + busy ∧ Within (slack+2*busy) s.limit s.loop.toBooks := by
  obtain ⟨later,_,soon⟩ := reads
  have bounds : s.limit ≤ s.loop.time + busy ∧ Within (slack+2*busy) s.limit s.loop.toBooks := by
    rcases place with here | here | here
    all_goals
      rw [InTime,here] at inTime
      exact inTime.2
  exact ⟨soon,by omega,bounds.2⟩

theorem inv_initial {timers : T → UvTimer C} {nodes : Node T → HeapNode (Node T)} {time : ℕ} (early : time < u64)
    (inactive : ∀ t, (timers t).active = false) : Inv code slack busy (initial timers nodes time busy) where
  reachable := .start timers nodes time early inactive
  prompt := fun front t time back split => by simp [initial,uvLoopInit] at split
  inTime := by
    refine ⟨Nat.le_add_right time busy,le_rfl,fun t up => ?_⟩
    rw [show ((initial timers nodes time busy).loop.timers t).active = false from inactive t] at up
    cases up

theorem inv_step (lawful : Lawful code) (inv : Inv code slack busy s) (fires : Step code slack busy s l s') :
    Inv code slack busy s' := by
  have good := inv.reachable.good lawful
  have told := reachable_told lawful inv.reachable
  have inTime := inv.inTime
  cases fires with
  | @call call w runs allowed ran =>
    refine ⟨inv.reachable.step (.call call) allowed ran,?_,?_⟩
    all_goals
      obtain ⟨h,made,_⟩ := performAll_good [call] s.loop none good ⟨allowed,trivial⟩
      rw [takeStep,made] at ran
      cases ran
    · show Prompt (slack+2*busy) ((act s.loop.toBooks call).events ++ [_])
      rw [act_events]
      exact inv.prompt.called call _
    · exact inTime_callbacks inTime runs (act_time s.loop.toBooks call) fun late bound soon within =>
        within_act within soon good.sound told allowed
  | @otherHandle up w runs some ran =>
    refine ⟨inv.reachable.step (.otherHandle up) some ran,?_,?_⟩
    all_goals cases ran
    · exact inv.prompt
    · exact inTime_callbacks inTime runs rfl fun _ _ _ within => within
  | @enter now w outside alive reads ran =>
    refine ⟨inv.reachable.step (.updateTime now) ⟨reads.1,reads.2.1⟩ ran,?_,?_⟩
    all_goals cases ran
    · exact inv.prompt
    · obtain ⟨soon,_,within⟩ := inTime_reads inTime reads (.inl outside)
      exact fun t up => soon.trans (within t up)
  | @refuse now w outside dead reads ran =>
    refine ⟨inv.reachable.step (.updateTime now) ⟨reads.1,reads.2.1⟩ ran,?_,?_⟩
    all_goals cases ran
    · exact inv.prompt
    · have bounds := inTime_reads inTime reads (.inl outside)
      simp only [InTime,outside]
      exact bounds
  | @firstTimers w entered ran =>
    rw [InTime,entered] at inTime
    obtain ⟨prompt,ahead⟩ := pass_inTime lawful inv inTime ran
    exact ⟨inv.reachable.step .runTimers trivial ran,prompt,rfl,ahead⟩
  | @poll start now w head polls ran =>
    obtain ⟨⟨later,_,before⟩,onward,early,bounded⟩ := polls
    refine ⟨inv.reachable.step (.updateTime now) ⟨later.trans onward,early⟩ ran,?_,?_⟩
    all_goals cases ran
    · exact inv.prompt
    · rw [InTime,head] at inTime
      obtain ⟨limit,ahead⟩ := inTime
      have within := within_polled good ahead (limit ▸ before) bounded
      refine ⟨Nat.le_add_right now busy,le_rfl,fun t up => ?_⟩
      have bound := within t up
      show now + busy ≤ (s.loop.timers t).timeout + (slack+2*busy)
      omega
  | @updateTime now w polled reads ran =>
    refine ⟨inv.reachable.step (.updateTime now) ⟨reads.1,reads.2.1⟩ ran,?_,?_⟩
    all_goals cases ran
    · exact inv.prompt
    · have bounds := inTime_reads inTime reads (.inr (.inl polled))
      simp only [InTime,polled]
      exact bounds
  | @closingHandles w polled ran =>
    refine ⟨inv.reachable.step .runClosingHandles trivial ran,?_,?_⟩
    all_goals
      obtain ⟨b,closed,good',_,finished⟩ := uvRunClosingHandles_good good
      rw [takeStep,closed] at ran
      cases ran
    · rw [finished.events]
      exact inv.prompt
    · rw [InTime,polled] at inTime
      obtain ⟨reached,soon,within⟩ := inTime
      refine ⟨finished.time ▸ reached,finished.time ▸ soon,fun t up => ?_⟩
      -- an active timer was not among those that closed
      have same : b.timers t = s.loop.timers t :=
        finished.timers t fun closing => finished.gone t closing (good'.sound.known t up)
      rw [same] at up ⊢
      exact within t up
  | @update now w closed reads ran =>
    refine ⟨inv.reachable.step (.updateTime now) ⟨reads.1,reads.2.1⟩ ran,?_,?_⟩
    all_goals cases ran
    · exact inv.prompt
    · obtain ⟨soon,_,within⟩ := inTime_reads inTime reads (.inr (.inr closed))
      exact fun t up => soon.trans (within t up)
  | @timers w updated ran =>
    rw [InTime,updated] at inTime
    obtain ⟨prompt,ahead⟩ := pass_inTime lawful inv inTime ran
    refine ⟨inv.reachable.step .runTimers trivial ran,prompt,?_⟩
    cases alive : uvLoopAlive w with
    | true =>
      exact ⟨rfl,ahead⟩
    | false =>
      simp only [InTime,Bool.false_eq_true,if_false]
      refine ⟨Nat.le_add_right w.time busy,le_rfl,fun t up => ?_⟩
      have bound := ahead t up
      omega

/-- Every run of `uv_run` keeps its timers in time. -/
theorem inv_run (lawful : Lawful code) {timers : T → UvTimer C} {nodes : Node T → HeapNode (Node T)} {time : ℕ}
    (early : time < u64) (inactive : ∀ t, (timers t).active = false) {ls : List (Label T C)}
    (run : Run (Step code slack busy) (initial timers nodes time busy) ls s) : Inv code slack busy s :=
  run.invariant (Inv code slack busy) (inv_initial early inactive) fun _ _ _ inv step => inv_step lawful inv step

theorem Inv.late (inv : Inv code slack busy s) {t : T} (up : (s.loop.timers t).active = true) :
    s.loop.time ≤ (s.loop.timers t).timeout + (slack+2*busy) := by
  have inTime := inv.inTime
  cases phase : s.phase with
  | entered | updated =>
    rw [InTime,phase] at inTime
    exact inTime t up
  | head =>
    rw [InTime,phase] at inTime
    have ahead := inTime.2 t up
    omega
  | outside | polled | closed =>
    rw [InTime,phase] at inTime
    exact inTime.1.trans (inTime.2.2 t up)

/-- Whatever the program and its callbacks do, in every run by the time on record each timer has fired by its deadline and
    the bounds, none is overdue by more than these at any time, and from a pass to the poll none is overdue. -/
theorem timers_fire_in_time (lawful : Lawful code) {timers : T → UvTimer C} {nodes : Node T → HeapNode (Node T)} {time : ℕ}
    (early : time < u64) (inactive : ∀ t, (timers t).active = false) {ls : List (Label T C)}
    (run : Run (Step code slack busy) (initial timers nodes time busy) ls s) :
    Prompt (slack+2*busy) s.loop.events ∧
      (∀ t, (s.loop.timers t).active = true → s.loop.time ≤ (s.loop.timers t).timeout + (slack+2*busy)) ∧
      (s.phase = .head → ∀ t, (s.loop.timers t).active = true → s.loop.time ≤ (s.loop.timers t).timeout) := by
  have inv := inv_run lawful early inactive run
  refine ⟨inv.prompt,fun t up => inv.late up,fun head => ?_⟩
  have inTime := inv.inTime
  rw [InTime,head] at inTime
  exact inTime.2

theorem Inv.called (lawful : Lawful code) (inv : Inv code slack busy s) (runs : s.phase.runsCallbacks = true)
    {call : TimerCall T C} (allowed : Allowed s.loop.toBooks call) {b : Books T C}
    (books : (turn (s.loop.toBooks,[]) call).1 = b) : ∃ h, Step code slack busy s (.call call) { s with loop := ⟨b,h⟩ } := by
  obtain ⟨h,made,_⟩ := performAll_good [call] s.loop none (inv.reachable.good lawful) ⟨allowed,trivial⟩
  exact ⟨h,books ▸ .call runs allowed made⟩

theorem Inv.passed (lawful : Lawful code) (inv : Inv code slack busy s) : ∃ due h, DueList s.loop.toBooks due ∧
    takeStep code .runTimers s.loop = .done () ⟨fireList code due.length (stopAll s.loop.toBooks due) due,h⟩ := by
  obtain ⟨due,h,list,_,run,_⟩ := uvRunTimers_good lawful (inv.reachable.good lawful) (Nat.lt_succ_self s.loop.timerHeap.nelts)
  exact ⟨due,h,list,run⟩

end

private theorem uvNextTimeout_single {others : ℕ} {w : TimerLoop Unit Unit} (good : Good others w none)
    (up : (w.timers ()).active = true) : uvNextTimeout w = (min intMax (uvTimerGetDueIn w.toBooks ()) : ℕ) := by
  have first := good.first
  cases root : heapMin w.timerHeap with
  | none =>
    rw [root] at first
    have idle := first ()
    rw [up] at idle
    cases idle
  | some x =>
    cases x with
    | readyQueue =>
      rw [root] at first
      exact first.elim
    | timer t => exact uvNextTimeout_eq root

/-- Callbacks that make no calls. -/
def quietCode : Unit → Unit → Books Unit Unit → List (TimerCall Unit Unit) := fun _ _ _ => []

theorem quietCode_lawful : Lawful quietCode := fun _ _ _ _ _ _ _ => trivial

/-- The books of a loop with one timer of five seconds. -/
def fiveSeconds (time : ℕ) : Books Unit Unit where
  timers := fun _ => ⟨some (),5000,5000,0,true,true,false,false⟩
  handleQueue := [()]
  closingHandles := []
  time := time
  timerCounter := 1
  activeHandles := 1
  events := [.called (.init ()) 0,.called (.start () (some ()) 5000 5000) 0]

/-- The poll begins eighteen milliseconds after the pass and outlasts its timeout by ten, and the next pass comes twenty
    milliseconds after it. -/
theorem fiveSeconds_run : ∃ s : State Unit Unit,
    Run (Step quietCode 10 20) (initial (fun _ => ⟨none,0,0,0,false,false,false,false⟩) (fun _ => ⟨none,none,none⟩) 0 20)
      [.call (.init ()),.call (.start () (some ()) 5000 5000),.enter 0,.runTimers,.poll 18 5028,.closingHandles,.update 5048,
        .runTimers] s ∧
      s.loop.events = [.called (.init ()) 0,.called (.start () (some ()) 5000 5000) 0,.fired () 5048] := by
  have inv₀ : Inv quietCode 10 20 (initial (fun _ : Unit => ⟨none,0,0,0,false,false,false,false⟩) (fun _ => ⟨none,none,none⟩) 0 20) :=
    inv_initial (by decide) fun _ => rfl
  obtain ⟨h₁,init⟩ := inv₀.called quietCode_lawful rfl (show Allowed _ (.init ()) from ⟨by decide,by decide⟩) rfl
  have inv₁ := inv_step quietCode_lawful inv₀ init
  obtain ⟨h₂,started⟩ := inv₁.called quietCode_lawful rfl
    (show Allowed _ (.start () (some ()) 5000 5000) from ⟨List.mem_singleton.mpr rfl,by decide,by decide⟩)
    (show _ = fiveSeconds 0 by
      simp [turn,act,initial,uvLoopInit,startTimer,Books.initTimer,Books.setTimer,Books.note,Books.uvHandleStart,
        Books.uvHandleStop,Books.changeActive,Books.armTimer,Books.countHandle,u64,fiveSeconds]
      rfl)
  have inv₂ : Inv quietCode 10 20 ⟨⟨fiveSeconds 0,h₂⟩,0,.outside,20⟩ := inv_step quietCode_lawful inv₁ started
  have enter : Step quietCode 10 20 ⟨⟨fiveSeconds 0,h₂⟩,0,.outside,20⟩ (.enter 0) ⟨⟨fiveSeconds 0,h₂⟩,0,.entered,20⟩ :=
    .enter rfl rfl ⟨le_rfl,by decide,Nat.zero_le 20⟩ rfl
  have inv₃ := inv_step quietCode_lawful inv₂ enter
  -- nothing is due at first
  obtain ⟨due,h₃,list,ran⟩ := inv₃.passed quietCode_lawful
  obtain rfl : due = [] := List.eq_nil_iff_forall_not_mem.mpr fun t inside =>
    absurd ((list.mem t).mp inside).2 (show ¬ 5000 ≤ 0 by decide)
  have passed : Step quietCode 10 20 ⟨⟨fiveSeconds 0,h₂⟩,0,.entered,20⟩ .runTimers ⟨⟨fiveSeconds 0,h₃⟩,0,.head,20⟩ :=
    .firstTimers rfl ran
  have inv₄ := inv_step quietCode_lawful inv₃ passed
  have timeout : uvBackendTimeout (⟨fiveSeconds 0,h₃⟩ : TimerLoop Unit Unit) = 5000 :=
    uvNextTimeout_single (inv₄.reachable.good quietCode_lawful) rfl
  have polled : Step quietCode 10 20 ⟨⟨fiveSeconds 0,h₃⟩,0,.head,20⟩ (.poll 18 5028)
      ⟨⟨fiveSeconds 5028,h₃⟩,0,.polled,5048⟩ :=
    .poll rfl ⟨⟨Nat.zero_le 18,by decide,(by decide : 18 ≤ 20)⟩,by decide,by decide,fun _ =>
      timeout ▸ (by decide : ((5028 : ℕ) : ℤ) ≤ ((18 : ℕ) : ℤ) + 5000 + ((10 : ℕ) : ℤ))⟩ rfl
  have closed : Step quietCode 10 20 ⟨⟨fiveSeconds 5028,h₃⟩,0,.polled,5048⟩ .closingHandles
      ⟨⟨fiveSeconds 5028,h₃⟩,0,.closed,5048⟩ := .closingHandles rfl rfl
  have updated : Step quietCode 10 20 ⟨⟨fiveSeconds 5028,h₃⟩,0,.closed,5048⟩ (.update 5048)
      ⟨⟨fiveSeconds 5048,h₃⟩,0,.updated,5048⟩ :=
    .update rfl ⟨(by decide : 5028 ≤ 5048),by decide,le_rfl⟩ rfl
  have inv₇ := inv_step quietCode_lawful (inv_step quietCode_lawful (inv_step quietCode_lawful inv₄ polled) closed) updated
  obtain ⟨due,h₈,list,ran⟩ := inv₇.passed quietCode_lawful
  have only : ∀ t, t ∈ due ↔ t ∈ [()] := fun t => (list.mem t).trans
    ⟨fun _ => List.mem_singleton.mpr rfl,fun _ => ⟨rfl,(by decide : 5000 ≤ 5048)⟩⟩
  obtain rfl := List.perm_singleton.mp ((List.perm_ext_iff_of_nodup list.nodup (List.nodup_singleton ())).mpr only)
  have run := (((((((Run.single init).snoc started).snoc enter).snoc passed).snoc polled).snoc closed).snoc updated).snoc
    (.timers rfl ran)
  refine ⟨_,run,?_⟩
  simp [fireList,fireOne,stopAll,againTimer,startTimer,Books.note,Books.uvHandleStart,Books.uvHandleStop,Books.changeActive,
    Books.armTimer,Books.setTimer,Books.countHandle,quietCode,fiveSeconds]

theorem timers_fire_in_time_one : ∃ s : State Unit Unit,
    s.loop.events = [.called (.init ()) 0,.called (.start () (some ()) 5000 5000) 0,.fired () 5048] ∧
      Prompt (10+2*20) s.loop.events ∧
      (∀ t, (s.loop.timers t).active = true → s.loop.time ≤ (s.loop.timers t).timeout + (10+2*20)) ∧
      (s.phase = .head → ∀ t, (s.loop.timers t).active = true → s.loop.time ≤ (s.loop.timers t).timeout) := by
  obtain ⟨s,run,events⟩ := fiveSeconds_run
  exact ⟨s,events,timers_fire_in_time quietCode_lawful (by decide) (fun _ => rfl) run⟩

end Armd.UvRun
