import Armd.TimerPass

/-!
Whole runs of a loop with timers. A loop starts as `uv_loop_init` leaves it,
where no timer's memory is marked active, and then takes the steps of `uv_run` and of the program
around it in any order: its time advances, timers are run, closing handles are
finished, other handles start and stop, and the program makes the calls it is
allowed (`Reachable`). No such step fails, and the loop stays in good order
(`Reachable.good`).
-/
namespace Armd.TimerRuns
open Armd.Programs Armd.Programs.Program Armd.LinkedRings Armd.BinaryHeap Armd.HeapOperations Armd.UvQueue Armd.Timers
  Armd.TimerBooks Armd.TimerRefinement Armd.TimerPass
variable {T C : Type} [DecidableEq T]

inductive LoopStep (T C : Type)
  | call (call : TimerCall T C)
  | updateTime (now : ℕ)
  | runTimers
  | runClosingHandles
  | otherHandle (up : Bool)

def takeStep (code : C → T → Books T C → List (TimerCall T C)) : LoopStep T C → Program (TimerLoop T C) Unit
  | .call call => Timers.performAll [call]
  | .updateTime now => onBooks fun b => { b with time := now }
  | .runTimers => do
    let w ← get
    uvRunTimers code (w.timerHeap.nelts+1)
  | .runClosingHandles => uvRunClosingHandles
  | .otherHandle up => onBooks (·.countHandle up)

/-- What the program and its clock keep to, with the number of active handles that are no timers. -/
def Permitted (others : ℕ) (b : Books T C) : LoopStep T C → Prop
  | .call call => Allowed b call
  | .updateTime now => b.time ≤ now ∧ now < u64
  | .otherHandle up => up = false → 0 < others
  | _ => True

def othersAfter (others : ℕ) : LoopStep T C → ℕ
  | .otherHandle up => if up then others+1 else others-1
  | _ => others

/-- The loops that a program can come to, with the number of other handles that are active. -/
inductive Reachable (code : C → T → Books T C → List (TimerCall T C)) : ℕ → TimerLoop T C → Prop
  | start (timers : T → UvTimer C) (nodes : Node T → HeapNode (Node T)) (time : ℕ) (early : time < u64)
      (inactive : ∀ t, (timers t).active = false) : Reachable code 0 (uvLoopInit timers nodes time)
  | step {others : ℕ} {w w' : TimerLoop T C} (before : Reachable code others w) (step : LoopStep T C)
      (permitted : Permitted others w.toBooks step) (run : takeStep code step w = .done () w') :
      Reachable code (othersAfter others step) w'

/-! ### Closing -/

/-- What finishing a closing handle does to the books. -/
def finishTimer (b : Books T C) (t : T) : Books T C :=
  let b := (b.setTimer t { b.timers t with closed := true }).uvHandleUnref t
  { b with handleQueue := b.handleQueue.erase t }

section
variable {others : ℕ} {b : Books T C} {t : T} {rest : List T}

private theorem finishTimer_timers (b : Books T C) (t : T) : (finishTimer b t).timers =
    Function.update b.timers t { b.timers t with closed := true, ref := false } := by
  simp [finishTimer,Books.uvHandleUnref,Books.setTimer]

private theorem finishTimer_handleQueue (b : Books T C) (t : T) : (finishTimer b t).handleQueue = b.handleQueue.erase t := by
  simp only [finishTimer,Books.uvHandleUnref,(sameBooks_changeRef _ t false).handleQueue]
  rfl

/-- A closing handle is not counted, so that finishing it leaves the count. -/
private theorem finishTimer_activeHandles (closing : (b.timers t).closing = true) :
    (finishTimer b t).activeHandles = b.activeHandles := by
  cases kept : (b.timers t).ref <;>
    simp [finishTimer,Books.uvHandleUnref,Books.changeRef,Books.setTimer,closing,kept]

/-- Finishing the first of the closing handles. -/
private theorem sound_finish (sound : Sound others { b with closingHandles := t :: rest } []) :
    Sound others { finishTimer b t with closingHandles := rest } [] := by
  have closing : (b.timers t).closing = true := ((sound.pending t).mp (by simp)).2
  have idle : (b.timers t).active = false := by
    cases up : (b.timers t).active with
    | false => rfl
    | true =>
      have open_ := (sound.live t (.inl up)).2.1
      rw [closing] at open_
      cases open_
  have away : ∀ u, u ≠ t → (finishTimer b t).timers u = b.timers u := fun u other => by
    rw [finishTimer_timers,Function.update_of_ne other]
  have here : ((finishTimer b t).timers t).active = false := by rw [finishTimer_timers,Function.update_self]; exact idle
  have queue := finishTimer_handleQueue b t
  have notT : ∀ u ∈ b.handleQueue.erase t, u ≠ t := fun u inside same =>
    (sound.nodup.not_mem_erase : t ∉ b.handleQueue.erase t) (same ▸ inside)
  constructor
  · show (finishTimer b t).handleQueue.Nodup
    rw [queue]
    exact sound.nodup.erase t
  · show (finishTimer b t).handleQueue.length+1 < uintMax
    have room : b.handleQueue.length+1 < uintMax := sound.room
    have shorter : (b.handleQueue.erase t).length ≤ b.handleQueue.length := List.length_erase_le
    rw [queue]
    omega
  · intro u up
    show u ∈ (finishTimer b t).handleQueue
    have other : u ≠ t := by
      rintro rfl
      exact absurd (here.symm.trans up) (by simp)
    rw [queue,List.mem_erase_of_ne other]
    exact sound.known u (by rw [← away u other]; exact up)
  · rintro u (up | waits)
    · have other : u ≠ t := by
        rintro rfl
        exact absurd (here.symm.trans up) (by simp)
      show ((finishTimer b t).timers u).timerCb ≠ none ∧ _
      simp only [away u other] at up ⊢
      exact sound.live u (.inl up)
    · cases waits
  · exact List.nodup_nil
  · exact nofun
  · show (finishTimer b t).activeHandles = others + (finishTimer b t).handleQueue.countP fun u =>
      ((finishTimer b t).timers u).active && ((finishTimer b t).timers u).ref
    have counted : b.activeHandles = others + b.handleQueue.countP fun u => (b.timers u).active && (b.timers u).ref :=
      sound.counted
    have others_ : (b.handleQueue.erase t).countP (fun u => ((finishTimer b t).timers u).active &&
        ((finishTimer b t).timers u).ref) = (b.handleQueue.erase t).countP fun u => (b.timers u).active && (b.timers u).ref :=
      List.countP_congr fun u inside => by rw [away u (notT u inside)]
    rw [finishTimer_activeHandles closing,queue,counted]
    simp only [others_,List.countP_erase]
    simp [idle]
  · intro u
    show u ∈ rest ↔ u ∈ (finishTimer b t).handleQueue ∧ ((finishTimer b t).timers u).closing = true
    rw [queue]
    by_cases same : u = t
    · subst same
      have notRest : u ∉ rest := (List.nodup_cons.mp sound.once).1
      simp [notRest,(sound.nodup.not_mem_erase : u ∉ b.handleQueue.erase u)]
    · have before : u ∈ t :: rest ↔ u ∈ b.handleQueue ∧ (b.timers u).closing = true := sound.pending u
      rw [List.mem_erase_of_ne same,away u same,← before]
      simp [same]
  · exact (List.nodup_cons.mp sound.once).2
  · intro u inside
    have inside' : u ∈ b.handleQueue.erase t := queue ▸ inside
    show ((finishTimer b t).timers u).closed = false
    rw [away u (notT u inside')]
    exact sound.finished u (List.mem_of_mem_erase inside')

private theorem uvFinishClose_run {h : HeapState (Node T)} (closing : (b.timers t).closing = true)
    (unfinished : (b.timers t).closed = false) : uvFinishClose t ⟨b,h⟩ = .done () ⟨finishTimer b t,h⟩ := by
  simp [uvFinishClose,closing,unfinished,onBooks,finishTimer]

private theorem good_finish {h : HeapState (Node T)} (good : Good others ⟨{ b with closingHandles := t :: rest },h⟩ none) :
    uvFinishClose t ⟨b,h⟩ = .done () ⟨finishTimer b t,h⟩ ∧
      Good others ⟨{ finishTimer b t with closingHandles := rest },h⟩ none := by
  have sound : Sound others { b with closingHandles := t :: rest } [] := good.sound
  have inside : t ∈ b.handleQueue ∧ (b.timers t).closing = true := (sound.pending t).mp (by simp)
  have same : ∀ u, ((finishTimer b t).timers u).active = (b.timers u).active ∧
      ((finishTimer b t).timers u).timeout = (b.timers u).timeout ∧
      ((finishTimer b t).timers u).startId = (b.timers u).startId := by
    rw [finishTimer_timers]
    exact same_update (by rfl) (by rfl) (by rfl)
  have idle : (b.timers t).active = false := by
    cases up : (b.timers t).active with
    | false => rfl
    | true =>
      have open_ : (b.timers t).closing = false := (sound.live t (.inl up)).2.1
      rw [inside.2] at open_
      cases open_
  have queue := finishTimer_handleQueue b t
  refine ⟨uvFinishClose_run inside.2 (sound.finished t inside.1),sound_finish sound,?_,?_,?_,nofun⟩
  · have active : ActiveNodes (finishTimer b t).timers = ActiveNodes b.timers := by
      ext x
      simp only [ActiveNodes,(same _).1]
    have heap : Holds (order b.timers) h (ActiveNodes b.timers) := good.heap
    exact holds_frame (active.symm ▸ heap) rfl rfl (fun _ _ => rfl) fun x _ => order_update fun u _ => (same u).2
  · show h.nelts = (finishTimer b t).handleQueue.countP fun u => ((finishTimer b t).timers u).active
    have size : h.nelts = b.handleQueue.countP fun u => (b.timers u).active := good.size
    simp only [queue,(same _).1,List.countP_erase,size]
    simp [idle]
  · intro u among idle' notIn
    have before : u ∈ b.handleQueue := List.mem_of_mem_erase (queue ▸ among : u ∈ b.handleQueue.erase t)
    exact good.alone u before ((same u).1.symm.trans idle') notIn

/-- What finishing handles leaves: the loop's clock and history, and every handle that was not closing. -/
structure Finished (b b' : Books T C) (p : List T) : Prop where
  time : b'.time = b.time
  events : b'.events = b.events
  handleQueue : ∀ u, u ∈ b'.handleQueue → u ∈ b.handleQueue
  timers : ∀ u, u ∉ p → b'.timers u = b.timers u
  gone : ∀ u ∈ p, u ∉ b'.handleQueue
  kept : ∀ u ∈ b.handleQueue, u ∉ p → u ∈ b'.handleQueue

private theorem finishEach_good {h : HeapState (Node T)} (p : List T) {b : Books T C}
    (good : Good others ⟨{ b with closingHandles := p },h⟩ none) :
    ∃ b', finishEach p ⟨b,h⟩ = .done () ⟨b',h⟩ ∧ Good others ⟨{ b' with closingHandles := [] },h⟩ none ∧
      b'.closingHandles = b.closingHandles ∧ Finished b b' p := by
  induction p generalizing b with
  | nil => exact ⟨b,rfl,good,rfl,rfl,rfl,fun _ inside => inside,fun _ _ => rfl,nofun,fun _ inside _ => inside⟩
  | cons t rest ih =>
    obtain ⟨first,good'⟩ := good_finish good
    obtain ⟨b',run,done,closings,finished⟩ := ih good'
    have queue := finishTimer_handleQueue b t
    have same := sameBooks_changeRef (b.setTimer t { b.timers t with closed := true }) t false
    have distinct : b.handleQueue.Nodup := good.sound.nodup
    refine ⟨b',?_,done,closings.trans same.closingHandles,finished.time.trans same.time,finished.events.trans same.events,?_,?_,?_,?_⟩
    · simp only [finishEach,bind_run,first,Outcome.andThen_done,run]
    · intro u inside
      exact List.mem_of_mem_erase (queue ▸ finished.handleQueue u inside)
    · intro u outside
      rw [List.mem_cons,not_or] at outside
      rw [finished.timers u outside.2,finishTimer_timers,Function.update_of_ne outside.1]
    · intro u among inside
      rcases List.mem_cons.mp among with rfl | later
      · exact distinct.not_mem_erase (queue ▸ finished.handleQueue u inside)
      · exact finished.gone u later inside
    · intro u inside outside
      rw [List.mem_cons,not_or] at outside
      exact finished.kept u (queue.symm ▸ (List.mem_erase_of_ne outside.1).mpr inside) outside.2

/-- Running the closing handles takes them all from the loop. -/
theorem uvRunClosingHandles_good {w : TimerLoop T C} (good : Good others w none) :
    ∃ b, uvRunClosingHandles w = .done () ⟨b,w.timerHeap⟩ ∧ Good others ⟨b,w.timerHeap⟩ none ∧
      b.closingHandles = [] ∧ Finished w.toBooks b w.closingHandles := by
  obtain ⟨b,run,good',closings,finished⟩ := finishEach_good w.closingHandles
    (show Good others ⟨{ { w.toBooks with closingHandles := [] } with closingHandles := w.closingHandles },w.timerHeap⟩ none
      from good)
  have none : b.closingHandles = [] := closings
  refine ⟨b,?_,?_,none,finished.time,finished.events,finished.handleQueue,finished.timers,finished.gone,
    finished.kept⟩
  · simp only [uvRunClosingHandles,bind_run,get_run,Outcome.andThen_done,onBooks,change_run,run]
  · have same : { b with closingHandles := [] } = b := by rw [← none]
    rw [same] at good'
    exact good'

end

/-! ### Runs -/

section
variable {others : ℕ} {code : C → T → Books T C → List (TimerCall T C)} {w : TimerLoop T C}

omit [DecidableEq T] in
private theorem uvLoopInit_good (timers : T → UvTimer C) (nodes : Node T → HeapNode (Node T)) (time : ℕ)
    (inactive : ∀ t, (timers t).active = false) : Good 0 (uvLoopInit timers nodes time) none := by
  have idle : ∀ t, ((uvLoopInit timers nodes time).timers t).active = false := inactive
  have none : ActiveNodes timers = ∅ := by
    ext x
    simp [ActiveNodes,inactive]
  refine ⟨?_,?_,rfl,fun t inside => absurd inside List.not_mem_nil,fun l running => ?_⟩
  · constructor <;> simp [uvLoopInit,inactive,uintMax]
  · show Holds (order timers) (heapInit nodes) (ActiveNodes timers)
    rw [none]
    exact heapInit_holds (order timers) nodes fun _ => .readyQueue
  · cases running

omit [DecidableEq T] in
/-- Another handle is counted when it starts and no more when it stops. -/
private theorem countHandle_good (good : Good others w none) (up : Bool) (some : up = false → 0 < others) :
    Good (if up then others+1 else others-1) ⟨w.toBooks.countHandle up,w.timerHeap⟩ none := by
  have sound := good.sound
  have counted := sound.counted
  refine ⟨{ sound with counted := ?_ },good.heap,good.size,good.alone,nofun⟩
  show (if up then w.activeHandles+1 else w.activeHandles-1) = (if up then others+1 else others-1) +
    w.handleQueue.countP fun t => (w.timers t).active && (w.timers t).ref
  cases up with
  | true =>
    simp only [if_true,counted]
    omega
  | false =>
    have := some rfl
    simp only [Bool.false_eq_true,if_false,counted]
    omega

/-- A permitted step ends and keeps the loop in good order. -/
private theorem takeStep_good (lawful : Lawful code) (good : Good others w none) (step : LoopStep T C)
    (permitted : Permitted others w.toBooks step) :
    ∃ w', takeStep code step w = .done () w' ∧ Good (othersAfter others step) w' none := by
  cases step with
  | call call =>
    obtain ⟨h,run,good'⟩ := performAll_good [call] w none good ⟨permitted,trivial⟩
    exact ⟨_,run,good'⟩
  | updateTime now =>
    refine ⟨_,rfl,?_⟩
    exact good.rebook (good.sound.congr rfl rfl rfl rfl) rfl fun _ => ⟨rfl,rfl,rfl⟩
  | runTimers =>
    obtain ⟨due,h,_,_,run,good'⟩ := uvRunTimers_good lawful good (Nat.lt_succ_self w.timerHeap.nelts)
    exact ⟨_,run,good'⟩
  | runClosingHandles =>
    obtain ⟨b,run,good',_⟩ := uvRunClosingHandles_good good
    exact ⟨_,run,good'⟩
  | otherHandle up => exact ⟨_,rfl,countHandle_good good up permitted⟩

/-- The loop is in good order after every run. -/
theorem Reachable.good (lawful : Lawful code) (reachable : Reachable code others w) : Good others w none := by
  induction reachable with
  | start timers nodes time early inactive => exact uvLoopInit_good timers nodes time inactive
  | step before step permitted run ih =>
    obtain ⟨w',ran,good⟩ := takeStep_good lawful ih step permitted
    rw [run] at ran
    cases ran
    exact good

/-- What a call leads to, but for the pointers. -/
theorem Reachable.called (lawful : Lawful code) (reachable : Reachable code others w) {call : TimerCall T C}
    (allowed : Allowed w.toBooks call) : ∃ h, Reachable code others ⟨(turn (w.toBooks,[]) call).1,h⟩ := by
  obtain ⟨h,run,_⟩ := performAll_good [call] w none (reachable.good lawful) ⟨allowed,trivial⟩
  exact ⟨h,reachable.step (.call call) allowed run⟩

/-- What a pass leads to, but for the pointers. -/
theorem Reachable.passed (lawful : Lawful code) (reachable : Reachable code others w) :
    ∃ due h, DueList w.toBooks due ∧ Reachable code others ⟨fireList code due.length (stopAll w.toBooks due) due,h⟩ := by
  obtain ⟨due,h,list,_,run,_⟩ := uvRunTimers_good lawful (reachable.good lawful) (Nat.lt_succ_self w.timerHeap.nelts)
  exact ⟨due,h,list,reachable.step .runTimers trivial run⟩

end

/-! ### A loop with two timers -/

section
variable {others : ℕ} {code : C → T → Books T C → List (TimerCall T C)} {w : TimerLoop T C}

private theorem Reachable.calledAll (lawful : Lawful code) (reachable : Reachable code others w) {calls : List (TimerCall T C)}
    (allowed : AllAllowed w.toBooks calls) : ∃ h, Reachable code others ⟨(calls.foldl turn (w.toBooks,[])).1,h⟩ := by
  induction calls generalizing w with
  | nil => exact ⟨w.timerHeap,reachable⟩
  | cons call rest ih =>
    obtain ⟨h,next⟩ := reachable.called lawful allowed.1
    have silent : turn (w.toBooks,[]) call = ((turn (w.toBooks,[]) call).1,[]) := by
      simp [turn,queueAfter]
    rw [List.foldl_cons,silent]
    exact ih next allowed.2

omit [DecidableEq T] in
/-- Timers of different places in the order are due in one order only. -/
theorem DueList.unique {b : Books T C} {due due' : List T} (list : DueList b due) (list' : DueList b due')
    (apart : ∀ t ∈ due', ∀ u ∈ due', order b.timers (.timer t) = order b.timers (.timer u) → t = u) : due = due' := by
  have perm : due.Perm due' := (List.perm_ext_iff_of_nodup list.nodup list'.nodup).mpr fun t =>
    (list.mem t).trans (list'.mem t).symm
  exact perm.eq_of_pairwise (fun t u inside inside' le ge => apart t (perm.mem_iff.mp inside) u inside' (le_antisymm le ge))
    list.sorted list'.sorted

/-- The clock goes on and the timers that are due then are fired. -/
private theorem Reachable.firesAt (lawful : Lawful code) (reachable : Reachable code others w) {now : ℕ} (later : w.time ≤ now)
    (early : now < u64) {due : List T} (list : DueList { w.toBooks with time := now } due)
    (apart : ∀ t ∈ due, ∀ u ∈ due, order w.timers (.timer t) = order w.timers (.timer u) → t = u) :
    Reachable code others ⟨{ w.toBooks with time := now },w.timerHeap⟩ ∧ ∃ h,
      takeStep code .runTimers ⟨{ w.toBooks with time := now },w.timerHeap⟩ =
        .done () ⟨fireList code due.length (stopAll { w.toBooks with time := now } due) due,h⟩ := by
  have advanced : Reachable code others ⟨{ w.toBooks with time := now },w.timerHeap⟩ :=
    reachable.step (.updateTime now) ⟨later,early⟩ rfl
  obtain ⟨due',h,list',_,run,_⟩ := uvRunTimers_good lawful (advanced.good lawful) (Nat.lt_succ_self w.timerHeap.nelts)
  obtain rfl : due' = due := DueList.unique list' list apart
  exact ⟨advanced,h,run⟩

end

/-- The callback of the first timer stops the second one, whose own starts the first one again. -/
def rivalCode : Unit → Bool → Books Bool Unit → List (TimerCall Bool Unit) := fun _ t b =>
  if (!t) ∈ b.handleQueue then [if t then .again false else .stop true] else []

theorem rivalCode_lawful : Lawful rivalCode := by
  intro others cb t b q sound inside
  unfold rivalCode
  split
  · rename_i known
    cases t with
    | false => exact ⟨known,trivial⟩
    | true => exact ⟨known,trivial⟩
  · trivial

/-- Both timers are due after five seconds. -/
def rivalCalls : List (TimerCall Bool Unit) :=
  [.init false,.init true,.start false (some ()) 5000 5000,.start true (some ()) 5000 3000]

def rivals : Books Bool Unit :=
  (rivalCalls.foldl turn ((uvLoopInit (fun _ : Bool => ⟨none,0,0,0,false,false,false,false⟩) (fun _ => ⟨none,none,none⟩) 0).toBooks,[])).1

private theorem rivals_reachable : ∃ h, Reachable rivalCode 0 ⟨rivals,h⟩ := by
  have start : Reachable rivalCode 0
      (uvLoopInit (fun _ : Bool => ⟨none,0,0,0,false,false,false,false⟩) (fun _ => ⟨none,none,none⟩) 0) :=
    .start _ _ 0 (by decide) fun _ => rfl
  exact start.calledAll rivalCode_lawful
    ⟨⟨by decide,by decide⟩,⟨by decide,by decide⟩,⟨by decide,by decide,by decide⟩,⟨by decide,by decide,by decide⟩,trivial⟩

private theorem rivals_due : DueList { rivals with time := 5000 } [false,true] where
  nodup := by decide
  mem := by decide
  sorted := by simp [order,Prod.Lex.toLex_le_toLex]; decide

/-- The first timer has fired and stopped the second one. -/
def rivalsFired : Books Bool Unit := fireList rivalCode 2 (stopAll { rivals with time := 5000 } [false,true]) [false,true]

private theorem rivals_fired : ∃ h h', Reachable rivalCode 0 ⟨{ rivals with time := 5000 },h⟩ ∧
    takeStep rivalCode .runTimers ⟨{ rivals with time := 5000 },h⟩ = .done () ⟨rivalsFired,h'⟩ := by
  obtain ⟨h,reachable⟩ := rivals_reachable
  have apart : ∀ t ∈ [false,true], ∀ u ∈ [false,true],
      order rivals.timers (.timer t) = order rivals.timers (.timer u) → t = u := by decide
  obtain ⟨advanced,h',run⟩ := reachable.firesAt rivalCode_lawful (Nat.zero_le 5000) (by decide) rivals_due apart
  exact ⟨h,h',advanced,run⟩

private theorem rivalsFired_reachable : ∃ h, Reachable rivalCode 0 ⟨rivalsFired,h⟩ := by
  obtain ⟨h,h',advanced,run⟩ := rivals_fired
  exact ⟨h',advanced.step .runTimers trivial run⟩

/-- The first timer has fired a second time. -/
def rivalsTwice : Books Bool Unit := fireList rivalCode 1 (stopAll { rivalsFired with time := 10000 } [false]) [false]

theorem rivalsTwice_reachable : ∃ h, Reachable rivalCode 0 ⟨rivalsTwice,h⟩ := by
  obtain ⟨h,reachable⟩ := rivalsFired_reachable
  have list : DueList { rivalsFired with time := 10000 } [false] := ⟨by decide,by decide,by simp⟩
  obtain ⟨advanced,h',run⟩ := reachable.firesAt rivalCode_lawful (show 5000 ≤ 10000 by decide) (by decide) list (by simp)
  exact ⟨h',advanced.step .runTimers trivial run⟩

/-- The second timer was started again, has fired and has started the first one again. -/
def rivalsRestarted : Books Bool Unit :=
  fireList rivalCode 1 (stopAll { (turn (rivalsFired,[]) (.again true)).1 with time := 8000 } [true]) [true]

theorem rivalsRestarted_reachable : ∃ h, Reachable rivalCode 0 ⟨rivalsRestarted,h⟩ := by
  obtain ⟨h,reachable⟩ := rivalsFired_reachable
  obtain ⟨h₁,again⟩ := reachable.called rivalCode_lawful (show Allowed rivalsFired (.again true) from (by decide : true ∈ rivalsFired.handleQueue))
  have list : DueList { (turn (rivalsFired,[]) (.again true)).1 with time := 8000 } [true] := ⟨by decide,by decide,by simp⟩
  obtain ⟨advanced,h',run⟩ := again.firesAt rivalCode_lawful (show 5000 ≤ 8000 by decide) (by decide) list (by simp)
  exact ⟨h',advanced.step .runTimers trivial run⟩

/-! ### What holds in every run -/

section
variable {others : ℕ} {code : C → T → Books T C → List (TimerCall T C)} {w : TimerLoop T C}

/-- Whatever runs before it, a permitted step of a loop ends, and leaves the heap with exactly the active timers in
    order, the handles counted and every other timer by itself. -/
theorem steps_keep_order (lawful : Lawful code) (reachable : Reachable code others w) :
    Good others w none ∧ ∀ step, Permitted others w.toBooks step →
      ∃ w', takeStep code step w = .done () w' ∧ Good (othersAfter others step) w' none :=
  ⟨reachable.good lawful,fun step permitted => takeStep_good lawful (reachable.good lawful) step permitted⟩

theorem steps_keep_order_one : ∃ w, Reachable rivalCode 0 w ∧ w.toBooks = rivalsRestarted ∧ Good 0 w none ∧
    ∀ step, Permitted 0 w.toBooks step → ∃ w', takeStep rivalCode step w = .done () w' ∧ Good (othersAfter 0 step) w' none := by
  obtain ⟨h,reachable⟩ := rivalsRestarted_reachable
  exact ⟨_,reachable,rfl,steps_keep_order rivalCode_lawful reachable⟩

/-- A pass of `uv__run_timers` in any reachable loop is orderly, and does what its events say. -/
theorem passes_are_orderly (lawful : Lawful code) (reachable : Reachable code others w) :
    ∃ due w' new, DueList w.toBooks due ∧ takeStep code .runTimers w = .done () w' ∧ w'.time = w.time ∧
      w'.events = w.events ++ new ∧ w'.toBooks = replay (stopAll w.toBooks due) new ∧ Orderly (stopAll w.toBooks due) due new := by
  obtain ⟨due,h,list,sound,run,_⟩ := uvRunTimers_good lawful (reachable.good lawful) (Nat.lt_succ_self w.timerHeap.nelts)
  have same := sameBooks_stopAll w.toBooks due
  obtain ⟨time,new,events,leads,orderly⟩ := fireList_orderly lawful due.length sound le_rfl
  rw [same.time] at time
  rw [same.events] at events
  exact ⟨due,_,new,list,run,time,events,leads,orderly⟩

/-- Of two timers that are due the first fires, and the second does not, which it stops. -/
theorem passes_are_orderly_one : ∃ w w', Reachable rivalCode 0 w ∧ takeStep rivalCode .runTimers w = .done () w' ∧
    w'.events = w.events ++ [.fired false 5000,.called (.stop true) 5000] ∧
    Orderly (stopAll w.toBooks [false,true]) [false,true] [.fired false 5000,.called (.stop true) 5000] := by
  obtain ⟨h,h',reachable,run⟩ := rivals_fired
  obtain ⟨due,w',new,list,run',_,events,_,orderly⟩ := passes_are_orderly rivalCode_lawful reachable
  obtain rfl : due = [false,true] := DueList.unique list rivals_due (show ∀ t ∈ [false,true], ∀ u ∈ [false,true],
    order rivals.timers (.timer t) = order rivals.timers (.timer u) → t = u by decide)
  cases run.symm.trans run'
  have fired : rivalsFired.events = rivals.events ++ [.fired false 5000,.called (.stop true) 5000] := by decide
  obtain rfl := List.append_cancel_left (fired.symm.trans events)
  exact ⟨_,_,reachable,run,fired,orderly⟩

omit [DecidableEq T] in
theorem uvTimerGetDueIn_eq (b : Books T C) (t : T) : uvTimerGetDueIn b t = (b.timers t).timeout - b.time := by
  rw [uvTimerGetDueIn]
  split <;> omega

omit [DecidableEq T] in
/-- The loop may block for what the first timer is due in, cut off at the largest `int`. -/
theorem uvNextTimeout_eq {t : T} (root : heapMin w.timerHeap = some (.timer t)) :
    uvNextTimeout w = (min intMax (uvTimerGetDueIn w.toBooks t) : ℕ) := by
  simp only [uvNextTimeout,root,containerOf,uvTimerGetDueIn_eq]
  split_ifs <;> omega

/-- Polling for as long as `uv__next_timeout` says ends when the first timer is due, and not before. -/
theorem polls_until_due (lawful : Lawful code) (reachable : Reachable code others w) :
    (uvNextTimeout w = -1 ∧ ∀ t, (w.timers t).active = false) ∨
      (∃ t, (w.timers t).active = true) ∧ ∃ r : ℕ, uvNextTimeout w = r ∧ r ≤ intMax ∧ ∀ now, w.time ≤ now →
        ((∃ t, (w.timers t).active = true ∧ (w.timers t).timeout ≤ now) → w.time + r ≤ now) ∧
        (r < intMax → w.time + r ≤ now → ∃ t, (w.timers t).active = true ∧ (w.timers t).timeout ≤ now) := by
  have first := (reachable.good lawful).first
  cases root : heapMin w.timerHeap with
  | none =>
    rw [root] at first
    exact .inl ⟨by simp [uvNextTimeout,root],first⟩
  | some x =>
    rw [root] at first
    cases x with
    | readyQueue => exact first.elim
    | timer t =>
      obtain ⟨up,least⟩ := first
      have earliest : ∀ u, (w.timers u).active = true → (w.timers t).timeout ≤ (w.timers u).timeout := fun u upU =>
        timeout_le_of_order (least u upU)
      have due := uvTimerGetDueIn_eq w.toBooks t
      refine .inr ⟨⟨t,up⟩,_,uvNextTimeout_eq root,min_le_left ..,fun now later => ⟨?_,fun short reached => ⟨t,up,by omega⟩⟩⟩
      rintro ⟨u,upU,dueU⟩
      have bound := earliest u upU
      omega

/-- The timer that is still active is due five seconds later. -/
theorem polls_until_due_one : ∃ w, Reachable rivalCode 0 w ∧ w.toBooks = rivalsFired ∧ ∃ r : ℕ, uvNextTimeout w = r ∧ r ≤ 5000 ∧
    (r < intMax → r = 5000) := by
  obtain ⟨h,reachable⟩ := rivalsFired_reachable
  have up : (rivalsFired.timers false).active = true ∧ (rivalsFired.timers false).timeout = 10000 ∧ rivalsFired.time = 5000 := by
    decide
  have alone : ∀ t, (rivalsFired.timers t).active = true → t = false := by decide
  obtain ⟨active,due,time⟩ := up
  rcases polls_until_due rivalCode_lawful reachable with ⟨_,idle⟩ | ⟨_,r,isNext,_,bounds⟩
  · exact absurd (idle false) (by rw [active]; decide)
  · have soon : 5000 + r ≤ 10000 := time ▸ (bounds 10000 (by rw [time]; decide)).1 ⟨false,active,due.le⟩
    refine ⟨_,reachable,rfl,r,isNext,by omega,fun short => ?_⟩
    obtain ⟨t,upT,reached⟩ := (bounds (5000+r) (by rw [time]; omega)).2 short (by rw [time])
    obtain rfl := alone t upT
    have late : 10000 ≤ 5000 + r := due ▸ reached
    omega

/-- The loop is alive for its other handles, for a timer that is active and referenced, or for one that is closing; when
    all its timers are closing, one run of the closing handles leaves it alive for the other handles only. -/
theorem closed_timers_release_loop (lawful : Lawful code) (reachable : Reachable code others w) :
    (uvLoopAlive w = true ↔ 0 < others ∨ (∃ t, (w.timers t).active = true ∧ (w.timers t).ref = true) ∨
      ∃ t ∈ w.handleQueue, (w.timers t).closing = true) ∧
    ((∀ t ∈ w.handleQueue, (w.timers t).closing = true) → ∃ w', takeStep code .runClosingHandles w = .done () w' ∧
      w'.handleQueue = [] ∧ (uvLoopAlive w' = true ↔ 0 < others)) := by
  have alive {v : TimerLoop T C} (good : Good others v none) : uvLoopAlive v = true ↔
      0 < others ∨ (∃ t, (v.timers t).active = true ∧ (v.timers t).ref = true) ∨
        ∃ t ∈ v.handleQueue, (v.timers t).closing = true := by
    have counts : 0 < v.activeHandles ↔ 0 < others ∨ ∃ t, (v.timers t).active = true ∧ (v.timers t).ref = true := by
      rw [good.sound.counted,Nat.add_pos_iff_pos_or_pos,List.countP_pos_iff]
      refine or_congr_right ⟨fun ⟨t,_,up⟩ => ⟨t,by simpa using up⟩,fun ⟨t,up,kept⟩ => ⟨t,good.sound.known t up,by simp [up,kept]⟩⟩
    have closings : v.closingHandles.isEmpty = false ↔ ∃ t ∈ v.handleQueue, (v.timers t).closing = true := by
      rw [List.isEmpty_eq_false_iff_exists_mem]
      exact exists_congr fun t => good.sound.pending t
    rw [uvLoopAlive,Bool.or_eq_true,decide_eq_true_iff,counts,Bool.not_eq_true',closings,or_assoc]
  have good := reachable.good lawful
  refine ⟨alive good,fun all => ?_⟩
  obtain ⟨b,run,good',closings,finished⟩ := uvRunClosingHandles_good good
  have none : b.handleQueue = [] := by
    refine List.eq_nil_iff_forall_not_mem.mpr fun t inside => ?_
    have before := finished.handleQueue t inside
    exact finished.gone t ((good.sound.pending t).mpr ⟨before,all t before⟩) inside
  refine ⟨_,run,none,(alive good').trans ⟨?_,.inl⟩⟩
  rintro (other | ⟨t,up,_⟩ | ⟨t,inside,_⟩)
  · exact other
  · have inside : t ∈ b.handleQueue := good'.sound.known t up
    rw [none] at inside
    cases inside
  · have inside' : t ∈ b.handleQueue := inside
    rw [none] at inside'
    cases inside'

/-- Both timers are closed and finished. -/
theorem closed_timers_release_loop_one : ∃ w w', Reachable rivalCode 0 w ∧ takeStep rivalCode .runClosingHandles w = .done () w' ∧
    w'.handleQueue = [] ∧ uvLoopAlive w' = false := by
  obtain ⟨h,reachable⟩ := rivalsFired_reachable
  have allowed : AllAllowed rivalsFired [.close false,.close true] :=
    ⟨⟨by decide,by decide,by decide⟩,⟨by decide,by decide,by decide⟩,trivial⟩
  have shut : ∀ t ∈ (([.close false,.close true] : List (TimerCall Bool Unit)).foldl turn (rivalsFired,[])).1.handleQueue,
      ((([.close false,.close true] : List (TimerCall Bool Unit)).foldl turn (rivalsFired,[])).1.timers t).closing = true := by
    decide
  obtain ⟨h',closing⟩ := reachable.calledAll rivalCode_lawful allowed
  obtain ⟨w',run,none,alive⟩ := (closed_timers_release_loop rivalCode_lawful closing).2 shut
  exact ⟨_,w',closing,run,none,by simpa using alive⟩

end

end Armd.TimerRuns
