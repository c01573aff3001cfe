import Mathlib.Data.List.Induction
import Armd.TimerRefinement

/-!
A pass of `uv__run_timers`. Its first loop takes the timers that are due out of
the heap, in order, onto a queue on the stack (`collectDue_good`); its second
fires what is left of that queue, timer by timer, while the callbacks start,
stop and close timers as they like (`fireReady_good`). The pass comes to an end
with the loop in good order, and what it put on record is an orderly pass over
the timers that were due at its start (`Orderly`).
-/
namespace Armd.TimerPass
open Armd.Programs Armd.Programs.Program Armd.LinkedRings Armd.BinaryHeap Armd.HeapOperations Armd.UvQueue Armd.Timers
  Armd.TimerBooks Armd.TimerRefinement
variable {T C : Type} [DecidableEq T]

/-- A callback's code makes allowed calls only, whatever the sound books it is called with. -/
def Lawful (code : C → T → Books T C → List (TimerCall T C)) : Prop :=
  ∀ others cb t b q, Sound others b q → t ∈ b.handleQueue → AllAllowed b (code cb t b)

/-- The first of the timers that are due, in order. -/
structure Collected (b : Books T C) (q : List T) : Prop where
  nodup : q.Nodup
  due : ∀ t ∈ q, (b.timers t).active = true ∧ (b.timers t).timeout ≤ b.time
  sorted : q.Pairwise fun t u => order b.timers (.timer t) ≤ order b.timers (.timer u)
  first : ∀ t ∈ q, ∀ u, (b.timers u).active = true → u ∉ q → order b.timers (.timer t) ≤ order b.timers (.timer u)

omit [DecidableEq T] in
private theorem collected_nil (b : Books T C) : Collected b [] := ⟨by simp,by simp,by simp,by simp⟩

omit [DecidableEq T] in
/-- The next one in order joins the timers collected before. -/
theorem Collected.snoc {b : Books T C} {q : List T} {t : T} (collected : Collected b q) (fresh : t ∉ q)
    (up : (b.timers t).active = true) (due : (b.timers t).timeout ≤ b.time)
    (next : ∀ u, (b.timers u).active = true → u ∉ q → order b.timers (.timer t) ≤ order b.timers (.timer u)) :
    Collected b (q ++ [t]) where
  nodup := by
    refine List.nodup_append.mpr ⟨collected.nodup,by simp,fun u inside v last same => ?_⟩
    rw [List.mem_singleton] at last
    exact fresh (last ▸ same ▸ inside)
  due := by
    intro u inside
    rcases List.mem_append.mp inside with before | last
    · exact collected.due u before
    · rw [List.mem_singleton.mp last]
      exact ⟨up,due⟩
  sorted := by
    refine List.pairwise_append.mpr ⟨collected.sorted,by simp,fun u inside v last => ?_⟩
    rw [List.mem_singleton.mp last]
    exact collected.first u inside t up fresh
  first := by
    intro u inside v up' outside
    have notBefore : v ∉ q := fun before => outside (List.mem_append_left _ before)
    rcases List.mem_append.mp inside with before | last
    · exact collected.first u before v up' notBefore
    · rw [List.mem_singleton.mp last]
      exact next v up' notBefore

omit [DecidableEq T] in
private theorem Collected.dueList {b : Books T C} {q : List T} (collected : Collected b q)
    (rest : ∀ u, (b.timers u).active = true → u ∉ q → b.time < (b.timers u).timeout) : DueList b q := by
  refine ⟨collected.nodup,fun t => ⟨collected.due t,fun ⟨up,due⟩ => ?_⟩,collected.sorted⟩
  by_contra outside
  have late := rest t up outside
  omega

/-! ### The timers that were stopped -/

private theorem stopAll_snoc (b : Books T C) (q : List T) (t : T) : stopAll b (q ++ [t]) = (stopAll b q).uvHandleStop t := by
  rw [stopAll,List.foldl_append]
  rfl

theorem stopAll_timers (b : Books T C) (q : List T) (t : T) :
    (stopAll b q).timers t = if t ∈ q then { b.timers t with active := false } else b.timers t := by
  induction q using List.reverseRecOn with
  | nil => simp [stopAll]
  | append_singleton q u ih =>
    rw [stopAll_snoc,Books.uvHandleStop,changeActive_timers]
    by_cases same : t = u
    · subst same
      rw [Function.update_self,ih]
      by_cases inside : t ∈ q <;> simp [inside]
    · rw [Function.update_of_ne same,ih]
      simp [same]

theorem sameBooks_stopAll (b : Books T C) (q : List T) : SameBooks b (stopAll b q) := by
  induction q using List.reverseRecOn with
  | nil => exact sameBooks_refl b
  | append_singleton q u ih =>
    rw [stopAll_snoc]
    exact ih.trans (sameBooks_changeActive (stopAll b q) u false)

private theorem order_stopAll (b : Books T C) (q : List T) (x : Node T) : order (stopAll b q).timers x = order b.timers x := by
  refine order_update fun t _ => ?_
  rw [stopAll_timers]
  split <;> exact ⟨rfl,rfl⟩

theorem stopAll_active (b : Books T C) (q : List T) (t : T) :
    ((stopAll b q).timers t).active = true ↔ (b.timers t).active = true ∧ t ∉ q := by
  rw [stopAll_timers]
  by_cases inside : t ∈ q <;> simp [inside]

/-! ### The queue on the stack -/

section
variable {others : ℕ} {w : TimerLoop T C} {q : List T} {t : T}

private theorem enterPass (good : Good others w none) :
    ∃ h, onQueue (fun g => some (uvQueueInit g .readyQueue)) w = .done () ⟨w.toBooks,h⟩ ∧
      Good others ⟨w.toBooks,h⟩ (some []) ∧ h.nelts = w.timerHeap.nelts := by
  have apart : ∀ x, x ≠ Node.readyQueue → uvQueueInit (links w.timerHeap) .readyQueue x = links w.timerHeap x :=
    fun x other => uvQueueInit_of_ne _ other
  refine ⟨withLinks w.timerHeap (uvQueueInit (links w.timerHeap) .readyQueue),rfl,?_,rfl⟩
  refine good.relink (fun x active => apart x ?_) good.sound (fun u inside idle notIn => ?_) fun l running => ?_
  · rintro rfl
    obtain ⟨u,same,_⟩ := active
    cases same
  · refine (good.alone u inside idle notIn).frame fun x on => apart x ?_
    rintro rfl
    rw [List.mem_singleton] at on
    cases on
  · cases running
    exact uvQueueInit_alone _ _

omit [DecidableEq T] in
/-- The queue is empty at the end of a pass, and goes with the stack. -/
private theorem leavePass (good : Good others w (some [])) : Good others w none where
  sound := good.sound
  heap := good.heap
  size := good.size
  alone := good.alone
  ring := nofun

/-- A timer that was stopped goes to the end of the queue. -/
theorem enqueue (good : Good others w (some q)) (member : t ∈ w.handleQueue) (idle : (w.timers t).active = false)
    (fresh : t ∉ q) (callback : (w.timers t).timerCb ≠ none) (open_ : (w.timers t).closing = false) :
    ∃ h, onQueue (uvQueueInsertTail · .readyQueue (.timer t)) w = .done () ⟨w.toBooks,h⟩ ∧
      Good others ⟨w.toBooks,h⟩ (some (q ++ [t])) ∧ h.nelts = w.timerHeap.nelts := by
  have notOn : Node.timer t ∉ Node.readyQueue :: q.map Node.timer := by simpa using fresh
  obtain ⟨g,inserted,ring,frame⟩ := uvQueueInsertTail_ring (good.ring q rfl) notOn
  refine ⟨withLinks w.timerHeap g,by simp [onQueue,inserted],?_,rfl⟩
  refine good.relink (fun x active => frame x fun on => ?_) (good.sound.push member fresh idle callback open_)
    (fun u inside idle' notIn => ?_) fun l running => ?_
  · have among : x ∈ Node.readyQueue :: q.map Node.timer ∨ x = .timer t := by
      simpa [or_assoc] using on
    rcases among with before | rfl
    · exact good.queue_not_active rfl x before active
    · rw [timer_mem_activeNodes,idle] at active
      cases active
  · rw [Option.getD_some,List.mem_append,List.mem_singleton,not_or] at notIn
    exact alone_congr (good.alone u inside idle' notIn.1) (frame _ (by simpa using notIn))
  · cases running
    simpa using ring

/-- The timer at the head of the queue leaves it. -/
theorem dequeue (good : Good others w (some (t :: q))) :
    uvQueueEmpty (links w.timerHeap) .readyQueue = false ∧ uvQueueHead (links w.timerHeap) .readyQueue = some (.timer t) ∧
      ∃ v h, onQueue (uvQueueRemove · (.timer t)) w = .done () v ∧
        onQueue (fun g => some (uvQueueInit g (.timer t))) v = .done () ⟨w.toBooks,h⟩ ∧
        Good others ⟨w.toBooks,h⟩ (some q) := by
  have ring := good.ring _ rfl
  obtain ⟨member,idle⟩ := good.sound.waiting t (by simp)
  obtain ⟨h,stopped,good'⟩ := uvTimerStop_inactive good member idle
  rw [Option.map_some,List.erase_cons_head] at good'
  refine ⟨by simp [uvQueueEmpty_ring ring],uvQueueHead_ring ring,?_⟩
  cases removed : onQueue (uvQueueRemove · (.timer t)) w with
  | done u v =>
    refine ⟨v,h,rfl,?_,good'⟩
    simp only [uvTimerStop,bind_run,get_run,Outcome.andThen_done,ite_run,idle,Bool.false_eq_true,if_false,removed] at stopped
    simpa [onQueue] using stopped
  | abort v => simp [uvTimerStop,idle,removed] at stopped
  | exhausted => simp [uvTimerStop,idle,removed] at stopped

end

/-! ### Collecting -/

section
variable {others : ℕ} {w : TimerLoop T C}

/-- The state between two rounds of the first loop, over that before them. -/
structure Collecting (others : ℕ) (w v : TimerLoop T C) (q : List T) : Prop where
  books : v.toBooks = stopAll w.toBooks q
  good : Good others v (some q)
  collected : Collected w.toBooks q
  total : q.length + v.timerHeap.nelts = w.timerHeap.nelts

/-- A round stops the first timer in order and puts it on the queue, or finds that none is due any more. -/
private theorem collect_round {v : TimerLoop T C} {q : List T} (inv : Collecting others w v q) :
    (∃ t v', collectRound v = .done (.inl ()) v' ∧ Collecting others w v' (q ++ [t]) ∧
      v'.timerHeap.nelts < v.timerHeap.nelts) ∨
    (collectRound v = .done (.inr ()) v ∧ DueList w.toBooks q) := by
  have active : ∀ u, (v.timers u).active = true ↔ (w.timers u).active = true ∧ u ∉ q := fun u => by
    rw [inv.books]
    exact stopAll_active w.toBooks q u
  have ordered : ∀ x, order v.timers x = order w.timers x := fun x => by
    rw [inv.books]
    exact order_stopAll w.toBooks q x
  have timeout : ∀ u, (v.timers u).timeout = (w.timers u).timeout := fun u => by
    rw [inv.books,stopAll_timers]
    split <;> rfl
  have now : v.time = w.time := by rw [inv.books]; exact (sameBooks_stopAll w.toBooks q).time
  have first := inv.good.first
  cases root : heapMin v.timerHeap with
  | none =>
    rw [root] at first
    refine .inr ⟨by simp [collectRound,root],inv.collected.dueList fun u up outside => ?_⟩
    have idle := first u
    rw [(active u).mpr ⟨up,outside⟩] at idle
    cases idle
  | some x =>
    rw [root] at first
    cases x with
    | readyQueue => exact first.elim
    | timer t =>
      obtain ⟨up,least⟩ := first
      obtain ⟨up',fresh⟩ := (active t).mp up
      have next : ∀ u, (w.timers u).active = true → u ∉ q → order w.timers (.timer t) ≤ order w.timers (.timer u) :=
        fun u upU outside => by
          rw [← ordered,← ordered]
          exact least u ((active u).mpr ⟨upU,outside⟩)
      by_cases later : v.time < (v.timers t).timeout
      · refine .inr ⟨by simp [collectRound,root,later],inv.collected.dueList fun u upU outside => ?_⟩
        have bound := timeout_le_of_order (next u upU outside)
        rw [timeout,now] at later
        omega
      · left
        obtain ⟨h₁,stopped,good₁⟩ := uvTimerStop_active inv.good up
        have member := inv.good.sound.known t up
        have live := inv.good.sound.live t (.inl up)
        have queue : (v.toBooks.uvHandleStop t).handleQueue = v.handleQueue :=
          (sameBooks_changeActive v.toBooks t false).handleQueue
        rw [Option.map_some,List.erase_of_not_mem fresh] at good₁
        have here : (v.toBooks.uvHandleStop t).timers t = { v.timers t with active := false } := by
          simp [Books.uvHandleStop]
        have idle : ((v.toBooks.uvHandleStop t).timers t).active = false := by rw [here]
        have callback : ((v.toBooks.uvHandleStop t).timers t).timerCb ≠ none := by rw [here]; exact live.1
        have open_ : ((v.toBooks.uvHandleStop t).timers t).closing = false := by rw [here]; exact live.2.1
        obtain ⟨h₂,pushed,good₂,size⟩ := enqueue good₁ (queue.symm ▸ member) idle fresh callback open_
        have count := countP_changeActive inv.good.sound member false
        have before := inv.good.size
        have after : h₁.nelts = (v.toBooks.changeActive t false).handleQueue.countP fun u =>
            ((v.toBooks.changeActive t false).timers u).active := good₁.size
        have total := inv.total
        simp only [up,if_true,Bool.false_eq_true,if_false] at count
        simp only at size
        refine ⟨t,⟨v.toBooks.uvHandleStop t,h₂⟩,?_,⟨?_,good₂,?_,?_⟩,?_⟩
        · simp only [collectRound,bind_run,get_run,Outcome.andThen_done,root,ite_run,if_neg later,stopped,pushed,pure_run]
        · rw [stopAll_snoc,← inv.books]
        · refine inv.collected.snoc fresh up' ?_ next
          rw [timeout,now] at later
          omega
        · rw [List.length_append,List.length_singleton]
          simp only
          omega
        · simp only
          omega

/-- The first loop stops exactly the timers that are due, which are then on the queue in order. -/
theorem collectDue_good (good : Good others w (some [])) {fuel : ℕ} (enough : w.timerHeap.nelts < fuel) :
    ∃ due v, collectDue fuel w = .done () v ∧ Collecting others w v due ∧ DueList w.toBooks due := by
  have start : Collecting others w w [] := ⟨rfl,good,collected_nil w.toBooks,by simp⟩
  have round : ∀ (_ : Unit) (v : TimerLoop T C), (∃ q, Collecting others w v q) →
      (∃ next v', collectRound v = .done (.inl next) v' ∧ (∃ q, Collecting others w v' q) ∧
        v'.timerHeap.nelts < v.timerHeap.nelts) ∨
      ∃ a v', collectRound v = .done (.inr a) v' ∧ ∃ due, Collecting others w v' due ∧ DueList w.toBooks due := by
    rintro _ v ⟨q,inv⟩
    rcases collect_round inv with ⟨t,v',goesOn,inv',lower⟩ | ⟨ends,list⟩
    · exact .inl ⟨(),v',goesOn,⟨q ++ [t],inv'⟩,lower⟩
    · exact .inr ⟨(),v,ends,q,inv,list⟩
  obtain ⟨_,v,run,due,inv,list⟩ := loop_variant _ _ _ round fuel () w ⟨[],start⟩ enough
  exact ⟨due,v,run,inv,list⟩

end

/-! ### Firing -/

section
variable {others : ℕ} {code : C → T → Books T C → List (TimerCall T C)}

theorem queueAfter_sublist (b : Books T C) (q : List T) (call : TimerCall T C) : (queueAfter b q call).Sublist q := by
  unfold queueAfter
  split
  · exact List.erase_sublist
  · exact List.Sublist.refl q

private theorem queueAfter_again {b : Books T C} {q : List T} {t : T} (fresh : t ∉ q) : queueAfter b q (.again t) = q := by
  unfold queueAfter
  split
  · exact List.erase_of_not_mem fresh
  · rfl

private theorem foldl_turn_sublist (calls : List (TimerCall T C)) (b : Books T C) (q : List T) :
    (calls.foldl turn (b,q)).2.Sublist q := by
  induction calls generalizing b q with
  | nil => exact List.Sublist.refl q
  | cons call calls ih => exact (ih _ _).trans (queueAfter_sublist b q call)

private theorem fireOne_sublist (b : Books T C) (q : List T) (t : T) : (fireOne code b q t).2.Sublist q := by
  unfold fireOne
  dsimp only
  split
  · exact List.Sublist.refl q
  · exact foldl_turn_sublist _ _ q

/-- The callback of a timer that starts again is the one it had. -/
private theorem againTimer_timerCb (b : Books T C) (t : T) : ((againTimer b t).timers t).timerCb = (b.timers t).timerCb := by
  unfold againTimer
  split
  · rfl
  · split
    · unfold startTimer
      split <;> simp [Books.uvHandleStart,Books.uvHandleStop,Books.armTimer,Books.setTimer]
    · rfl

theorem againTimer_idle {b : Books T C} {t : T} (idle : (b.timers t).timerCb.isNone = true ∨ (b.timers t).repeat_ = 0) :
    againTimer b t = b := by
  rw [againTimer]
  rcases idle with none | once
  · rw [if_pos none]
  · simp [once]

private theorem fireOne_of_callback {b : Books T C} {t : T} {cb : C} (callback : (b.timers t).timerCb = some cb) (q : List T) :
    fireOne code b q t = (code cb t ((againTimer b t).note (.fired t (againTimer b t).time))).foldl turn
      ((againTimer b t).note (.fired t (againTimer b t).time),q) := by
  simp only [fireOne,againTimer_timerCb,callback]

/-- A round fires the timer at the head of the queue. -/
private theorem fire_round (lawful : Lawful code) {w : TimerLoop T C} {q : List T} {t : T}
    (good : Good others w (some (t :: q))) :
    ∃ h, fireRound code w = .done (.inl ()) ⟨(fireOne code w.toBooks q t).1,h⟩ ∧
      Good others ⟨(fireOne code w.toBooks q t).1,h⟩ (some (fireOne code w.toBooks q t).2) := by
  obtain ⟨empty,head,v,h₁,removed,cleared,good₁⟩ := dequeue good
  obtain ⟨member,_⟩ := good.sound.waiting t (by simp)
  obtain ⟨cb,callback⟩ := Option.ne_none_iff_exists'.mp (good.sound.live t (.inr (by simp))).1
  have fresh : t ∉ q := (List.nodup_cons.mp good.sound.distinct).1
  obtain ⟨r,h₂,again,good₂⟩ := uvTimerAgain_good good₁ member
  rw [Option.map_some,queueAfter_again fresh] at good₂
  have good₃ := good₂.note (.fired t (againTimer w.toBooks t).time)
  have still : ((againTimer w.toBooks t).timers t).timerCb = some cb := (againTimer_timerCb w.toBooks t).trans callback
  have known : t ∈ ((againTimer w.toBooks t).note (.fired t (againTimer w.toBooks t).time)).handleQueue :=
    (sameBooks_againTimer w.toBooks t).handleQueue.symm ▸ member
  obtain ⟨h,ran,good₄⟩ := performAll_good _ _ _ good₃ (lawful others cb t _ q good₃.sound known)
  rw [fireOne_of_callback callback,foldl_turn_books]
  refine ⟨h,?_,good₄⟩
  simp only [fireRound,bind_run,get_run,Outcome.andThen_done,ite_run,empty,Bool.false_eq_true,if_false,head,removed,
    cleared,again,runCallback,still,onBooks,change_run,ran,pure_run]

/-- The second loop fires the timers on the queue in turn. -/
theorem fireReady_good (lawful : Lawful code) (n : ℕ) {w : TimerLoop T C} {q : List T}
    (good : Good others w (some q)) (short : q.length ≤ n) {fuel : ℕ} (enough : n < fuel) :
    ∃ h, fireReady code fuel w = .done () ⟨fireList code n w.toBooks q,h⟩ ∧
      Good others ⟨fireList code n w.toBooks q,h⟩ (some []) := by
  obtain ⟨fuel,rfl⟩ : ∃ f, fuel = f+1 := ⟨fuel-1,by omega⟩
  induction n generalizing w q fuel with
  | zero =>
    obtain rfl : q = [] := List.eq_nil_of_length_eq_zero (by omega)
    have empty := uvQueueEmpty_ring (good.ring _ rfl)
    refine ⟨w.timerHeap,loop_end fuel ?_,good⟩
    simp [fireRound,empty,fireList]
  | succ n ih =>
    cases q with
    | nil =>
      have empty := uvQueueEmpty_ring (good.ring _ rfl)
      refine ⟨w.timerHeap,loop_end fuel ?_,good⟩
      simp [fireRound,empty,fireList]
    | cons t q =>
      obtain ⟨h₁,fired,good₁⟩ := fire_round lawful good
      obtain ⟨fuel,rfl⟩ : ∃ f, fuel = f+1 := ⟨fuel-1,by omega⟩
      have shorter : (fireOne code w.toBooks q t).2.length ≤ q.length := (fireOne_sublist w.toBooks q t).length_le
      rw [List.length_cons] at short
      obtain ⟨h,rest,good'⟩ := ih good₁ (by omega) fuel (by omega)
      exact ⟨h,(loop_next (fuel+1) fired).trans rest,good'⟩

/-- The whole pass: the timers that are due are stopped and fired in order, and no node is left on the queue. -/
theorem uvRunTimers_good (lawful : Lawful code) {w : TimerLoop T C} (good : Good others w none) {fuel : ℕ}
    (enough : w.timerHeap.nelts < fuel) :
    ∃ due h, DueList w.toBooks due ∧ Sound others (stopAll w.toBooks due) due ∧
      uvRunTimers code fuel w = .done () ⟨fireList code due.length (stopAll w.toBooks due) due,h⟩ ∧
      Good others ⟨fireList code due.length (stopAll w.toBooks due) due,h⟩ none := by
  obtain ⟨h₁,entered,good₁,size⟩ := enterPass good
  obtain ⟨due,v,collected,inv,list⟩ := collectDue_good good₁ (by rw [size]; exact enough)
  have total := inv.total
  simp only [size] at total
  obtain ⟨h,fired,good'⟩ := fireReady_good lawful due.length inv.good le_rfl (show due.length < fuel by omega)
  have sound := inv.good.sound
  rw [inv.books] at fired good' sound
  refine ⟨due,h,list,sound,?_,leavePass good'⟩
  simp only [uvRunTimers,bind_run,entered,Outcome.andThen_done,collected,fired]

end

/-! ### What a pass puts on record -/

def firedOf (events : List (Event T C)) : List T :=
  events.filterMap fun
    | .fired t _ => some t
    | .called _ _ => none

def eventTime : Event T C → ℕ
  | .called _ time => time
  | .fired _ time => time

/-- The calls that leave a timer stopped. -/
def halts : TimerCall T C → Bool
  | .stop _ => true
  | .close _ => true
  | _ => false

/-- What an event of a pass does to the books: a firing begins with `uv_timer_again`. -/
def replayOne (b : Books T C) : Event T C → Books T C
  | .called call _ => (turn (b,[]) call).1
  | .fired t _ => (againTimer b t).note (.fired t (againTimer b t).time)

/-- The books after the events of a pass, from those at its start. -/
def replay (b : Books T C) (events : List (Event T C)) : Books T C := events.foldl replayOne b

/-- A pass over the timers that were due, from the books with these stopped. It fires them in order, each once and at
    the pass's time. A call that stops or restarts a timer keeps it from firing in what is left of the pass, and those
    that do not fire were stopped or restarted by the callback of one fired before. -/
structure Orderly (b : Books T C) (due : List T) (new : List (Event T C)) : Prop where
  inOrder : (firedOf new).Sublist due
  onTime : ∀ e ∈ new, eventTime e = b.time
  halted : ∀ front call τ back, new = front ++ .called call τ :: back → Stops (replay b front) call →
    TimerCall.target call ∉ firedOf back
  missed : ∀ t ∈ due, t ∉ firedOf new → ∃ front call τ back, new = front ++ .called call τ :: back ∧
    TimerCall.target call = t ∧ Stops (replay b front) call ∧ firedOf front ≠ []

section
variable {others : ℕ} {code : C → T → Books T C → List (TimerCall T C)}

theorem act_time (b : Books T C) (call : TimerCall T C) : (act b call).time = b.time := by
  cases call with
  | init t => rfl
  | start t cb timeout repeat_ => exact (sameBooks_startTimer b t cb timeout repeat_).time
  | stop t => exact (sameBooks_changeActive b t false).time
  | again t => exact (sameBooks_againTimer b t).time
  | setRepeat t repeat_ => rfl
  | ref t => exact (sameBooks_changeRef b t true).time
  | unref t => exact (sameBooks_changeRef b t false).time
  | close t => exact (sameBooks_changeActive _ t false).time

theorem act_events (b : Books T C) (call : TimerCall T C) : (act b call).events = b.events := by
  cases call with
  | init t => rfl
  | start t cb timeout repeat_ => exact (sameBooks_startTimer b t cb timeout repeat_).events
  | stop t => exact (sameBooks_changeActive b t false).events
  | again t => exact (sameBooks_againTimer b t).events
  | setRepeat t repeat_ => rfl
  | ref t => exact (sameBooks_changeRef b t true).events
  | unref t => exact (sameBooks_changeRef b t false).events
  | close t => exact (sameBooks_changeActive _ t false).events

private theorem foldl_turn_time (calls : List (TimerCall T C)) (b : Books T C) (q : List T) :
    (calls.foldl turn (b,q)).1.time = b.time := by
  induction calls generalizing b q with
  | nil => rfl
  | cons call calls ih => exact (ih _ _).trans (act_time b call)

private theorem foldl_turn_events (calls : List (TimerCall T C)) (b : Books T C) (q : List T) :
    (calls.foldl turn (b,q)).1.events = b.events ++ calls.map (.called · b.time) := by
  induction calls generalizing b q with
  | nil => simp
  | cons call calls ih =>
    have first : (turn (b,q) call).1.events = b.events ++ [.called call b.time] := by
      simp [turn,Books.note,act_events,act_time]
    have now : (turn (b,q) call).1.time = b.time := act_time b call
    rw [List.foldl_cons,ih,first,now]
    simp

private theorem replay_calls (calls : List (TimerCall T C)) (time : ℕ) (b : Books T C) (q : List T) :
    replay b (calls.map (.called · time)) = (calls.foldl turn (b,q)).1 := by
  induction calls generalizing b q with
  | nil => rfl
  | cons call calls ih => exact ih (turn (b,q) call).1 (turn (b,q) call).2

/-- A timer that has left the queue was stopped by one of the calls. -/
private theorem left_queue {calls : List (TimerCall T C)} {b : Books T C} {q : List T} {t : T} (inside : t ∈ q)
    (left : t ∉ (calls.foldl turn (b,q)).2) : ∃ before call after, calls = before ++ call :: after ∧
      TimerCall.target call = t ∧ Stops (before.foldl turn (b,q)).1 call := by
  induction calls generalizing b q with
  | nil => exact absurd inside left
  | cons call calls ih =>
    by_cases still : t ∈ queueAfter b q call
    · obtain ⟨before,call',after,rfl,isT,stops⟩ := ih still left
      exact ⟨call :: before,call',after,rfl,isT,stops⟩
    · unfold queueAfter at still
      split at still
      · rename_i stops
        refine ⟨[],call,calls,rfl,?_,stops⟩
        by_contra other
        exact still ((List.mem_erase_of_ne fun same => other same.symm).mpr inside)
      · exact absurd inside still

/-- A timer that a call has stopped is not on the queue afterwards, though the call may have started it again. -/
private theorem halted_queue {before after : List (TimerCall T C)} {call : TimerCall T C} {b : Books T C} {q : List T}
    (distinct : q.Nodup) (stops : Stops (before.foldl turn (b,q)).1 call) :
    TimerCall.target call ∉ ((before ++ call :: after).foldl turn (b,q)).2 := by
  rw [List.foldl_append,List.foldl_cons]
  have left := distinct.sublist (foldl_turn_sublist before b q)
  have gone : TimerCall.target call ∉ (turn (before.foldl turn (b,q)) call).2 := by
    show _ ∉ queueAfter _ _ call
    rw [queueAfter,if_pos stops]
    exact left.not_mem_erase
  exact fun inside => gone ((foldl_turn_sublist after _ _).subset inside)

omit [DecidableEq T] in
@[simp] theorem firedOf_nil : firedOf ([] : List (Event T C)) = [] := rfl

omit [DecidableEq T] in
@[simp] theorem firedOf_append (xs ys : List (Event T C)) : firedOf (xs ++ ys) = firedOf xs ++ firedOf ys :=
  List.filterMap_append

omit [DecidableEq T] in
@[simp] theorem firedOf_calls (calls : List (TimerCall T C)) (time : ℕ) :
    firedOf (calls.map (Event.called · time)) = [] := by
  simp [firedOf]

omit [DecidableEq T] in
@[simp] theorem firedOf_fired (t : T) (time : ℕ) (rest : List (Event T C)) :
    firedOf (.fired t time :: rest) = t :: firedOf rest := rfl

omit [DecidableEq T] in
@[simp] theorem firedOf_called (call : TimerCall T C) (time : ℕ) (rest : List (Event T C)) :
    firedOf (.called call time :: rest) = firedOf rest := rfl

/-- The books once a timer has fired and its callback has made its calls. -/
private theorem replay_fired (b : Books T C) (q : List T) (t : T) (calls : List (TimerCall T C)) (time : ℕ) (rest : List (Event T C)) :
    replay b (.fired t time :: (calls.map (.called · time) ++ rest)) =
      replay (calls.foldl turn ((againTimer b t).note (.fired t (againTimer b t).time),q)).1 rest := by
  rw [← replay_calls calls time]
  simp [replay,replayOne]

/-- An orderly pass over what a callback left on the queue, with the firing and the calls before it. -/
theorem Orderly.cons {b b' : Books T C} {q : List T} {t : T} {calls : List (TimerCall T C)} {new : List (Event T C)}
    (fires : b' = (againTimer b t).note (.fired t (againTimer b t).time)) (distinct : (t :: q).Nodup)
    (rest : Orderly (calls.foldl turn (b',q)).1 (calls.foldl turn (b',q)).2 new) :
    Orderly b (t :: q) (.fired t b.time :: (calls.map (.called · b.time) ++ new)) where
  inOrder := by
    simp only [firedOf_fired,firedOf_append,firedOf_calls,List.nil_append]
    exact (rest.inOrder.trans (foldl_turn_sublist calls b' q)).cons_cons t
  onTime := by
    intro e inside
    simp only [List.mem_cons,List.mem_append,List.mem_map] at inside
    rcases inside with rfl | ⟨call,_,rfl⟩ | later
    · rfl
    · rfl
    · rw [rest.onTime e later,foldl_turn_time,fires]
      exact (sameBooks_againTimer b t).time
  halted := by
    intro front call τ back split stops
    cases front with
    | nil => simp at split
    | cons e front =>
      simp only [List.cons_append,List.cons.injEq] at split
      obtain ⟨rfl,split⟩ := split
      rcases List.append_eq_append_iff.mp split with ⟨mid,rfl,isNew⟩ | ⟨mid,isCalls,isBack⟩
      · rw [replay_fired b q,← fires] at stops
        exact rest.halted mid call τ back isNew stops
      · cases mid with
        | nil =>
          rw [List.append_nil] at isCalls
          rw [← isCalls,← List.append_nil (calls.map _),replay_fired b q,← fires] at stops
          exact rest.halted [] call τ back (by simpa using isBack.symm) stops
        | cons e' mid =>
          simp only [List.cons_append,List.cons.injEq] at isBack
          obtain ⟨rfl,rfl⟩ := isBack
          obtain ⟨before,others,rfl,rfl,isRest⟩ := List.map_eq_append_iff.mp isCalls
          obtain ⟨call',after,rfl,same,rfl⟩ := List.map_eq_cons_iff.mp isRest
          cases same
          rw [firedOf_append,firedOf_calls,List.nil_append]
          rw [← List.append_nil (before.map _),replay_fired b q,← fires] at stops
          have gone : TimerCall.target call ∉ ((before ++ call :: after).foldl turn (b',q)).2 :=
            halted_queue (List.nodup_cons.mp distinct).2 stops
          exact fun fired => gone (rest.inOrder.subset fired)
  missed := by
    intro u waits notFired
    simp only [firedOf_fired,firedOf_append,firedOf_calls,List.nil_append,List.mem_cons,not_or] at notFired
    have inside : u ∈ q := (List.mem_cons.mp waits).resolve_left notFired.1
    by_cases still : u ∈ (calls.foldl turn (b',q)).2
    · obtain ⟨front,call,τ,back,split,isU,stops,_⟩ := rest.missed u still notFired.2
      refine ⟨.fired t b.time :: (calls.map (.called · b.time) ++ front),call,τ,back,?_,isU,?_,by simp⟩
      · simp [split]
      · rwa [replay_fired b q,← fires]
    · obtain ⟨before,call,after,rfl,isU,stops⟩ := left_queue inside still
      refine ⟨.fired t b.time :: (before.map (.called · b.time) ++ []),call,b.time,after.map (.called · b.time) ++ new,?_,isU,
        ?_,by simp⟩
      · simp
      · rwa [replay_fired b q,← fires]

private theorem orderly_nil (b : Books T C) : Orderly b ([] : List T) ([] : List (Event T C)) :=
  ⟨by simp [firedOf],by simp,by simp,by simp⟩

private theorem sound_turns {b : Books T C} {q : List T} (sound : Sound others b q) {calls : List (TimerCall T C)}
    (allowed : AllAllowed b calls) : Sound others (calls.foldl turn (b,q)).1 (calls.foldl turn (b,q)).2 := by
  induction calls generalizing b q with
  | nil => exact sound
  | cons call calls ih => exact ih ((sound_act sound allowed.1).congr rfl rfl rfl rfl) allowed.2

/-- The timer at the head of the queue, off it and started again if it repeats. -/
private theorem sound_fired {b : Books T C} {q : List T} {t : T} (sound : Sound others b (t :: q)) :
    Sound others ((againTimer b t).note (.fired t (againTimer b t).time)) q := by
  have alone := sound.erase t
  rw [List.erase_cons_head] at alone
  have again := sound_again alone (sound.waiting t (by simp)).1
  rw [queueAfter_again (List.nodup_cons.mp sound.distinct).1] at again
  exact again.congr rfl rfl rfl rfl

/-- Firing the timer at the head of the queue. -/
private theorem fireOne_orderly (lawful : Lawful code) {b : Books T C} {q : List T} {t : T} (sound : Sound others b (t :: q)) :
    Sound others (fireOne code b q t).1 (fireOne code b q t).2 ∧ ∃ calls : List (TimerCall T C),
      fireOne code b q t = calls.foldl turn ((againTimer b t).note (.fired t (againTimer b t).time),q) ∧
      (fireOne code b q t).1.time = b.time ∧
      (fireOne code b q t).1.events = b.events ++ .fired t b.time :: calls.map (.called · b.time) := by
  obtain ⟨cb,callback⟩ := Option.ne_none_iff_exists'.mp (sound.live t (.inr (by simp))).1
  obtain ⟨member,_⟩ := sound.waiting t (by simp)
  have same := sameBooks_againTimer b t
  have noted := sound_fired sound
  have allowed := lawful others cb t _ q noted (show t ∈ (againTimer b t).handleQueue from same.handleQueue.symm ▸ member)
  rw [fireOne_of_callback callback]
  refine ⟨sound_turns noted allowed,_,rfl,?_,?_⟩
  · rw [foldl_turn_time]
    exact same.time
  · rw [foldl_turn_events]
    simp [Books.note,same.time,same.events]

/-- What every call keeps, the calls of a callback keep. -/
private theorem turns_invariant (I : Books T C → List T → Prop)
    (turns : ∀ b q call, Sound others b q → I b q → Allowed b call → I (turn (b,q) call).1 (turn (b,q) call).2)
    {b : Books T C} {q : List T} (sound : Sound others b q) (start : I b q) {calls : List (TimerCall T C)}
    (allowed : AllAllowed b calls) : I (calls.foldl turn (b,q)).1 (calls.foldl turn (b,q)).2 := by
  induction calls generalizing b q with
  | nil => exact start
  | cons call calls ih =>
    exact ih ((sound_act sound allowed.1).congr rfl rfl rfl rfl) (turns b q call sound start allowed.1) allowed.2

/-- What every call and the firing of the timer at the head of the queue keep holds when all on the queue have fired. -/
theorem fireList_invariant (lawful : Lawful code) (I : Books T C → List T → Prop)
    (turns : ∀ b q call, Sound others b q → I b q → Allowed b call → I (turn (b,q) call).1 (turn (b,q) call).2)
    (fires : ∀ b q t, Sound others b (t :: q) → I b (t :: q) →
      I ((againTimer b t).note (.fired t (againTimer b t).time)) q)
    (n : ℕ) {b : Books T C} {q : List T} (sound : Sound others b q) (start : I b q) (short : q.length ≤ n) :
    I (fireList code n b q) [] := by
  induction n generalizing b q with
  | zero =>
    obtain rfl : q = [] := List.eq_nil_of_length_eq_zero (by omega)
    exact start
  | succ n ih =>
    cases q with
    | nil => exact start
    | cons t q =>
      obtain ⟨sound',_⟩ := fireOne_orderly lawful sound
      obtain ⟨cb,callback⟩ := Option.ne_none_iff_exists'.mp (sound.live t (.inr (by simp))).1
      obtain ⟨member,_⟩ := sound.waiting t (by simp)
      have noted := sound_fired sound
      have shorter : (fireOne code b q t).2.length ≤ q.length := (fireOne_sublist b q t).length_le
      rw [List.length_cons] at short
      refine ih sound' ?_ (by omega)
      rw [fireOne_of_callback callback]
      exact turns_invariant I turns noted (fires b q t sound start) (lawful others cb t _ q noted
        (show t ∈ (againTimer b t).handleQueue from (sameBooks_againTimer b t).handleQueue.symm ▸ member))

/-- Firing the timers on the queue adds an orderly pass to the history, and leaves the books that the pass leads to. -/
theorem fireList_orderly (lawful : Lawful code) (n : ℕ) {b : Books T C} {q : List T} (sound : Sound others b q)
    (short : q.length ≤ n) : (fireList code n b q).time = b.time ∧ ∃ new, (fireList code n b q).events = b.events ++ new ∧
      fireList code n b q = replay b new ∧ Orderly b q new := by
  induction n generalizing b q with
  | zero =>
    obtain rfl : q = [] := List.eq_nil_of_length_eq_zero (by omega)
    exact ⟨rfl,[],by simp [fireList],rfl,orderly_nil b⟩
  | succ n ih =>
    cases q with
    | nil => exact ⟨rfl,[],by simp [fireList],rfl,orderly_nil b⟩
    | cons t q =>
      obtain ⟨sound',calls,fired,time,events⟩ := fireOne_orderly lawful sound
      have shorter : (fireOne code b q t).2.length ≤ q.length := (fireOne_sublist b q t).length_le
      rw [List.length_cons] at short
      obtain ⟨time',new,events',leads,orderly⟩ := ih sound' (by omega)
      refine ⟨time'.trans time,.fired t b.time :: (calls.map (.called · b.time) ++ new),?_,?_,?_⟩
      · rw [fireList,events',events]
        simp
      · rw [fireList,leads,replay_fired b q,← fired]
      · rw [fired] at orderly
        exact Orderly.cons rfl sound.distinct orderly

end

end Armd.TimerPass
