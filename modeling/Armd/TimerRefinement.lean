import Armd.HeapOperations
import Armd.TimerBooks

/-!
The timer functions of libuv do to their pointers what the books say. A loop is
in good order when its heap holds exactly the active timers, the queue of a
running `uv__run_timers` is a ring of the timers that wait, and every other
timer is alone (`Good`). Every call that a program is allowed returns, keeps the
loop in good order and changes the books as `act` does.
-/
namespace Armd.TimerRefinement
open Armd.Programs Armd.Programs.Program Armd.LinkedRings Armd.BinaryHeap Armd.HeapOrder Armd.HeapShape
  Armd.HeapOperations Armd.UvQueue Armd.Timers Armd.TimerBooks

section
variable {N : Type} {K : Type} [LinearOrder K]

/-- A heap keeps what it holds while its own nodes and their keys stay the same. -/
theorem holds_frame {key key' : N → K} {h g : HeapState N} {S : Set N} (holds : Holds key h S) (nelts : g.nelts = h.nelts)
    (min : g.min = h.min) (nodes : ∀ x ∈ S, g.nodes x = h.nodes x) (keys : ∀ x ∈ S, key' x = key x) : Holds key' g S := by
  obtain ⟨cells,complete,ordered,rfl⟩ := holds
  have same := complete.frame nelts min nodes
  rw [← nelts] at ordered keys same ⊢
  refine Complete.holds same fun i below last => ?_
  rw [keys _ (mem_filled cells (by omega) last),keys _ (mem_filled cells (by omega) (by omega))]
  exact ordered i below last

private theorem uvQueueRemove_alone [DecidableEq N] {h : Heap N} {q : N} (alone : Alone h q) : uvQueueRemove h q = some h := by
  obtain ⟨next,prev⟩ := (alone_iff h q).mp alone
  simp only [uvQueueRemove,prev,next,setNext_next,if_true,setNext_prev,Option.bind_eq_bind,Option.bind_some,Option.pure_def]
  congr 1
  apply heap_ext
  · intro x
    by_cases same : x = q
    · subst same; simp [next]
    · simp [same]
  · intro x
    by_cases same : x = q
    · subst same; simp [prev]
    · simp [same]

private theorem uvQueueInit_same [DecidableEq N] {h : Heap N} {q : N} (alone : Alone h q) : uvQueueInit h q = h := by
  obtain ⟨next,prev⟩ := (alone_iff h q).mp alone
  funext x
  by_cases same : x = q
  · subst same
    exact links_ext (by simp [uvQueueInit,next]) (by simp [uvQueueInit,prev])
  · exact uvQueueInit_of_ne h same

end

variable {T C : Type} [DecidableEq T]

omit [DecidableEq T] in
@[simp] theorem links_withLinks (h : HeapState (Node T)) (g : Heap (Node T)) : links (withLinks h g) = g := rfl

omit [DecidableEq T] in
@[simp] theorem withLinks_links (h : HeapState (Node T)) : withLinks h (links h) = h := rfl

omit [DecidableEq T] in
private theorem withLinks_nodes {h : HeapState (Node T)} {g : Heap (Node T)} {x : Node T} (same : g x = links h x) :
    (withLinks h g).nodes x = h.nodes x := by
  simp [withLinks,same,links]

def ActiveNodes (timers : T → UvTimer C) : Set (Node T) := {x | ∃ t, x = .timer t ∧ (timers t).active = true}

omit [DecidableEq T] in
theorem timer_mem_activeNodes {timers : T → UvTimer C} {t : T} :
    Node.timer t ∈ ActiveNodes timers ↔ (timers t).active = true := by
  constructor
  · rintro ⟨u,same,up⟩; cases same; exact up
  · intro up; exact ⟨t,rfl,up⟩

omit [DecidableEq T] in
private theorem timerLessThan_compares (timers : T → UvTimer C) : Compares (timerLessThan timers) (order timers) := by
  intro a b
  simp only [timerLessThan,order,Prod.Lex.toLex_lt_toLex]
  by_cases less : (containerOf timers a).timeout < (containerOf timers b).timeout
  · simp [less]
  · by_cases more : (containerOf timers b).timeout < (containerOf timers a).timeout
    · have other : (containerOf timers a).timeout ≠ (containerOf timers b).timeout := by omega
      simp [less,more,other]
    · have same : (containerOf timers a).timeout = (containerOf timers b).timeout := by omega
      simp [same]

/-- The pointers of a loop are those of its books and of the timers that wait on the queue, if there is one. -/
structure Good (others : ℕ) (w : TimerLoop T C) (q : Option (List T)) : Prop where
  sound : Sound others w.toBooks (q.getD [])
  heap : Holds (order w.timers) w.timerHeap (ActiveNodes w.timers)
  size : w.timerHeap.nelts = w.handleQueue.countP fun t => (w.timers t).active
  alone : ∀ t ∈ w.handleQueue, (w.timers t).active = false → t ∉ q.getD [] → Alone (links w.timerHeap) (.timer t)
  ring : ∀ l, q = some l → Ring (links w.timerHeap) .readyQueue (l.map .timer)

section
variable {others : ℕ} {w : TimerLoop T C} {q : Option (List T)} {t : T}

omit [DecidableEq T] in
theorem Good.room (good : Good others w q) : w.timerHeap.nelts+1 < uintMax := by
  have size := good.size
  have room := good.sound.room
  have count : w.handleQueue.countP (fun t => (w.timers t).active) ≤ w.handleQueue.length := List.countP_le_length
  omega

omit [DecidableEq T] in
theorem order_update {timers : T → UvTimer C} {timers' : T → UvTimer C} {x : Node T}
    (same : ∀ t, x = .timer t → (timers' t).timeout = (timers t).timeout ∧ (timers' t).startId = (timers t).startId) :
    order timers' x = order timers x := by
  cases x with
  | readyQueue => rfl
  | timer t => simp only [order,containerOf,(same t rfl).1,(same t rfl).2]

omit [DecidableEq T] in
theorem Good.depth (good : Good others w q) : w.timerHeap.nelts+1 < 2^heapDepth := good.room

private theorem activeNodes_changeActive (b : Books T C) (t : T) (on : Bool) :
    ActiveNodes (b.changeActive t on).timers =
      if on then insert (Node.timer t) (ActiveNodes b.timers) else ActiveNodes b.timers \ {Node.timer t} := by
  ext x
  cases x with
  | readyQueue => cases on <;> simp [ActiveNodes]
  | timer u =>
    rw [timer_mem_activeNodes,changeActive_timers]
    by_cases same : u = t
    · subst same
      cases on <;> simp
    · rw [Function.update_of_ne same]
      cases on <;> simp [same,timer_mem_activeNodes]

private theorem order_changeActive (b : Books T C) (t : T) (on : Bool) (x : Node T) :
    order (b.changeActive t on).timers x = order b.timers x := by
  refine order_update fun u _ => ?_
  rw [changeActive_timers]
  by_cases same : u = t
  · subst same; simp
  · simp [Function.update_of_ne same]

theorem countP_changeActive {b : Books T C} {l : List T} (sound : Sound others b l) (member : t ∈ b.handleQueue)
    (on : Bool) : (b.changeActive t on).handleQueue.countP (fun u => ((b.changeActive t on).timers u).active) +
      (if (b.timers t).active then 1 else 0) = b.handleQueue.countP (fun u => (b.timers u).active) + if on then 1 else 0 := by
  have change : b.handleQueue.countP (fun u => ((b.changeActive t on).timers u).active) + _ =
      b.handleQueue.countP (fun u => (b.timers u).active) + _ :=
    countP_change sound.nodup member fun u other => by simp only [changeActive_timers,Function.update_of_ne other]
  rw [(sameBooks_changeActive b t on).handleQueue]
  simpa using change

omit [DecidableEq T] in
private theorem links_congr {h g : HeapState (Node T)} {x : Node T} (same : g.nodes x = h.nodes x) : links g x = links h x := by
  simp only [links,same]

private theorem erase_getD (q : Option (List T)) (t : T) : (q.map (·.erase t)).getD [] = (q.getD []).erase t := by
  cases q <;> rfl

omit [DecidableEq T] in
private theorem timer_mem_queue {l : List T} : Node.timer t ∈ Node.readyQueue :: l.map Node.timer ↔ t ∈ l := by
  simp

omit [DecidableEq T] in
/-- The nodes that wait, and the head of the queue they wait on, are in no heap. -/
theorem Good.queue_not_active (good : Good others w q) {l : List T} (running : q = some l) :
    ∀ x ∈ Node.readyQueue :: l.map Node.timer, x ∉ ActiveNodes w.timers := by
  intro x inside
  rcases List.mem_cons.mp inside with rfl | waits
  · rintro ⟨t,same,_⟩; cases same
  · obtain ⟨u,waiting,rfl⟩ := List.mem_map.mp waits
    have idle := (good.sound.waiting u (by rw [running]; exact waiting)).2
    rw [timer_mem_activeNodes,idle]
    simp

/-- Stopping an active timer takes it out of the heap. -/
theorem uvTimerStop_active (good : Good others w q) (up : (w.timers t).active = true) :
    ∃ h, uvTimerStop t w = .done 0 ⟨w.toBooks.uvHandleStop t,h⟩ ∧
      Good others ⟨w.toBooks.uvHandleStop t,h⟩ (q.map (·.erase t)) := by
  have member := good.sound.known t up
  have room := good.room
  have depth := good.depth
  obtain ⟨h₁,removed,holds,size,frame⟩ := heapRemove_holds (timerLessThan_compares w.timers) good.heap
    (timer_mem_activeNodes.mpr up) (by omega : w.timerHeap.nelts < uintMax)
    (by omega : w.timerHeap.nelts < 2^heapDepth)
  obtain ⟨h₂,h₂Is⟩ : ∃ h, h = withLinks h₁ (uvQueueInit (links h₁) (.timer t)) := ⟨_,rfl⟩
  have run : uvTimerStop t w = .done 0 ⟨w.toBooks.uvHandleStop t,h₂⟩ := by
    simp [uvTimerStop,up,onHeap,removed,onBooks,onQueue,h₂Is]
  have away : ∀ x, x ≠ .timer t → h₂.nodes x = h₁.nodes x := fun x other => by
    rw [h₂Is]
    exact withLinks_nodes (uvQueueInit_of_ne _ other)
  have notWaiting : t ∉ q.getD [] := fun waits => by
    have := (good.sound.waiting t waits).2
    rw [up] at this
    cases this
  have apart : ∀ x, x ∉ ActiveNodes w.timers → links h₂ x = links w.timerHeap x := fun x outside =>
    links_congr ((away x fun same => outside (same ▸ timer_mem_activeNodes.mpr up)).trans (frame x outside))
  refine ⟨h₂,run,?_,?_,?_,?_,?_⟩
  · rw [erase_getD]
    exact (sound_stop good.sound member).erase t
  · have active := activeNodes_changeActive w.toBooks t false
    rw [if_neg (by simp)] at active
    refine holds_frame (active ▸ holds) (by rw [h₂Is]; rfl) (by rw [h₂Is]; rfl) (fun x inside => away x fun same => ?_)
      fun x _ => order_changeActive w.toBooks t false x
    exact (active ▸ inside : x ∈ ActiveNodes w.timers \ {Node.timer t}).2 same
  · have count := countP_changeActive good.sound member false
    have before := good.size
    have after : h₂.nelts = h₁.nelts := by rw [h₂Is]; rfl
    simp only [up,if_true,Bool.false_eq_true,if_false] at count
    change h₂.nelts = (w.toBooks.changeActive t false).handleQueue.countP fun u =>
      ((w.toBooks.changeActive t false).timers u).active
    omega
  · intro u inside idle notIn
    rw [erase_getD] at notIn
    by_cases same : u = t
    · rw [same,h₂Is,links_withLinks]
      exact uvQueueInit_alone _ _
    · have idle' : (w.timers u).active = false := by
        simpa [Books.uvHandleStop,Function.update_of_ne same] using idle
      have inside' : u ∈ w.handleQueue := by
        rw [← (sameBooks_changeActive w.toBooks t false).handleQueue]
        exact inside
      have notIn' : u ∉ q.getD [] := fun waits => notIn (List.mem_erase_of_ne same |>.mpr waits)
      exact alone_congr (good.alone u inside' idle' notIn') (apart _ (by rw [timer_mem_activeNodes,idle']; simp))
  · intro l running
    cases q with
    | none => cases running
    | some l₀ =>
      cases running
      have rest : l₀.erase t = l₀ := List.erase_of_not_mem notWaiting
      show LinkedRings.Ring (links h₂) .readyQueue ((l₀.erase t).map Node.timer)
      rw [rest]
      exact (good.ring l₀ rfl).frame fun x on => apart x (good.queue_not_active rfl x on)

omit [DecidableEq T] in
/-- Queue links written outside the heap leave a loop in good order whose queue and single timers are in order. -/
theorem Good.relink (good : Good others w q) {g : Heap (Node T)} {q' : Option (List T)}
    (frame : ∀ x ∈ ActiveNodes w.timers, g x = links w.timerHeap x) (sound : Sound others w.toBooks (q'.getD []))
    (alone : ∀ t ∈ w.handleQueue, (w.timers t).active = false → t ∉ q'.getD [] → Alone g (.timer t))
    (ring : ∀ l, q' = some l → Ring g .readyQueue (l.map .timer)) :
    Good others ⟨w.toBooks,withLinks w.timerHeap g⟩ q' where
  sound := sound
  heap := holds_frame good.heap rfl rfl (fun x inside => withLinks_nodes (frame x inside)) fun _ _ => rfl
  size := good.size
  alone := alone
  ring := ring

private theorem stop_inactive {b : Books T C} (idle : (b.timers t).active = false) : b.uvHandleStop t = b := by
  rw [Books.uvHandleStop,Books.changeActive,if_pos idle]

/-- Stopping a timer that waits takes it off the queue; one that is alone stays so. -/
theorem uvTimerStop_inactive (good : Good others w q) (member : t ∈ w.handleQueue) (idle : (w.timers t).active = false) :
    ∃ h, uvTimerStop t w = .done 0 ⟨w.toBooks,h⟩ ∧ Good others ⟨w.toBooks,h⟩ (q.map (·.erase t)) := by
  by_cases waits : t ∈ q.getD []
  · cases q with
    | none => cases waits
    | some l =>
      obtain ⟨front,back,rfl⟩ := List.append_of_mem (waits : t ∈ l)
      have split := good.ring _ rfl
      have distinct := good.sound.distinct
      rw [Option.getD_some] at distinct
      have notFront : t ∉ front := fun early => (List.nodup_append.mp distinct).2.2 t early t (by simp) rfl
      have rest : (front ++ t :: back).erase t = front ++ back := by
        rw [List.erase_append_right _ notFront,List.erase_cons_head]
      rw [List.map_append,List.map_cons] at split
      obtain ⟨g,removed,left,frame⟩ := uvQueueRemove_ring split
      have notOn : Node.timer t ∉ Node.readyQueue :: (front.map Node.timer ++ back.map Node.timer) := by
        have all := split.nodup
        rw [← List.cons_append,List.nodup_middle,List.cons_append] at all
        exact (List.nodup_cons.mp all).1
      have kept : ∀ x ∉ Node.readyQueue :: (front ++ t :: back).map Node.timer,
          uvQueueInit g (.timer t) x = links w.timerHeap x := fun x outside => by
        rw [List.map_append,List.map_cons] at outside
        rw [uvQueueInit_of_ne g fun same => outside (by simp [same])]
        exact frame x fun inside => outside (by
          rcases List.mem_cons.mp inside with head | later
          · simp [head]
          · rcases List.mem_append.mp later with early | late
            · exact List.mem_cons_of_mem _ (List.mem_append_left _ early)
            · exact List.mem_cons_of_mem _ (List.mem_append_right _ (List.mem_cons_of_mem _ late)))
      refine ⟨withLinks w.timerHeap (uvQueueInit g (.timer t)),?_,good.relink (fun x active => ?_) ?_ ?_ ?_⟩
      · simp [uvTimerStop,idle,onQueue,removed]
        rfl
      · exact kept x fun inside => good.queue_not_active rfl x inside active
      · exact good.sound.erase t
      · intro u inside idle' notIn
        by_cases same : u = t
        · rw [same]; exact uvQueueInit_alone _ _
        · have notIn' : u ∉ front ++ t :: back := fun waits => notIn ((List.mem_erase_of_ne same).mpr waits)
          exact alone_congr (good.alone u inside idle' notIn') (kept _ fun inside => notIn' (timer_mem_queue.mp inside))
      · intro l' running
        cases running
        show LinkedRings.Ring _ _ (((front ++ t :: back).erase t).map Node.timer)
        rw [rest,List.map_append]
        exact left.frame fun x on => uvQueueInit_of_ne g fun same => notOn (same ▸ on)
  · have alone := good.alone t member idle waits
    have same : q.map (·.erase t) = q := by
      cases q with
      | none => rfl
      | some l => exact congrArg some (List.erase_of_not_mem waits)
    refine ⟨w.timerHeap,?_,by rw [same]; exact good⟩
    have removed := uvQueueRemove_alone alone
    simp [uvTimerStop,idle,onQueue,removed,uvQueueInit_same alone]

/-- Stopping a timer stops its handle, and takes it out of the heap or off the queue, wherever it is. -/
private theorem uvTimerStop_good (good : Good others w q) (member : t ∈ w.handleQueue) :
    ∃ h, uvTimerStop t w = .done 0 ⟨w.toBooks.uvHandleStop t,h⟩ ∧
      Good others ⟨w.toBooks.uvHandleStop t,h⟩ (q.map (·.erase t)) := by
  cases up : (w.timers t).active with
  | true => exact uvTimerStop_active good up
  | false => rw [stop_inactive up]; exact uvTimerStop_inactive good member up

/-- A timer that is inactive and waits nowhere, with new times, goes into the heap and becomes active. -/
private theorem insert_armed (good : Good others w q) (member : t ∈ w.handleQueue) (idle : (w.timers t).active = false)
    (notWaiting : t ∉ q.getD []) {cb : Option C} (callback : cb ≠ none) (open_ : (w.timers t).closing = false)
    (timeout repeat_ : ℕ) :
    ∃ h, heapInsert (timerLessThan (w.toBooks.armTimer t cb timeout repeat_).timers) heapDepth (.timer t) w.timerHeap =
        .done () h ∧
      Good others ⟨(w.toBooks.armTimer t cb timeout repeat_).uvHandleStart t,h⟩ q := by
  obtain ⟨b,bIs⟩ : ∃ b, b = w.toBooks.armTimer t cb timeout repeat_ := ⟨_,rfl⟩
  rw [← bIs]
  have timers : ∀ u, u ≠ t → b.timers u = w.timers u := fun u other => by
    rw [bIs]; simp [Books.armTimer,Books.setTimer,other]
  have here : (b.timers t).active = false ∧ (b.timers t).timerCb = cb ∧ (b.timers t).closing = false := by
    rw [bIs]; simp [Books.armTimer,Books.setTimer,idle,open_]
  have queue : b.handleQueue = w.handleQueue := by rw [bIs]; rfl
  have sameActive : ActiveNodes b.timers = ActiveNodes w.timers := by
    ext x
    cases x with
    | readyQueue => simp [ActiveNodes]
    | timer u =>
      rw [timer_mem_activeNodes,timer_mem_activeNodes]
      by_cases same : u = t
      · rw [same,here.1,idle]
      · rw [timers u same]
  have sound : Sound others b (q.getD []) := bIs ▸ sound_arm good.sound member idle callback timeout repeat_
  have fresh : Node.timer t ∉ ActiveNodes w.timers := by rw [timer_mem_activeNodes,idle]; simp
  have keyed : Holds (order b.timers) w.timerHeap (ActiveNodes w.timers) :=
    holds_frame good.heap rfl rfl (fun _ _ => rfl) fun x inside => order_update fun u same => by
      rw [timers u fun isT => fresh (isT ▸ same ▸ inside)]
      exact ⟨rfl,rfl⟩
  obtain ⟨h,inserted,holds,size,frame⟩ := heapInsert_holds (timerLessThan_compares b.timers) keyed fresh good.room good.depth
  have active := activeNodes_changeActive b t true
  rw [if_pos rfl,sameActive] at active
  have apart : ∀ x, x ≠ .timer t → x ∉ ActiveNodes w.timers → links h x = links w.timerHeap x := fun x other outside =>
    links_congr (frame x fun inside => inside.elim other outside)
  refine ⟨h,inserted,?_,?_,?_,?_,?_⟩
  · exact sound_changeActive sound (queue.symm ▸ member) true fun _ => ⟨notWaiting,here.2.1 ▸ callback,here.2.2⟩
  · exact holds_frame (active ▸ holds) rfl rfl (fun _ _ => rfl) fun x _ => order_changeActive b t true x
  · have count := countP_changeActive sound (queue.symm ▸ member) true
    have idle' := here.1
    have before : w.handleQueue.countP (fun u => (w.timers u).active) = b.handleQueue.countP fun u => (b.timers u).active := by
      rw [queue]
      refine List.countP_congr fun u _ => ?_
      by_cases same : u = t
      · rw [same,idle,idle']
      · rw [timers u same]
    have whole := good.size
    simp only [idle',Bool.false_eq_true,if_false,if_true] at count
    change h.nelts = (b.changeActive t true).handleQueue.countP fun u => ((b.changeActive t true).timers u).active
    omega
  · intro u inside idle' notIn
    have other : u ≠ t := by
      rintro rfl
      simp [Books.uvHandleStart] at idle'
    have before : (w.timers u).active = false := by
      rw [← timers u other]
      simpa [Books.uvHandleStart,Function.update_of_ne other] using idle'
    have inside' : u ∈ w.handleQueue := by
      rw [← queue,← (sameBooks_changeActive b t true).handleQueue]
      exact inside
    exact alone_congr (good.alone u inside' before notIn)
      (apart _ (fun same => other (Node.timer.inj same)) (by rw [timer_mem_activeNodes,before]; simp))
  · intro l running
    refine (good.ring l running).frame fun x on => apart x (fun same => ?_) (good.queue_not_active running x on)
    subst same
    exact notWaiting (by rw [running]; exact timer_mem_queue.mp on)

/-- A start is refused without a trace, or leaves the timer in the heap under its new times. -/
private theorem uvTimerStart_good (good : Good others w q) (member : t ∈ w.handleQueue) (cb : Option C) (timeout repeat_ : ℕ) :
    ∃ r h, uvTimerStart t cb timeout repeat_ w = .done r ⟨startTimer w.toBooks t cb timeout repeat_,h⟩ ∧
      Good others ⟨startTimer w.toBooks t cb timeout repeat_,h⟩
        (q.map (queueAfter w.toBooks · (.start t cb timeout repeat_))) := by
  by_cases refused : (w.timers t).closing ∨ (w.timers t).closed ∨ cb.isNone
  · have same : q.map (queueAfter w.toBooks · (.start t cb timeout repeat_)) = q := by
      have stays : ∀ l : List T, queueAfter w.toBooks l (.start t cb timeout repeat_) = l := fun l =>
        if_neg fun stops : Stops w.toBooks (.start t cb timeout repeat_) => stops refused
      cases q <;> simp [stays]
    have started : startTimer w.toBooks t cb timeout repeat_ = w.toBooks := if_pos refused
    rw [started,same]
    refine ⟨uvEinval,w.timerHeap,?_,good⟩
    simp only [uvTimerStart,bind_run,get_run,Outcome.andThen_done,ite_run,refused,if_true,pure_run]
  · have stops : ∀ l : List T, queueAfter w.toBooks l (.start t cb timeout repeat_) = l.erase t := fun l =>
      if_pos (show Stops w.toBooks (.start t cb timeout repeat_) from refused)
    have callback : cb ≠ none := fun none => refused (.inr (.inr (by rw [none]; rfl)))
    have open_ : (w.timers t).closing = false := by
      cases up : (w.timers t).closing with
      | false => rfl
      | true => exact absurd (.inl up) refused
    obtain ⟨h₁,stopped,good₁⟩ := uvTimerStop_good good member
    have queue := (sameBooks_changeActive w.toBooks t false).handleQueue
    have notWaiting : t ∉ (q.map (·.erase t)).getD [] := by
      rw [erase_getD]
      exact good.sound.distinct.not_mem_erase
    obtain ⟨h₂,inserted,good₂⟩ := insert_armed good₁ (show t ∈ (w.toBooks.uvHandleStop t).handleQueue from queue ▸ member)
      (by simp [Books.uvHandleStop]) notWaiting callback (by simpa [Books.uvHandleStop] using open_) timeout repeat_
    have started : startTimer w.toBooks t cb timeout repeat_ =
        ((w.toBooks.uvHandleStop t).armTimer t cb timeout repeat_).uvHandleStart t := if_neg refused
    rw [started]
    simp only [stops]
    refine ⟨0,h₂,?_,good₂⟩
    simp only [uvTimerStart,bind_run,get_run,Outcome.andThen_done,ite_run,refused,if_false,stopped,onBooks,change_run,
      onHeap,inserted,pure_run]

omit [DecidableEq T] in
/-- Other books for the same pointers, with the same handles active at the same times. -/
theorem Good.rebook (good : Good others w q) {b : Books T C} (sound : Sound others b (q.getD []))
    (queue : b.handleQueue = w.handleQueue)
    (same : ∀ u, (b.timers u).active = (w.timers u).active ∧ (b.timers u).timeout = (w.timers u).timeout ∧
      (b.timers u).startId = (w.timers u).startId) : Good others ⟨b,w.timerHeap⟩ q where
  sound := sound
  heap := by
    have active : ActiveNodes b.timers = ActiveNodes w.timers := by
      ext x
      simp only [ActiveNodes,(same _).1]
    exact holds_frame (active.symm ▸ good.heap) rfl rfl (fun _ _ => rfl) fun x _ => order_update fun u _ => (same u).2
  size := by
    show w.timerHeap.nelts = b.handleQueue.countP fun u => (b.timers u).active
    simp only [queue,(same _).1]
    exact good.size
  alone := fun u inside idle notIn => good.alone u (queue ▸ inside) ((same u).1.symm.trans idle) notIn
  ring := good.ring

omit [DecidableEq T] in
private theorem map_same {f : List T → List T} (same : ∀ l, f l = l) (q : Option (List T)) : q.map f = q := by
  cases q <;> simp [same]

theorem same_update {timers : T → UvTimer C} {r : UvTimer C} (active : r.active = (timers t).active)
    (timeout : r.timeout = (timers t).timeout) (startId : r.startId = (timers t).startId) (u : T) :
    (Function.update timers t r u).active = (timers u).active ∧ (Function.update timers t r u).timeout = (timers u).timeout ∧
      (Function.update timers t r u).startId = (timers u).startId := by
  by_cases isT : u = t
  · subst isT
    rw [Function.update_self]
    exact ⟨active,timeout,startId⟩
  · rw [Function.update_of_ne isT]
    exact ⟨rfl,rfl,rfl⟩

theorem uvTimerAgain_good (good : Good others w q) (member : t ∈ w.handleQueue) :
    ∃ r h, uvTimerAgain t w = .done r ⟨againTimer w.toBooks t,h⟩ ∧
      Good others ⟨againTimer w.toBooks t,h⟩ (q.map (queueAfter w.toBooks · (.again t))) := by
  by_cases callback : (w.timers t).timerCb.isNone
  · have stays : ∀ l : List T, queueAfter w.toBooks l (.again t) = l := fun l =>
      if_neg fun stops : Stops w.toBooks (.again t) => by simp_all [Stops]
    have again : againTimer w.toBooks t = w.toBooks := if_pos callback
    rw [again,map_same stays]
    refine ⟨uvEinval,w.timerHeap,?_,good⟩
    simp only [uvTimerAgain,bind_run,get_run,Outcome.andThen_done,ite_run,callback,if_true,pure_run]
  · by_cases repeats : (w.timers t).repeat_ ≠ 0
    · have stops : ∀ l : List T, queueAfter w.toBooks l (.again t) = l.erase t := fun l =>
        if_pos (show Stops w.toBooks (.again t) from ⟨by simpa [← Option.isSome_iff_ne_none] using callback,repeats⟩)
      obtain ⟨h₁,stopped,good₁⟩ := uvTimerStop_good good member
      have member₁ : t ∈ (w.toBooks.uvHandleStop t).handleQueue := by
        rw [Books.uvHandleStop,(sameBooks_changeActive w.toBooks t false).handleQueue]
        exact member
      obtain ⟨r,h₂,started,good₂⟩ := uvTimerStart_good good₁ member₁ (w.timers t).timerCb (w.timers t).repeat_
        (w.timers t).repeat_
      have again : againTimer w.toBooks t = startTimer (w.toBooks.uvHandleStop t) t (w.timers t).timerCb
          (w.timers t).repeat_ (w.timers t).repeat_ := by rw [againTimer,if_neg callback,if_pos repeats]
      have once : (q.map (·.erase t)).map (queueAfter (w.toBooks.uvHandleStop t) · (.start t (w.timers t).timerCb
          (w.timers t).repeat_ (w.timers t).repeat_)) = q.map (queueAfter w.toBooks · (.again t)) := by
        cases q with
        | none => rfl
        | some l =>
          have distinct : l.Nodup := good.sound.distinct
          have twice : (l.erase t).erase t = l.erase t := List.erase_of_not_mem distinct.not_mem_erase
          have stays : queueAfter (w.toBooks.uvHandleStop t) (l.erase t) (.start t (w.timers t).timerCb
              (w.timers t).repeat_ (w.timers t).repeat_) = l.erase t := by
            simp only [queueAfter,TimerCall.target,twice,ite_self]
          simp only [Option.map_some,stops,stays]
      rw [again,← once]
      refine ⟨0,h₂,?_,good₂⟩
      simp only [uvTimerAgain,bind_run,get_run,Outcome.andThen_done,ite_run,if_neg callback,if_pos repeats,stopped,started,
        pure_run]
    · have stays : ∀ l : List T, queueAfter w.toBooks l (.again t) = l := fun l =>
        if_neg fun stops : Stops w.toBooks (.again t) => repeats stops.2
      have again : againTimer w.toBooks t = w.toBooks := by rw [againTimer,if_neg callback,if_neg repeats]
      rw [again,map_same stays]
      refine ⟨0,w.timerHeap,?_,good⟩
      simp only [uvTimerAgain,bind_run,get_run,Outcome.andThen_done,ite_run,if_neg callback,if_neg repeats,pure_run]

/-- Initialising the memory of a new handle. -/
private theorem uvTimerInit_good (good : Good others w q) (fresh : t ∉ w.handleQueue) (room : w.handleQueue.length+2 < uintMax) :
    ∃ h, uvTimerInit t w = .done 0 ⟨w.toBooks.initTimer t,h⟩ ∧ Good others ⟨w.toBooks.initTimer t,h⟩ q := by
  have idle : (w.timers t).active = false := by
    cases up : (w.timers t).active with
    | false => rfl
    | true => exact absurd (good.sound.known t up) fresh
  have away : ∀ u, u ≠ t → (w.toBooks.initTimer t).timers u = w.timers u := fun u other => by
    simp [Books.initTimer,Books.setTimer,other]
  have here : ((w.toBooks.initTimer t).timers t).active = false := by simp [Books.initTimer,Books.setTimer]
  have active : ActiveNodes (w.toBooks.initTimer t).timers = ActiveNodes w.timers := by
    ext x
    cases x with
    | readyQueue => simp [ActiveNodes]
    | timer u =>
      rw [timer_mem_activeNodes,timer_mem_activeNodes]
      by_cases same : u = t
      · rw [same,here,idle]
      · rw [away u same]
  have notWaiting : t ∉ q.getD [] := fun waits => fresh (good.sound.waiting t waits).1
  refine ⟨withLinks w.timerHeap (uvQueueInit (links w.timerHeap) (.timer t)),?_,?_,?_,?_,?_,?_⟩
  · simp [uvTimerInit,onBooks,onQueue]
  · exact sound_init good.sound fresh room
  · have kept : Holds (order w.timers) w.timerHeap (ActiveNodes (w.toBooks.initTimer t).timers) := active.symm ▸ good.heap
    refine holds_frame kept rfl rfl (fun x inside => ?_) fun x inside => ?_
    · refine withLinks_nodes (uvQueueInit_of_ne _ fun same => ?_)
      rw [same] at inside
      exact absurd (timer_mem_activeNodes.mp inside) (by simp [here])
    · show order (w.toBooks.initTimer t).timers x = order w.timers x
      refine order_update fun u isX => ?_
      rw [away u fun same => ?_]
      · exact ⟨rfl,rfl⟩
      · rw [isX,same] at inside
        exact absurd (timer_mem_activeNodes.mp inside) (by simp [here])
  · have size := good.size
    have queue : (w.toBooks.initTimer t).handleQueue = w.handleQueue ++ [t] := rfl
    show w.timerHeap.nelts = (w.toBooks.initTimer t).handleQueue.countP fun u => ((w.toBooks.initTimer t).timers u).active
    have others_ : w.handleQueue.countP (fun u => ((w.toBooks.initTimer t).timers u).active) =
        w.handleQueue.countP fun u => (w.timers u).active :=
      List.countP_congr fun u inside => by rw [away u fun same => fresh (same ▸ inside)]
    rw [queue,List.countP_append,others_,size]
    simp [here]
  · intro u inside idle' notIn
    rw [links_withLinks]
    by_cases same : u = t
    · rw [same]; exact uvQueueInit_alone _ _
    · have before : u ∈ w.handleQueue := by
        have : u ∈ w.handleQueue ++ [t] := inside
        simpa [same] using this
      exact alone_congr (good.alone u before (by rw [← away u same]; exact idle') notIn)
        (uvQueueInit_of_ne _ fun same' => same (Node.timer.inj same'))
  · intro l running
    rw [links_withLinks]
    refine (good.ring l running).frame fun x on => uvQueueInit_of_ne _ fun same => ?_
    subst same
    exact notWaiting (by rw [running]; exact timer_mem_queue.mp on)

/-- A timer as it is while its handle closes. -/
def markClosing (b : Books T C) (t : T) : Books T C := b.setTimer t { b.timers t with closing := true }

private theorem stop_markClosing (b : Books T C) (t : T) : (markClosing b t).uvHandleStop t = markClosing (b.uvHandleStop t) t := by
  cases up : (b.timers t).active <;> cases kept : (b.timers t).ref <;>
    simp [markClosing,Books.uvHandleStop,Books.changeActive,Books.setTimer,Books.countHandle,up,kept]

private theorem timerLessThan_markClosing (b : Books T C) (t : T) : timerLessThan (markClosing b t).timers = timerLessThan b.timers := by
  have record : ∀ x, (containerOf (markClosing b t).timers x).timeout = (containerOf b.timers x).timeout ∧
      (containerOf (markClosing b t).timers x).startId = (containerOf b.timers x).startId := by
    intro x
    cases x with
    | readyQueue => exact ⟨rfl,rfl⟩
    | timer u => exact (same_update (by rfl) (by rfl) (by rfl) u).2
  funext x y
  simp only [timerLessThan,(record _).1,(record _).2]

/-- A stop does not read whether its handle closes. -/
private theorem uvTimerStop_markClosing {b b' : Books T C} {h h' : HeapState (Node T)} {r : ℤ}
    (stopped : uvTimerStop t ⟨b,h⟩ = .done r ⟨b',h'⟩) :
    uvTimerStop t ⟨markClosing b t,h⟩ = .done r ⟨markClosing b' t,h'⟩ := by
  have active : ((markClosing b t).timers t).active = (b.timers t).active := by simp [markClosing,Books.setTimer]
  cases up : (b.timers t).active with
  | true =>
    rw [up] at active
    cases removed : heapRemove (timerLessThan b.timers) heapDepth (some (.timer t)) h with
    | done u g =>
      simp only [uvTimerStop,bind_run,get_run,Outcome.andThen_done,ite_run,up,if_true,onHeap,removed,onBooks,change_run,
        onQueue,pure_run,Outcome.done.injEq,TimerLoop.mk.injEq] at stopped
      obtain ⟨rfl,rfl,rfl⟩ := stopped
      simp only [uvTimerStop,bind_run,get_run,Outcome.andThen_done,ite_run,active,if_true,onHeap,timerLessThan_markClosing,
        removed,onBooks,change_run,onQueue,pure_run,stop_markClosing]
    | abort g => simp [uvTimerStop,up,onHeap,removed] at stopped
    | exhausted => simp [uvTimerStop,up,onHeap,removed] at stopped
  | false =>
    rw [up] at active
    cases removed : uvQueueRemove (links h) (.timer t) with
    | some g =>
      simp only [uvTimerStop,bind_run,get_run,Outcome.andThen_done,ite_run,up,Bool.false_eq_true,if_false,removed,
        onQueue,pure_run,Outcome.done.injEq,TimerLoop.mk.injEq] at stopped
      obtain ⟨rfl,rfl,rfl⟩ := stopped
      simp only [uvTimerStop,bind_run,get_run,Outcome.andThen_done,ite_run,active,Bool.false_eq_true,if_false,removed,
        onQueue,pure_run]
    | none => simp [uvTimerStop,up,onQueue,removed] at stopped

/-- Closing an open timer stops it and leaves it to be finished. -/
private theorem uvClose_good (good : Good others w q) (member : t ∈ w.handleQueue) (open_ : (w.timers t).closing = false) :
    ∃ h, uvClose t w = .done () ⟨closeTimer w.toBooks t,h⟩ ∧ Good others ⟨closeTimer w.toBooks t,h⟩ (q.map (·.erase t)) := by
  obtain ⟨h,stopped,good₁⟩ := uvTimerStop_good good member
  have notClosed := good.sound.finished t member
  have marked := uvTimerStop_markClosing stopped
  have books : (closeTimer w.toBooks t) = { markClosing (w.toBooks.uvHandleStop t) t with
      closingHandles := t :: (markClosing (w.toBooks.uvHandleStop t) t).closingHandles } := by
    rw [← stop_markClosing]
    rfl
  have sound := sound_close good.sound member open_
  have cond : ¬ ((w.timers t).closing = true ∨ (w.timers t).closed = true) := by simp [open_,notClosed]
  have mark : w.toBooks.setTimer t { w.timers t with closing := true } = markClosing w.toBooks t := rfl
  refine ⟨h,?_,good₁.rebook (erase_getD q t ▸ sound) ?_ fun u => ?_⟩
  · rw [books]
    simp only [uvClose,bind_run,get_run,Outcome.andThen_done,ite_run,if_neg cond,onBooks,change_run,mark,marked]
  · rw [books]; rfl
  · rw [books]
    exact same_update (by rfl) (by rfl) (by rfl) u

/-- Every call that a program is allowed returns and does to the loop what `act` says. -/
private theorem perform_good (good : Good others w q) {call : TimerCall T C} (allowed : Allowed w.toBooks call) :
    ∃ h, call.perform w = .done () ⟨act w.toBooks call,h⟩ ∧
      Good others ⟨act w.toBooks call,h⟩ (q.map (queueAfter w.toBooks · call)) := by
  have stays (notStops : ¬ Stops w.toBooks call) : q.map (queueAfter w.toBooks · call) = q :=
    map_same (fun l => if_neg notStops) q
  cases call with
  | init t =>
    rw [stays (by simp [Stops])]
    obtain ⟨h,run,good'⟩ := uvTimerInit_good good allowed.1 allowed.2
    exact ⟨h,by simp [TimerCall.perform,run,act],good'⟩
  | start t cb timeout repeat_ =>
    obtain ⟨r,h,run,good'⟩ := uvTimerStart_good good allowed.1 cb timeout repeat_
    exact ⟨h,by simp [TimerCall.perform,run,act],good'⟩
  | stop t =>
    obtain ⟨h,run,good'⟩ := uvTimerStop_good good (show t ∈ w.handleQueue from allowed)
    refine ⟨h,by simp [TimerCall.perform,run,act],?_⟩
    simpa [queueAfter,Stops,TimerCall.target,act] using good'
  | again t =>
    obtain ⟨r,h,run,good'⟩ := uvTimerAgain_good good (show t ∈ w.handleQueue from allowed)
    exact ⟨h,by simp [TimerCall.perform,run,act],good'⟩
  | setRepeat t repeat_ =>
    rw [stays (by simp [Stops])]
    refine ⟨w.timerHeap,rfl,good.rebook (sound_setRepeat good.sound allowed.1 repeat_) rfl fun u => ?_⟩
    exact same_update (by rfl) (by rfl) (by rfl) u
  | ref t =>
    rw [stays (by simp [Stops])]
    refine ⟨w.timerHeap,rfl,good.rebook (sound_changeRef good.sound allowed true)
      (sameBooks_changeRef w.toBooks t true).handleQueue fun u => ?_⟩
    rw [act,Books.uvHandleRef,changeRef_timers]
    exact same_update (by rfl) (by rfl) (by rfl) u
  | unref t =>
    rw [stays (by simp [Stops])]
    refine ⟨w.timerHeap,rfl,good.rebook (sound_changeRef good.sound allowed false)
      (sameBooks_changeRef w.toBooks t false).handleQueue fun u => ?_⟩
    rw [act,Books.uvHandleUnref,changeRef_timers]
    exact same_update (by rfl) (by rfl) (by rfl) u
  | close t =>
    obtain ⟨h,run,good'⟩ := uvClose_good good allowed.1 allowed.2.1
    refine ⟨h,run,?_⟩
    simpa [queueAfter,Stops,TimerCall.target,act] using good'

omit [DecidableEq T] in
/-- The history is no part of the good order. -/
theorem Good.note (good : Good others w q) (e : Event T C) : Good others ⟨w.toBooks.note e,w.timerHeap⟩ q :=
  good.rebook (good.sound.congr rfl rfl rfl rfl) rfl fun _ => ⟨rfl,rfl,rfl⟩

/-- What calls do to the books does not hang on the queue. -/
theorem foldl_turn_books (calls : List (TimerCall T C)) (b : Books T C) (l : List T) :
    (calls.foldl turn (b,l)).1 = (calls.foldl turn (b,[])).1 := by
  induction calls generalizing b l with
  | nil => rfl
  | cons call calls ih =>
    rw [List.foldl_cons,List.foldl_cons]
    exact (ih _ _).trans (ih _ _).symm

/-- A program of allowed calls returns; a timer that it stops has left the queue. -/
theorem performAll_good (calls : List (TimerCall T C)) (w : TimerLoop T C) (q : Option (List T)) (good : Good others w q)
    (allowed : AllAllowed w.toBooks calls) :
    ∃ h, Timers.performAll calls w = .done () ⟨(calls.foldl turn (w.toBooks,[])).1,h⟩ ∧
      Good others ⟨(calls.foldl turn (w.toBooks,[])).1,h⟩ (q.map fun l => (calls.foldl turn (w.toBooks,l)).2) := by
  induction calls generalizing w q with
  | nil =>
    refine ⟨w.timerHeap,rfl,?_⟩
    rw [map_same fun l => by rfl]
    exact good
  | cons call calls ih =>
    obtain ⟨h₁,first,good₁⟩ := perform_good good allowed.1
    obtain ⟨h,rest,good'⟩ := ih _ _ (good₁.note (.called call (act w.toBooks call).time)) allowed.2
    rw [List.foldl_cons,foldl_turn_books]
    refine ⟨h,?_,?_⟩
    · simp only [Timers.performAll,bind_run,first,Outcome.andThen_done,onBooks,change_run]
      exact rest
    · rw [Option.map_map] at good'
      exact good'

omit [DecidableEq T] in
/-- The heap holds the active timers, the first of them at its root. -/
theorem Good.first (good : Good others w q) :
    match heapMin w.timerHeap with
    | none => ∀ t, (w.timers t).active = false
    | some .readyQueue => False
    | some (.timer t) => (w.timers t).active = true ∧
        ∀ u, (w.timers u).active = true → order w.timers (.timer t) ≤ order w.timers (.timer u) := by
  obtain ⟨empty,least⟩ := heapMin_holds good.heap
  cases root : heapMin w.timerHeap with
  | none =>
    intro t
    cases up : (w.timers t).active with
    | false => rfl
    | true =>
      have inside := timer_mem_activeNodes.mpr up
      rw [empty.mp root] at inside
      cases inside
  | some x =>
    obtain ⟨inside,first⟩ := least x root
    cases x with
    | readyQueue =>
      obtain ⟨u,same,_⟩ := inside
      cases same
    | timer t => exact ⟨timer_mem_activeNodes.mp inside,fun u up => first _ (timer_mem_activeNodes.mpr up)⟩

omit [DecidableEq T] in
theorem timeout_le_of_order {timers : T → UvTimer C} {t u : T}
    (first : order timers (.timer t) ≤ order timers (.timer u)) : (timers t).timeout ≤ (timers u).timeout := by
  simp only [order,containerOf,Prod.Lex.toLex_le_toLex] at first
  omega

end

end Armd.TimerRefinement
