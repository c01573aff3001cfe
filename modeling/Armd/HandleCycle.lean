import Armd.Operations

/-!
Starting modules again. Nothing in a module records that it runs, and
`armd_module_startall` starts every registered module; so no handle, mutex or
queue that is in use is initialised again exactly as long as no call of
`armd_module_startall` finds a registered module whose handle is open or still
closing (`reinit_iff`).
-/
namespace Armd.HandleCycle
open Armd.Runs Armd.Queue Armd.Memory Armd.Module Armd.Registry Armd.RegistryModel Armd.Traversal Armd.RegistryCalls
  Armd.StartStop Armd.Lifecycle Armd.Operations

variable {M : Type} [DecidableEq M]

/-- An initialisation that finds nothing in use: no open or closing handle, no live mutex, and no message
    in the queue of a module whose handle is open. -/
def Clean : Event M → Prop
  | .asyncInit (.module _) found _ => found ≠ .active ∧ found ≠ .closing
  | .mutexInit _ found => found ≠ .live
  | .queueReset _ found lost => found = .active → lost = []
  | _ => True

/-- No call of `armd_module_startall` finds a registered module whose handle is open or closing. -/
def Fits (w : World M) (op : Operation M) : Prop :=
  op = .startall → ∀ m, OnRing w m → state w m ≠ .active ∧ state w m ≠ .closing

/-- The mutex of a module lives exactly while its handle is open. -/
def Synced (c : Core M) : Prop := ∀ m, c.mutex m = .live ↔ c.handle (.module m) = .active

/-- The events of initialisation, which only a start writes down. -/
def opening : Event M → Bool
  | .mutexInit _ _ => true
  | .queueReset _ _ _ => true
  | .asyncInit _ _ _ => true
  | _ => false

omit [DecidableEq M] in
private theorem opening_stopEvents {sys : System M} {c : Core M} {m : M} {e : Event M} (member : e ∈ stopEvents sys c m) :
    opening e = false := by
  unfold stopEvents at member
  split at member <;> simp at member <;> rcases member with rfl | rfl | rfl | rfl | rfl <;> rfl

section
variable {sys : System M} {o : Outcomes M} {c c' : Core M} {R R' : Levels M} {op : Operation M}

private theorem synced_step (succeeds : Succeeds sys o) (distinct : (stopOrder R).Nodup) (synced : Synced c)
    (step : CoreStep sys o (c,R) op (c',R')) : Synced c' := by
  intro m
  cases step with
  | register | unregister | post => exact synced m
  | startall =>
    rw [startsCore_eq succeeds,startedAll_handle,startedAll_mutex]
    by_cases member : m ∈ startOrder R
    · simp [member]
    · simpa [member] using synced m
  | stopall stops =>
    rw [stopsCore_eq succeeds distinct,Option.ite_none_right_eq_some,Option.some.injEq] at stops
    obtain ⟨_,rfl⟩ := stops
    rw [stoppedAll_handle,stoppedAll_mutex]
    by_cases member : m ∈ stopOrder R
    · simp [member]
    · simpa [member] using synced m
  | turn closings =>
    obtain ⟨_,mutex,_,handles⟩ := closingsCore_some closings
    obtain ⟨were,are⟩ := handles (.module m)
    rw [are,mutex,synced m]
    by_cases member : Handle.module m ∈ c.uvLoop.closingHandles
    · simp [member,were member]
    · simp [member]

/-- Only a start of everything writes down initialisations, one for each registered module. -/
private theorem log_step (succeeds : Succeeds sys o) {P : Event M → Prop} (only : ∀ e, opening e = false → P e)
    (starts : (startOrder R).Nodup) (stops : (stopOrder R).Nodup) (step : CoreStep sys o (c,R) op (c',R')) :
    (∀ e ∈ c'.log, P e) ↔
      (∀ e ∈ c.log, P e) ∧ (op = .startall → ∀ m, Registered R m → ∀ e ∈ startEvents sys o c m, P e) := by
  cases step with
  | register | unregister | post => simp
  | startall =>
    rw [startsCore_eq succeeds,startedAll_log P starts]
    simp [mem_startOrder]
  | stopall stopped =>
    rw [stopsCore_eq succeeds stops,Option.ite_none_right_eq_some,Option.some.injEq] at stopped
    obtain ⟨_,rfl⟩ := stopped
    rw [stoppedAll_log P (fun c m e member => only e (opening_stopEvents member))]
    simp
  | turn closings =>
    obtain ⟨_,_,log,_⟩ := closingsCore_some closings
    simp [log]

/-- A test of the events that notices every start of a module whose handle is in use. -/
def Notices (sys : System M) (o : Outcomes M) (P : Event M → Prop) : Prop := ∀ c m, Synced c →
  ((∀ e ∈ startEvents sys o c m, P e) ↔ c.handle (.module m) ≠ .active ∧ c.handle (.module m) ≠ .closing)

private theorem synced_run (succeeds : Succeeds sys o) {ops : List (Operation M)} {w : World M}
    (run : Run (Step sys) booted ops w) : Synced (core w) := by
  induction run with
  | nil => intro m; simp [core,booted,World.zero,World.async,zeroModule,zeroAsync,zeroQueue]
  | snoc before step ih =>
    obtain ⟨R,_,holds⟩ := run_core succeeds before
    obtain ⟨_,step',_⟩ := step_core succeeds holds step
    exact synced_step succeeds (stopOrder_nodup holds.tidy.rings) ih step'

private theorem log_run (succeeds : Succeeds sys o) {P : Event M → Prop} (only : ∀ e, opening e = false → P e)
    (notices : Notices sys o P) {ops : List (Operation M)} {w : World M} (run : Run (Step sys) booted ops w) :
    (∀ e ∈ (core w).log, P e) ↔ Run (When (Step sys) Fits) booted ops w := by
  induction run with
  | nil => exact ⟨fun _ => .nil,fun _ e member => by simp [core,booted,World.zero] at member⟩
  | @snoc ops op w w' before step ih =>
    obtain ⟨R,_,holds⟩ := run_core succeeds before
    obtain ⟨R',step',_⟩ := step_core succeeds holds step
    have rings := holds.tidy.rings
    have fits : Fits w op ↔ (op = .startall → ∀ m, Registered R m → ∀ e ∈ startEvents sys o (core w) m, P e) := by
      refine imp_congr_right fun _ => forall_congr' fun m => ?_
      rw [onRing_iff rings,notices (core w) m (synced_run succeeds before)]
      exact Iff.rfl
    rw [log_step succeeds only (startOrder_nodup rings) (stopOrder_nodup rings) step',ih,← fits]
    constructor
    · rintro ⟨run,fit⟩
      exact run.snoc ⟨step,fit⟩
    · intro run
      obtain ⟨t,run,step₂,fit⟩ := run_snoc_iff.mp run
      have deterministic : ∀ s a t t', Step sys s a t → Step sys s a t' → t = t' := fun _ _ _ _ => step_unique
      have same : t = w := Run.unique deterministic run.of_when before
      subst same
      exact ⟨run,fit⟩

/-- The handle is initialised when it is not. -/
def Opens : Event M → Prop
  | .asyncInit (.module _) found _ => found ≠ .active ∧ found ≠ .closing
  | _ => True

/-- Everything is initialised when it is not in use. -/
def Fresh : Event M → Prop
  | .asyncInit (.module _) found _ => found ≠ .active ∧ found ≠ .closing
  | .mutexInit _ found => found ≠ .live
  | .queueReset _ found _ => found ≠ .active
  | _ => True

omit [DecidableEq M] in
private theorem notices_opens : Notices sys o Opens := by
  intro c m _
  unfold startEvents
  split <;> simp [Opens]

omit [DecidableEq M] in
private theorem notices_fresh : Notices sys o Fresh := by
  intro c m synced
  have mutex : c.mutex m ≠ .live ↔ c.handle (.module m) ≠ .active := not_congr (synced m)
  unfold startEvents
  split <;> simp [Fresh,mutex]

omit [DecidableEq M] in
private theorem opens_of_clean {w : World M} (clean : ∀ e ∈ w.trace, Clean e) : ∀ e ∈ (core w).log, Opens e := by
  intro e member
  obtain ⟨e',inside,part⟩ := List.mem_filterMap.mp member
  have was := clean e' inside
  cases e' with
  | asyncInit h found ret =>
    cases part
    cases h with
    | shutdown => exact trivial
    | module m => exact was
  | _ => cases part <;> exact trivial

omit [DecidableEq M] in
private theorem clean_of_fresh {w : World M} (fresh : ∀ e ∈ (core w).log, Fresh e) : ∀ e ∈ w.trace, Clean e := by
  intro e inside
  have logged : ∀ e', lifecycleEvent e = some e' → Fresh e' := fun e' part =>
    fresh e' (List.mem_filterMap.mpr ⟨e,inside,part⟩)
  cases e with
  | asyncInit h found ret =>
    cases h with
    | shutdown => exact trivial
    | module m => exact logged _ rfl
  | mutexInit m found => exact logged _ rfl
  | queueReset m found lost => exact fun running => absurd running (logged _ rfl)
  | _ => exact trivial

/-- The places of the cycle of a handle that one call may move it by. -/
inductive Turns : HandleState → HandleState → Prop
  | stays (s) : Turns s s
  | initialised : Turns .unknown .active
  | closing : Turns .active .closing
  | closed : Turns .closing .closed
  | reinitialised : Turns .closed .active

/-- A call moves every handle along its cycle, and leaves running modules untouched when it starts everything. -/
structure Cycles (w : World M) (op : Operation M) (w' : World M) : Prop where
  handle : ∀ m, Turns (state w m) (state w' m)
  untouched : op = .startall → ∀ m, state w m = .active →
    state w' m = .active ∧ (startsOf w'.trace).count m = (startsOf w.trace).count m

private theorem turns_step (succeeds : Succeeds sys o) (distinct : (stopOrder R).Nodup)
    (fits : op = .startall → ∀ m, Registered R m → c.handle (.module m) ≠ .active ∧ c.handle (.module m) ≠ .closing)
    (step : CoreStep sys o (c,R) op (c',R')) (m : M) : Turns (c.handle (.module m)) (c'.handle (.module m)) := by
  cases step with
  | register | unregister | post => exact .stays _
  | startall =>
    rw [startsCore_eq succeeds,startedAll_handle]
    by_cases member : m ∈ startOrder R
    · obtain ⟨notOpen,notClosing⟩ := fits rfl m (mem_startOrder.mp member)
      rw [if_pos (List.mem_map.mpr ⟨m,member,rfl⟩)]
      cases found : c.handle (.module m) with
      | unknown => exact .initialised
      | active => exact absurd found notOpen
      | closing => exact absurd found notClosing
      | closed => exact .reinitialised
    · rw [if_neg (by simpa using member)]
      exact .stays _
  | stopall stops =>
    rw [stopsCore_eq succeeds distinct,Option.ite_none_right_eq_some,Option.some.injEq] at stops
    obtain ⟨running,rfl⟩ := stops
    rw [stoppedAll_handle]
    by_cases member : m ∈ stopOrder R
    · rw [if_pos (List.mem_map.mpr ⟨m,member,rfl⟩),running m member]
      exact .closing
    · rw [if_neg (by simpa using member)]
      exact .stays _
  | turn closings =>
    obtain ⟨_,_,_,handles⟩ := closingsCore_some closings
    obtain ⟨were,are⟩ := handles (.module m)
    rw [are]
    by_cases member : Handle.module m ∈ c.uvLoop.closingHandles
    · rw [if_pos member,were member]
      exact .closed
    · rw [if_neg member]
      exact .stays _

private theorem cycles_step (succeeds : Succeeds sys o) {ops : List (Operation M)} {w w' : World M} {op : Operation M}
    (run : Run (Step sys) booted ops w) (step : Step sys w op w') (fits : Fits w op) : Cycles w op w' := by
  obtain ⟨R,_,holds⟩ := run_core succeeds run
  obtain ⟨R',step',_⟩ := step_core succeeds holds step
  have rings := holds.tidy.rings
  have fits' : op = .startall → ∀ m, Registered R m → state w m ≠ .active ∧ state w m ≠ .closing := fun same m there =>
    fits same m ((onRing_iff rings).mpr there)
  refine ⟨turns_step succeeds (stopOrder_nodup rings) fits' step',?_⟩
  rintro rfl m running
  obtain ⟨v,stepV,coreV,_⟩ := startall_step succeeds holds
  cases step_unique step stepV
  have away : m ∉ startOrder R := fun member => (fits' rfl m (mem_startOrder.mp member)).1 running
  refine ⟨?_,?_⟩
  · show (core w').handle (.module m) = .active
    rw [coreV,startedAll_handle,if_neg (by simpa using away)]
    exact running
  · rw [← startsOf_log,← startsOf_log,coreV,startedAll_starts,List.count_append,List.count_eq_zero_of_not_mem away,
      Nat.add_zero]

/-- Over any sequence of calls nothing in use is initialised again exactly when no start of everything
    finds a registered module with an open or closing handle, and such calls move every handle along its
    cycle and leave running modules untouched. -/
theorem reinit_iff (succeeds : Succeeds sys o) {ops : List (Operation M)} {w : World M}
    (run : Run (Step sys) booted ops w) :
    ((∀ e ∈ w.trace, Clean e) ↔ Run (When (Step sys) Fits) booted ops w) ∧
      ∀ op w', Step sys w op w' → Fits w op → Cycles w op w' := by
  refine ⟨⟨?_,?_⟩,fun op w' step fits => cycles_step succeeds run step fits⟩
  · intro clean
    have only : ∀ e : Event M, opening e = false → Opens e := by
      intro e closed
      cases e <;> first | exact trivial | cases closed
    exact (log_run succeeds only notices_opens run).mp (opens_of_clean clean)
  · intro fitting
    have only : ∀ e : Event M, opening e = false → Fresh e := by
      intro e closed
      cases e <;> first | exact trivial | cases closed
    exact clean_of_fresh ((log_run succeeds only notices_fresh run).mpr fitting)

end

/-- A module that is registered and started. -/
theorem cycle_of_start : ∃ w, Run (Step plainSystem) booted [.register () systemLevel,.startall] w ∧
    ((∀ e ∈ w.trace, Clean e) ↔ Run (When (Step plainSystem) Fits) booted [.register () systemLevel,.startall] w) ∧
      ∀ op w', Step plainSystem w op w' → Fits w op → Cycles w op w' := by
  obtain ⟨_,w,registered,_,started,_⟩ := plain_started
  have run := (Run.single registered).snoc started
  exact ⟨w,run,reinit_iff plain_succeeds run⟩

/-- A second start of everything initialises the open handle and the live mutex of a running module again. -/
theorem startall_twice_reinitialises :
    ∃ w, Run (Step plainSystem) booted [.register () systemLevel,.startall,.startall] w ∧
      .asyncInit (.module ()) .active 0 ∈ w.trace ∧ .mutexInit () .live ∈ w.trace ∧ ¬ ∀ e ∈ w.trace, Clean e := by
  obtain ⟨_,w,registered,_,started,core₁,holds⟩ := plain_started
  have run := (Run.single registered).snoc started
  obtain ⟨w',step,core₂,_⟩ := startall_step plain_succeeds holds
  rw [core₁] at core₂
  have log : (core w').log = [.startCalled (),.mutexInit () .zero,.queueReset () .unknown [],
      .asyncInit (.module ()) .unknown 0,.started () 0,.startCalled (),.mutexInit () .live,.queueReset () .active [],
      .asyncInit (.module ()) .active 0,.started () 0] := by rw [core₂]; rfl
  have logged : ∀ e ∈ (core w').log, ∃ e' ∈ w'.trace, lifecycleEvent e' = some e := fun e member =>
    List.mem_filterMap.mp member
  have again : .asyncInit (.module ()) .active 0 ∈ w'.trace := by
    obtain ⟨e,inside,part⟩ := logged (.asyncInit (.module ()) .active 0) (by simp [log])
    cases e <;> cases part
    exact inside
  have mutex : .mutexInit () .live ∈ w'.trace := by
    obtain ⟨e,inside,part⟩ := logged (.mutexInit () .live) (by simp [log])
    cases e <;> cases part
    exact inside
  exact ⟨w',run.snoc step,again,mutex,fun clean => (clean _ again).1 rfl⟩

end Armd.HandleCycle
