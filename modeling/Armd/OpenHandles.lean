import Armd.Operations
import Mathlib.Data.List.Count

/-!
Whether stopping everything reaches every running module. A module whose handle
is open stays on a ring, and a stop of everything leaves no handle to keep the
loop alive, as long as no call unregisters a module whose handle is open, no
start of everything finds a registered module whose handle is in use and no stop
of everything one that does not run (`no_module_escapes`).
-/
namespace Armd.OpenHandles
open Armd.Programs Armd.Runs Armd.Queue Armd.Memory Armd.Module Armd.Registry Armd.RegistryModel Armd.Traversal
  Armd.RegistryCalls Armd.StartStop Armd.Lifecycle Armd.Operations

variable {M : Type} [DecidableEq M]

/-- The modules whose `on_stop` was called, in order. -/
def onStopsOf (trace : List (Event M)) : List M :=
  trace.filterMap fun
    | .onStop m => some m
    | _ => none

/-- The loop's lists are sound, and every successful start was followed by an `on_stop` unless the handle
    is open. -/
structure Balanced (sys : System M) (c : Core M) : Prop where
  loop : LoopSound c
  paired : ∀ m, hasOnStop sys m = true →
    (startedOf c.log).count m = (onStopsOf c.log).count m + if c.handle (.module m) = .active then 1 else 0

section
variable {sys : System M} {o : Outcomes M} {c c' : Core M} {R R' : Levels M} {op : Operation M}

private theorem balanced_started (balanced : Balanced sys c) {m : M} (notOpen : c.handle (.module m) ≠ .active)
    (notClosing : c.handle (.module m) ≠ .closing) : Balanced sys (startedCore sys o c m) := by
  have opened := loopSound_open balanced.loop notOpen notClosing
  refine ⟨opened.congr rfl rfl,fun m' stops => ?_⟩
  have starts : startedOf (startEvents sys o c m) = [m] := by unfold startEvents; split <;> rfl
  have silent : onStopsOf (startEvents sys o c m) = [] := by unfold startEvents; split <;> rfl
  have before := balanced.paired m' stops
  have log : (startedCore sys o c m).log = c.log ++ startEvents sys o c m := rfl
  rw [log,startedOf,onStopsOf,List.filterMap_append,List.filterMap_append,← startedOf,← startedOf,← onStopsOf,
    ← onStopsOf,starts,silent,List.append_nil,List.count_append,before]
  by_cases same : m' = m
  · subst same; simp [notOpen,startedCore,Core.openHandle,Core.setHandle,Core.setMutex]
  · simp [startedCore,Core.openHandle,Core.setHandle,Core.setMutex,same,Ne.symm same]

private theorem balanced_stopped (balanced : Balanced sys c) {m : M} (isOpen : c.handle (.module m) = .active) :
    Balanced sys (stoppedCore sys c m) := by
  have closed := loopSound_close balanced.loop isOpen
  refine ⟨closed.congr rfl rfl,fun m' stops => ?_⟩
  have starts : startedOf (stopEvents sys c m) = [] := by unfold stopEvents; split <;> rfl
  have before := balanced.paired m' stops
  have log : (stoppedCore sys c m).log = c.log ++ stopEvents sys c m := rfl
  rw [log,startedOf,onStopsOf,List.filterMap_append,List.filterMap_append,← startedOf,← startedOf,← onStopsOf,
    ← onStopsOf,starts,List.append_nil,List.count_append,before]
  by_cases same : m' = m
  · subst same
    have called : onStopsOf (stopEvents sys c m') = [m'] := by unfold stopEvents; rw [if_pos stops]; rfl
    simp [called,isOpen,stoppedCore,Core.closeHandle,Core.setHandle,Core.setMutex]
  · have others : (onStopsOf (stopEvents sys c m)).count m' = 0 := by
      rw [List.count_eq_zero]
      unfold stopEvents
      split <;> simp [onStopsOf,same]
    simp [others,stoppedCore,Core.closeHandle,Core.setHandle,Core.setMutex,same]

private theorem balanced_startedAll {ms : List M} (distinct : ms.Nodup) : ∀ {c : Core M}, Balanced sys c →
    (∀ m ∈ ms, c.handle (.module m) ≠ .active ∧ c.handle (.module m) ≠ .closing) →
      Balanced sys (startedAll sys o ms c) := by
  induction ms with
  | nil => intro c balanced _; exact balanced
  | cons m rest ih =>
    intro c balanced free
    obtain ⟨fresh,distinct'⟩ := List.nodup_cons.mp distinct
    obtain ⟨notOpen,notClosing⟩ := free m (by simp)
    refine ih distinct' (balanced_started balanced notOpen notClosing) fun m' member => ?_
    have other : m' ≠ m := by rintro rfl; exact fresh member
    simpa [startedCore,Core.openHandle,Core.setHandle,Core.setMutex,other] using free m' (List.mem_cons_of_mem _ member)

private theorem balanced_stoppedAll {ms : List M} (distinct : ms.Nodup) : ∀ {c : Core M}, Balanced sys c →
    (∀ m ∈ ms, c.handle (.module m) = .active) → Balanced sys (stoppedAll sys ms c) := by
  induction ms with
  | nil => intro c balanced _; exact balanced
  | cons m rest ih =>
    intro c balanced running
    obtain ⟨fresh,distinct'⟩ := List.nodup_cons.mp distinct
    refine ih distinct' (balanced_stopped balanced (running m (by simp))) fun m' member => ?_
    have other : m' ≠ m := by rintro rfl; exact fresh member
    simpa [stoppedCore,Core.closeHandle,Core.setHandle,Core.setMutex,other] using
      running m' (List.mem_cons_of_mem _ member)

private theorem balanced_closings (balanced : Balanced sys c) (done : closingsCore c = some c') : Balanced sys c' := by
  have sound := loopSound_closings balanced.loop done
  obtain ⟨loop,_,log,_⟩ := closingsCore_some done
  refine ⟨sound,fun m stops => ?_⟩
  have same : c'.handle (.module m) = .active ↔ c.handle (.module m) = .active := by
    rw [← sound.openMem,loop,balanced.loop.openMem]
  rw [log,balanced.paired m stops]
  simp only [same]

/-- The calls that let no running module escape: none unregisters a module whose handle is open, no start of
    everything finds a registered module whose handle is open or closing, and every stop of everything finds the
    handles of all registered modules open. -/
def Keeps (w : World M) : Operation M → Prop
  | .unregister m _ => state w m ≠ .active
  | .startall => ∀ m, OnRing w m → state w m ≠ .active ∧ state w m ≠ .closing
  | .stopall => ∀ m, OnRing w m → state w m = .active
  | _ => True

/-- What holds of the life cycle after such calls. -/
structure Tied (sys : System M) (c : Core M) (R : Levels M) : Prop where
  balanced : Balanced sys c
  onRing : ∀ m, c.handle (.module m) = .active → Registered R m
  shutdown : c.handle .shutdown ≠ .active

private theorem tied_step (succeeds : Succeeds sys o) {w w' : World M} (holds : Holds w R) (tied : Tied sys (core w) R)
    (keeps : Keeps w op) (step : CoreStep sys o (core w,R) op (core w',R')) : Tied sys (core w') R' := by
  have rings := holds.tidy.rings
  obtain ⟨balanced,onRing,shutdown⟩ := tied
  generalize core w' = c' at step
  cases step with
  | register => exact ⟨balanced,fun m running => registered_add.mpr (.inl (onRing m running)),shutdown⟩
  | unregister =>
    refine ⟨balanced,fun m' running => (registered_remove rings.nodup).mpr ⟨onRing m' running,?_⟩,shutdown⟩
    rintro rfl
    exact keeps running
  | startall =>
    have free : ∀ m ∈ startOrder R, (core w).handle (.module m) ≠ .active ∧ (core w).handle (.module m) ≠ .closing :=
      fun m member => keeps m ((onRing_iff rings).mpr (mem_startOrder.mp member))
    rw [startsCore_eq succeeds]
    refine ⟨balanced_startedAll (startOrder_nodup rings) balanced free,fun m => ?_,by simpa [startedAll_handle] using shutdown⟩
    rw [startedAll_handle]
    by_cases member : m ∈ startOrder R
    · exact fun _ => mem_startOrder.mp member
    · rw [if_neg (by simpa using member)]
      exact onRing m
  | stopall stops =>
    rw [stopsCore_eq succeeds (stopOrder_nodup rings),Option.ite_none_right_eq_some,Option.some.injEq] at stops
    obtain ⟨running,rfl⟩ := stops
    refine ⟨balanced_stoppedAll (stopOrder_nodup rings) balanced running,fun m => ?_,
      by simpa [stoppedAll_handle] using shutdown⟩
    rw [stoppedAll_handle]
    by_cases member : m ∈ stopOrder R
    · rw [if_pos (List.mem_map.mpr ⟨m,member,rfl⟩)]
      intro same
      cases same
    · rw [if_neg (by simpa using member)]
      exact fun active => absurd (mem_stopOrder.mpr (onRing m active)) member
  | post => exact ⟨balanced,onRing,shutdown⟩
  | turn closings =>
    obtain ⟨_,_,_,handles⟩ := closingsCore_some closings
    have closed : ∀ h, c'.handle h = .active → (core w).handle h = .active := by
      intro h
      rw [(handles h).2]
      split
      · intro same; cases same
      · exact id
    exact ⟨balanced_closings balanced closings,fun m active => onRing m (closed _ active),fun active => shutdown (closed _ active)⟩

/-- No handle is open, the `on_stop` of every module was called as often as the module was started, and the loop
    ends. -/
structure Released (sys : System M) (w : World M) : Prop where
  closed : ∀ m, state w m ≠ .active
  stopped : ∀ m, hasOnStop sys m = true → (startedOf w.trace).count m = (onStopsOf w.trace).count m
  loop : ∃ w', uvRunClosingHandles w = .done () w' ∧ uvLoopAlive w' = false

/-- No module escapes: an open handle is on a ring, and a stop of everything that finds the registered modules
    running comes to its end and has released them all. -/
structure Contained (sys : System M) (w : World M) : Prop where
  onRing : ∀ m, state w m = .active → OnRing w m
  shutdown : Keeps w .stopall → ∃ w', Step sys w .stopall w' ∧ Released sys w'

omit [DecidableEq M] in
private theorem onStopsOf_log (w : World M) : onStopsOf (core w).log = onStopsOf w.trace := by
  simp only [onStopsOf,core,List.filterMap_filterMap]
  exact List.filterMap_congr fun e _ => by cases e <;> rfl

private theorem none_open {w w' : World M} (succeeds : Succeeds sys o) (holds : Holds w R) (tied : Tied sys (core w) R)
    (keeps : Keeps w .stopall) (step : Step sys w .stopall w') : Balanced sys (core w') ∧ ∀ h, (core w').handle h ≠ .active := by
  obtain ⟨R',step',_⟩ := step_core succeeds holds step
  obtain ⟨balanced,onRing,shutdown⟩ := tied_step succeeds holds tied keeps step'
  have emptied : R' = noModules := by
    generalize core w' = c' at step'
    cases step'
    rfl
  refine ⟨balanced,fun h active => ?_⟩
  cases h with
  | shutdown => exact shutdown active
  | module m =>
    obtain ⟨l,inside⟩ := emptied ▸ onRing m active
    simp [noModules] at inside

private theorem tied_run (succeeds : Succeeds sys o) {ops : List (Operation M)} {w : World M}
    (run : Run (When (Step sys) Keeps) booted ops w) : ∃ R, Holds w R ∧ Tied sys (core w) R := by
  induction run with
  | nil =>
    have unopened : ∀ h, (core (booted : World M)).handle h = .unknown := fun h => by cases h <;> rfl
    have nothing : (core (booted : World M)).uvLoop = ⟨[],[],0⟩ := rfl
    have balanced : Balanced sys (core (booted : World M)) :=
      ⟨⟨.nil,fun h => by simp [nothing,unopened],rfl,.nil,fun h => by simp [nothing,unopened]⟩,
        fun m _ => by simp [unopened]; rfl⟩
    exact ⟨noModules,holds_booted,balanced,fun m active => by simp [unopened] at active,by simp [unopened]⟩
  | snoc _ fires ih =>
    obtain ⟨R,holds,tied⟩ := ih
    obtain ⟨step,keeps⟩ := fires
    obtain ⟨R',step',holds'⟩ := step_core succeeds holds step
    exact ⟨R',holds',tied_step succeeds holds tied keeps step'⟩

/-- What a stop of everything leaves that finds all registered modules running. -/
private theorem released_stopall {w w' : World M} (succeeds : Succeeds sys o) (holds : Holds w R) (tied : Tied sys (core w) R)
    (keeps : Keeps w .stopall) (step : Step sys w .stopall w') : Released sys w' := by
  obtain ⟨balanced,none⟩ := none_open succeeds holds tied keeps step
  refine ⟨fun m => none (.module m),fun m stops => ?_,?_⟩
  · have paired := balanced.paired m stops
    rw [if_neg (none _),Nat.add_zero] at paired
    rw [← startedOf_log,← onStopsOf_log,paired]
  · obtain ⟨w'',ran,_,dead⟩ := loop_ends balanced.loop none
    exact ⟨w'',ran,dead⟩

/-- In every run that unregisters no module with an open handle, starts none whose handle is in use and stops
    everything only when all registered modules run, no running module escapes a stop of everything. -/
theorem no_module_escapes (succeeds : Succeeds sys o) {ops : List (Operation M)} {w : World M}
    (run : Run (When (Step sys) Keeps) booted ops w) : Contained sys w := by
  obtain ⟨R,holds,tied⟩ := tied_run succeeds run
  have rings := holds.tidy.rings
  refine ⟨fun m active => (onRing_iff rings).mpr (tied.onRing m active),fun running => ?_⟩
  obtain ⟨w',step,_⟩ := stopall_step succeeds holds fun m there => running m ((onRing_iff rings).mpr there)
  exact ⟨w',step,released_stopall succeeds holds tied running step⟩

end

/-- A registered module is started. -/
theorem contained_of_start :
    ∃ w, Run (When (Step plainSystem) Keeps) booted [.register () systemLevel,.startall] w ∧ Contained plainSystem w := by
  obtain ⟨w₁,w,registered,core₁,started,_⟩ := plain_started
  have unknown : ∀ m, state w₁ m = .unknown := fun m => congrFun (congrArg Core.handle core₁) (.module m)
  have keeps : Keeps w₁ .startall := fun m _ => by simp [unknown]
  have run := (Run.single (show When (Step plainSystem) Keeps booted _ w₁ from ⟨registered,trivial⟩)).snoc ⟨started,keeps⟩
  exact ⟨w,run,no_module_escapes plain_succeeds run⟩

/-- A running module that is unregistered escapes the stop of everything: its handle stays open. -/
theorem unregistered_module_escapes :
    ∃ w w', Run (Step plainSystem) booted [.register () systemLevel,.startall,.unregister () systemLevel] w ∧
      state w () = .active ∧ ¬ OnRing w () ∧ Step plainSystem w .stopall w' ∧ state w' () = .active ∧
        ¬ Contained plainSystem w := by
  obtain ⟨_,w₁,registered,_,started,core₁,holds₁⟩ := plain_started
  have run := (Run.single registered).snoc started
  obtain ⟨w₂,step₂,core₂,holds₂⟩ : ∃ w, Step plainSystem w₁ (.unregister () systemLevel) w ∧ core w = core w₁ ∧
      Holds w (remove (add noModules systemLevel ()) ()) :=
    unregister_step holds₁ ⟨systemLevel,by simp [add]⟩ systemLevel
  have absent : ∀ m, ¬ Registered (remove (add noModules systemLevel ()) ()) m := fun m there =>
    ((registered_remove holds₁.tidy.rings.nodup).mp there).2 rfl
  obtain ⟨w₃,step₃,core₃,_⟩ := stopall_step plain_succeeds holds₂ (fun m there => absurd there (absent m))
  have running : state w₂ () = .active := by
    show (core w₂).handle (.module ()) = .active
    rw [core₂,core₁]; rfl
  have still : state w₃ () = .active := by
    show (core w₃).handle (.module ()) = .active
    rw [core₃,stoppedAll_handle,if_neg]
    · exact running
    · simpa [mem_stopOrder] using absent
  have off : ¬ OnRing w₂ () := fun there => absent () ((onRing_iff holds₂.tidy.rings).mp there)
  exact ⟨w₂,w₃,run.snoc step₂,running,off,step₃,still,fun contained => off (contained.onRing () running)⟩

end Armd.OpenHandles
