import Armd.Runs
import Armd.Traversal
import Mathlib.Data.List.Induction

/-!
Sequences of calls that register and unregister modules, from an initialised
registry. The four rings stay well formed, and lookup, starting and stopping go
through them, exactly when no call registers a module that is on a ring and no
call unregisters a module that was never registered (`registry_wellFormed_iff`).
-/
namespace Armd.RegistryCalls
open Armd.Programs Armd.Runs Armd.LinkedRings Armd.Datastructure Armd.Memory Armd.Module Armd.Registry Armd.RegistryModel
  Armd.Traversal

variable {M : Type} [DecidableEq M]

inductive RegistryCall (M : Type)
  | register (m : M) (level : Fin maxLevel)
  | unregister (m : M) (level : Fin maxLevel)
  deriving DecidableEq

def RegistryCall.run : RegistryCall M → Program (World M) Unit
  | .register m level => armdModuleRegister (some m) level.val
  | .unregister m level => armdModuleUnregister (some m) level.val

def runCalls (calls : List (RegistryCall M)) : Program (World M) Unit :=
  calls.foldl (fun before call => before >>= fun _ => call.run) registryInit

theorem runCalls_snoc (calls : List (RegistryCall M)) (call : RegistryCall M) :
    runCalls (calls ++ [call]) = runCalls calls >>= fun _ => call.run := by
  simp [runCalls]

/-- What a call does to the lists; the level of an unregister has no effect. -/
def apply (R : Levels M) : RegistryCall M → Levels M
  | .register m level => add R level m
  | .unregister m _ => remove R m

def levelsAfter (calls : List (RegistryCall M)) : Levels M := calls.foldl apply noModules

/-- Some call of the list registers the module. -/
def Seen (calls : List (RegistryCall M)) (m : M) : Prop := ∃ level, .register m level ∈ calls

/-- A call that fits the calls before it. -/
def Allowed (before : List (RegistryCall M)) : RegistryCall M → Prop
  | .register m _ => ¬ Registered (levelsAfter before) m
  | .unregister m _ => Seen before m

/-- Every call fits the calls before it. -/
def Disciplined (calls : List (RegistryCall M)) : Prop := Along Allowed calls

theorem disciplined_single (m : M) (level : Fin maxLevel) : Disciplined [.register m level] := by
  intro before call prefixed
  obtain ⟨rfl,rfl⟩ : before = [] ∧ call = .register m level := by
    cases before <;> simp_all [List.prefix_cons_iff]
  rintro ⟨l,inside⟩
  simp [levelsAfter,noModules] at inside

/-! ### The links after a disciplined sequence -/

/-- The rings are the lists of the calls, and only a module that no call registered has the null pointers of
    zeroed memory. -/
structure Tracks (calls : List (RegistryCall M)) (w : World M) : Prop where
  initialized : w.registryInitialized = true
  tidy : Tidy w.lists (levelsAfter calls)
  seen : ∀ m, w.lists (.module m) = ⟨none,none⟩ ↔ ¬ Seen calls m

theorem initLists_module (ls : List (Fin maxLevel)) (h : Heap (Node M)) (m : M) :
    ls.foldl (fun lists level => armdListInit lists (.sentinel level)) h (.module m) = h (.module m) := by
  induction ls generalizing h with
  | nil => rfl
  | cons l rest ih => rw [List.foldl_cons,ih,armdListInit_of_ne h (by simp)]

theorem initLists_sentinel (ls : List (Fin maxLevel)) (h : Heap (Node M)) (l : Fin maxLevel)
    (there : l ∈ ls ∨ Alone h (.sentinel l)) :
    Alone (ls.foldl (fun lists level => armdListInit lists (.sentinel level)) h) (.sentinel l) := by
  induction ls generalizing h with
  | nil => simpa using there
  | cons l' rest ih =>
    refine ih _ ?_
    by_cases same : l = l'
    · subst same; exact .inr (armdListInit_alone h _)
    · have other : Node.sentinel l ≠ (Node.sentinel l' : Node M) := by simpa using same
      rcases there with member | alone
      · exact .inl (List.mem_of_ne_of_mem same member)
      · refine .inr (alone.frame ?_)
        intro x at_l
        rw [List.mem_singleton.mp at_l]
        exact armdListInit_of_ne h other

/-- The world after `registry_init`, called in zeroed memory. -/
def booted : World M :=
  { World.zero with
    lists := levels.foldl (fun lists level => armdListInit lists (.sentinel level)) World.zero.lists
    registryInitialized := true }

theorem registryInit_booted : registryInit (World.zero : World M) = .done () booted := rfl

theorem booted_null (m : M) : (booted : World M).lists (.module m) = ⟨none,none⟩ := initLists_module levels _ m

theorem booted_tidy : Tidy (booted : World M).lists noModules where
  rings :=
    { ring := fun l => initLists_sentinel levels _ l (.inl (List.mem_finRange l))
      apart := fun l l' m inside => by simp [noModules] at inside }
  off := fun m _ => .inl (booted_null m)

theorem tracks_nil : Tracks [] (booted : World M) :=
  ⟨rfl,booted_tidy,fun m => ⟨fun _ => by simp [Seen],fun _ => booted_null m⟩⟩

/-- What a call writes down in the trace. -/
def RegistryCall.event : RegistryCall M → Event M
  | .register m level => .registered m level.val
  | .unregister m level => .unregistered m level.val

theorem run_register {w : World M} (initialized : w.registryInitialized = true) (m : M) (level : Fin maxLevel)
    {h : Heap (Node M)} (inserted : armdListInsert (armdListInit w.lists (.module m)) (.sentinel level) (.module m) = h) :
    (RegistryCall.register m level).run w =
      .done () (({ w with lists := h } : World M).record (RegistryCall.register m level).event) := by
  simp [RegistryCall.run,armdModuleRegister,initialized,onLists,inserted,record,RegistryCall.event]

theorem run_unregister {w : World M} (initialized : w.registryInitialized = true) (m : M) (level : Fin maxLevel)
    {h : Heap (Node M)} (deleted : armdListDelete w.lists (.module m) = h) :
    (RegistryCall.unregister m level).run w =
      .done () (({ w with lists := h } : World M).record (RegistryCall.unregister m level).event) := by
  simp [RegistryCall.run,armdModuleUnregister,initialized,onLists,deleted,record,RegistryCall.event]

theorem run_unregister_null {w : World M} (initialized : w.registryInitialized = true) (m : M) (level : Fin maxLevel)
    (null : armdListDelete w.lists (.module m) = none) : (RegistryCall.unregister m level).run w = .abort w := by
  simp [RegistryCall.run,armdModuleUnregister,initialized,onLists,null]

/-- A call writes links and the trace only. -/
theorem preserves_call {X : Type} {view : World M → X} (links : ∀ w lists, view { w with lists := lists } = view w)
    (traced : ∀ w e, view (w.record e) = view w) (call : RegistryCall M) : Program.Preserves view call.run := by
  have written : ∀ f, Program.Preserves view (onLists f : Program (World M) Unit) := by
    intro f w u w' wrote
    obtain ⟨_,_,rfl⟩ := onLists_eq_done.mp wrote
    exact links w _
  cases call with
  | register m level =>
    refine Program.preserves_bind Program.preserves_get fun w => ?_
    simp only [level.isLt,dif_pos]
    refine Program.preserves_ite ?_ (Program.preserves_pure ())
    exact Program.preserves_bind (written _) fun _ => Program.preserves_change fun w => traced w _
  | unregister m level =>
    refine Program.preserves_bind Program.preserves_get fun w => Program.preserves_ite (Program.preserves_pure ()) ?_
    exact Program.preserves_bind (written _) fun _ => Program.preserves_change fun w => traced w _

theorem levelsAfter_snoc (calls : List (RegistryCall M)) (call : RegistryCall M) :
    levelsAfter (calls ++ [call]) = apply (levelsAfter calls) call := by
  simp [levelsAfter]

theorem seen_of_registered {calls : List (RegistryCall M)} {m : M} (present : Registered (levelsAfter calls) m) :
    Seen calls m := by
  induction calls using List.reverseRecOn with
  | nil => obtain ⟨l,inside⟩ := present; simp [levelsAfter,noModules] at inside
  | append_singleton calls call ih =>
    rw [levelsAfter_snoc] at present
    have grown : Seen calls m → Seen (calls ++ [call]) m := fun ⟨level,member⟩ => ⟨level,by simp [member]⟩
    cases call with
    | register m' level =>
      rcases registered_add.mp present with old | rfl
      · exact grown (ih old)
      · exact ⟨level,by simp⟩
    | unregister m' level =>
      obtain ⟨l,inside⟩ := present
      exact grown (ih ⟨l,List.mem_of_mem_erase inside⟩)

omit [DecidableEq M] in
theorem seen_snoc_register {calls : List (RegistryCall M)} {m m' : M} {level : Fin maxLevel} :
    Seen (calls ++ [.register m level]) m' ↔ Seen calls m' ∨ m' = m := by
  simp [Seen,exists_or]

omit [DecidableEq M] in
theorem seen_snoc_unregister {calls : List (RegistryCall M)} {m m' : M} {level : Fin maxLevel} :
    Seen (calls ++ [.unregister m level]) m' ↔ Seen calls m' := by
  simp [Seen]

theorem Tracks.of_off {calls : List (RegistryCall M)} {w : World M} (tracks : Tracks calls w) {m : M}
    (seen : Seen calls m) (off : ¬ Registered (levelsAfter calls) m) : Alone w.lists (.module m) :=
  (tracks.tidy.off m off).resolve_left (fun null => (tracks.seen m).mp null seen)

/-- A call that fits runs to its end and keeps the links tracked. -/
theorem tracks_snoc {calls : List (RegistryCall M)} {w : World M} (tracks : Tracks calls w) {call : RegistryCall M}
    (allowed : Allowed calls call) : ∃ w', call.run w = .done () w' ∧ Tracks (calls ++ [call]) w' := by
  cases call with
  | register m level =>
    obtain ⟨g,inserted,tidy,_⟩ := tidy_register tracks.tidy level allowed
    refine ⟨_,run_register tracks.initialized m level inserted,tracks.initialized,
      by rw [levelsAfter_snoc]; exact tidy,fun m' => ?_⟩
    rw [seen_snoc_register,not_or,← tracks.seen]
    exact null_register tracks.tidy allowed inserted m'
  | unregister m level =>
    by_cases present : Registered (levelsAfter calls) m
    · obtain ⟨g,deleted,tidy,_⟩ := tidy_delete tracks.tidy present
      refine ⟨_,run_unregister tracks.initialized m level deleted,tracks.initialized,
        by rw [levelsAfter_snoc]; exact tidy,fun m' => ?_⟩
      rw [seen_snoc_unregister,← tracks.seen]
      exact null_delete tracks.tidy present deleted m'
    · have same : levelsAfter (calls ++ [.unregister m level]) = levelsAfter calls := by
        rw [levelsAfter_snoc,apply,remove_of_not_registered present]
      have deleted := armdListDelete_alone (tracks.of_off allowed present)
      refine ⟨_,run_unregister tracks.initialized m level deleted,tracks.initialized,by rw [same]; exact tracks.tidy,
        fun m' => ?_⟩
      rw [seen_snoc_unregister]
      exact tracks.seen m'

/-! ### What the calls guarantee -/

/-- Lookup, starting and stopping everything go through the registered modules, each of them once, and end. -/
structure Traverses (w : World M) (R : Levels M) : Prop where
  startOnce : (startOrder R).Nodup
  stopOnce : (stopOrder R).Nodup
  find : ∀ sys fuel name, rounds R ≤ fuel →
    armdModuleFind sys fuel (some name) w = .done ((startOrder R).find? (nameMatches sys name)) w
  startall : ∀ sys fuel, RegistryQuiet sys → rounds R ≤ fuel → armdModuleStartall sys fuel .defaultLoop w =
    (startEach sys .defaultLoop (startOrder R) w).andThen (fun r => pure (r.getD 0))
  stopall : ∀ sys fuel, RegistryQuiet sys → rounds R ≤ fuel →
    armdModuleStopall sys fuel w = stopEach sys (stopOrder R) w

theorem traverses {R : Levels M} {w : World M} (tidy : Tidy w.lists R)
    (initialized : w.registryInitialized = true) : Traverses w R where
  startOnce := startOrder_nodup tidy.rings
  stopOnce := stopOrder_nodup tidy.rings
  find := fun sys _ name enough => find_eq sys name tidy.rings initialized enough
  startall := fun _ _ quiet enough => startall_eq quiet.onStart tidy.rings initialized enough
  stopall := fun _ _ quiet enough => stopall_eq quiet.onStop tidy initialized enough

/-- The calls end without a null dereference, and leave rings that the loops over the registry can go through. -/
def WellFormedAfter (calls : List (RegistryCall M)) : Prop :=
  ∃ w R, runCalls calls World.zero = .done () w ∧ Represents w.lists R ∧ Traverses w R

theorem wellFormed_of_tracks {calls : List (RegistryCall M)} {w : World M} (ran : runCalls calls World.zero = .done () w)
    (tracks : Tracks calls w) : WellFormedAfter calls :=
  ⟨w,levelsAfter calls,ran,tracks.tidy.rings,traverses tracks.tidy tracks.initialized⟩

theorem tracks_of_disciplined {calls : List (RegistryCall M)} (disciplined : Disciplined calls) :
    ∃ w, runCalls calls World.zero = .done () w ∧ Tracks calls w := by
  induction calls using List.reverseRecOn with
  | nil => exact ⟨booted,rfl,tracks_nil⟩
  | append_singleton calls call ih =>
    obtain ⟨before,allowed⟩ := along_snoc.mp disciplined
    obtain ⟨w,ran,tracks⟩ := ih before
    obtain ⟨w',called,tracks'⟩ := tracks_snoc tracks allowed
    exact ⟨w',by rw [runCalls_snoc,Program.bind_run,ran,Outcome.andThen_done,called],tracks'⟩

/-- A call that does not fit dereferences a null pointer or breaks a ring. -/
theorem not_wellFormed_of_not_allowed {calls : List (RegistryCall M)} {w : World M} {call : RegistryCall M}
    (ran : runCalls calls World.zero = .done () w) (tracks : Tracks calls w) (unfit : ¬ Allowed calls call) :
    ¬ WellFormedAfter (calls ++ [call]) := by
  rintro ⟨w',R',ran',rep',_⟩
  rw [runCalls_snoc,Program.bind_run,ran,Outcome.andThen_done] at ran'
  cases call with
  | register m level =>
    obtain ⟨g,inserted⟩ : ∃ g, armdListInsert (armdListInit w.lists (.module m)) (.sentinel level) (.module m) = some g :=
      ⟨_,armdListInsert_eq _ (by rw [armdListInit_of_ne _ (by simp)]; exact (tracks.tidy.rings.ring level).prev_start)⟩
    rw [run_register tracks.initialized m level inserted] at ran'
    cases ran'
    exact register_twice_breaks tracks.tidy.rings (not_not.mp unfit) inserted R' rep'
  | unregister m level =>
    have null : armdListDelete w.lists (.module m) = none :=
      armdListDelete_null (by rw [(tracks.seen m).mpr unfit])
    rw [run_unregister_null tracks.initialized m level null] at ran'
    cases ran'

/-- The registry stays well formed through a sequence of calls exactly when each of them registers a
    module that is on no ring or unregisters one that was registered before. -/
theorem registry_wellFormed_iff (calls : List (RegistryCall M)) :
    (∀ before, before <+: calls → WellFormedAfter before) ↔ Disciplined calls := by
  constructor
  · intro all
    induction calls using List.reverseRecOn with
    | nil => intro before call prefixed; simp at prefixed
    | append_singleton calls call ih =>
      have disciplined := ih (fun before prefixed => all before (prefixed.trans (List.prefix_append _ _)))
      obtain ⟨w,ran,tracks⟩ := tracks_of_disciplined disciplined
      refine along_snoc.mpr ⟨disciplined,?_⟩
      by_contra unfit
      exact not_wellFormed_of_not_allowed ran tracks unfit (all _ (List.prefix_refl _))
  · intro disciplined before prefixed
    obtain ⟨w,ran,tracks⟩ := tracks_of_disciplined (disciplined.earlier prefixed)
    exact wellFormed_of_tracks ran tracks

/-- A module registered at one level and then at another. -/
def registeredTwice : List (RegistryCall Unit) := [.register () systemLevel,.register () coreLevel]

/-- Afterwards the ring of the first level runs into the sentinel of the second: the rings are no
    registry, and starting everything takes that sentinel for a module. -/
theorem registering_twice_breaks_the_rings :
    ¬ (∀ before, before <+: registeredTwice → WellFormedAfter before) ∧
      ∃ w, runCalls registeredTwice World.zero = .done () w ∧
        (w.lists (.sentinel systemLevel)).next = some (.module ()) ∧
          (w.lists (.module ())).next = some (.sentinel coreLevel) := by
  have links : ∃ w, runCalls registeredTwice World.zero = .done () w ∧
      (w.lists (.sentinel systemLevel)).next = some (.module ()) ∧
        (w.lists (.module ())).next = some (.sentinel coreLevel) := ⟨_,rfl,rfl,rfl⟩
  refine ⟨fun all => ?_,links⟩
  obtain ⟨w',ran',first,second⟩ := links
  obtain ⟨w,R,ran,rep,_⟩ := all registeredTwice (List.prefix_refl _)
  obtain ⟨_,rfl⟩ := Outcome.done.inj (ran.symm.trans ran')
  have onRing := (rep.ring systemLevel).next_mem (List.mem_cons_self ..) first
  have further := (rep.ring systemLevel).next_mem onRing second
  simp [systemLevel,coreLevel] at further

end Armd.RegistryCalls
