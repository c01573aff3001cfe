import Armd.Registry

/-!
The registry as four lists of modules. A heap represents the lists when the ring
of every level runs through its list and no module is on two levels
(`Represents`). Registering a module that is on no ring appends it
(`represents_register`), unregistering one that is on a ring removes it
(`represents_unregister`), and registering one that is on a ring leaves no
registry at all (`register_twice_breaks`). Modules that are on no ring keep links
that a further delete can follow (`Tidy`).
-/
namespace Armd.RegistryModel
open Armd.Programs Armd.LinkedRings Armd.Datastructure Armd.Memory Armd.Registry

variable {M : Type}

/-- The registered modules of each level, in the order of their registration. -/
abbrev Levels (M : Type) := Fin maxLevel → List M

/-- The empty registry. -/
def noModules : Levels M := fun _ => []

/-- A module is registered at some level. -/
def Registered (R : Levels M) (m : M) : Prop := ∃ l, m ∈ R l

/-- The rings of the heap run through the lists, and the levels share no module. -/
structure Represents (h : Heap (Node M)) (R : Levels M) : Prop where
  ring : ∀ l, Ring h (.sentinel l) ((R l).map .module)
  apart : ∀ l l' m, m ∈ R l → m ∈ R l' → l = l'

theorem Represents.nodup {h : Heap (Node M)} {R : Levels M} (rep : Represents h R) (l : Fin maxLevel) : (R l).Nodup :=
  (List.nodup_cons.mp (rep.ring l).nodup).2.of_map

theorem Represents.unique {h : Heap (Node M)} {R R' : Levels M} (rep : Represents h R) (rep' : Represents h R') :
    R = R' := by
  funext l
  exact List.map_injective_iff.mpr (fun _ _ same => Node.module.inj same) ((rep.ring l).unique (rep'.ring l))

theorem Represents.frame {h g : Heap (Node M)} {R : Levels M} (rep : Represents h R)
    (sentinels : ∀ l, g (.sentinel l) = h (.sentinel l)) (modules : ∀ m, Registered R m → g (.module m) = h (.module m)) :
    Represents g R := by
  refine ⟨fun l => (rep.ring l).frame ?_,rep.apart⟩
  intro x member
  rcases List.mem_cons.mp member with rfl | later
  · exact sentinels l
  · obtain ⟨m,inside,rfl⟩ := List.mem_map.mp later
    exact modules m ⟨l,inside⟩

section
variable [DecidableEq M]

def add (R : Levels M) (l : Fin maxLevel) (m : M) : Levels M := Function.update R l (R l ++ [m])
def remove (R : Levels M) (m : M) : Levels M := fun l => (R l).erase m

omit [DecidableEq M] in
theorem mem_add {R : Levels M} {l l' : Fin maxLevel} {m m' : M} :
    m' ∈ add R l m l' ↔ m' ∈ R l' ∨ (l' = l ∧ m' = m) := by
  by_cases same : l' = l
  · subst same; simp [add]
  · simp [add,same]

omit [DecidableEq M] in
theorem registered_add {R : Levels M} {l : Fin maxLevel} {m m' : M} :
    Registered (add R l m) m' ↔ Registered R m' ∨ m' = m := by
  constructor
  · rintro ⟨l',inside⟩
    rcases mem_add.mp inside with old | ⟨_,new⟩
    · exact .inl ⟨l',old⟩
    · exact .inr new
  · rintro (⟨l',old⟩ | rfl)
    · exact ⟨l',mem_add.mpr (.inl old)⟩
    · exact ⟨l,mem_add.mpr (.inr ⟨rfl,rfl⟩)⟩

theorem mem_remove {R : Levels M} (nodup : ∀ l, (R l).Nodup) {l : Fin maxLevel} {m m' : M} :
    m' ∈ remove R m l ↔ m' ∈ R l ∧ m' ≠ m := by
  rw [remove,(nodup l).mem_erase_iff,and_comm]

theorem registered_remove {R : Levels M} (nodup : ∀ l, (R l).Nodup) {m m' : M} :
    Registered (remove R m) m' ↔ Registered R m' ∧ m' ≠ m := by
  simp only [Registered,mem_remove nodup,exists_and_right]

theorem remove_of_not_registered {R : Levels M} {m : M} (absent : ¬ Registered R m) : remove R m = R := by
  funext l
  exact List.erase_of_not_mem (fun inside => absent ⟨l,inside⟩)

/-- Registering a module that is on no ring appends it to its level. -/
theorem represents_register {h : Heap (Node M)} {R : Levels M} (rep : Represents h R) {m : M} (l : Fin maxLevel)
    (absent : ¬ Registered R m) :
    ∃ g, armdListInsert (armdListInit h (.module m)) (.sentinel l) (.module m) = some g ∧ Represents g (add R l m) ∧
      ∀ m', m' ≠ m → ¬ Registered R m' → g (.module m') = h (.module m') := by
  have init : Represents (armdListInit h (.module m)) R := by
    refine rep.frame (fun l => armdListInit_of_ne h (by simp)) ?_
    rintro m' inside
    exact armdListInit_of_ne h (by rintro ⟨rfl⟩; exact absent inside)
  have fresh : Node.module m ∉ Node.sentinel l :: (R l).map .module := by
    intro member
    rcases List.mem_cons.mp member with e | later
    · cases e
    · obtain ⟨m',inside,e⟩ := List.mem_map.mp later
      cases e; exact absent ⟨l,inside⟩
  obtain ⟨g,inserted,ring,others⟩ := armdListInsert_ring (init.ring l) fresh
  refine ⟨g,inserted,⟨?_,?_⟩,?_⟩
  · intro l'
    by_cases same : l' = l
    · subst same; simpa [add] using ring
    · have unchanged : add R l m l' = R l' := by simp [add,same]
      rw [unchanged]
      refine (init.ring l').frame (fun x member => others x ?_)
      intro there
      simp only [List.mem_cons,List.mem_append,List.mem_map,List.not_mem_nil,or_false] at member there
      rcases member with rfl | ⟨m',inside,rfl⟩
      · rcases there with e | ⟨_,_,e⟩ | e
        · cases e; exact same rfl
        · cases e
        · cases e
      · rcases there with e | ⟨m'',inside',e⟩ | e
        · cases e
        · cases e; exact same (rep.apart _ _ _ inside inside')
        · cases e; exact absent ⟨l',inside⟩
  · intro l₁ l₂ m' first second
    rcases mem_add.mp first with old | ⟨rfl,rfl⟩ <;> rcases mem_add.mp second with old' | ⟨e,e'⟩
    · exact rep.apart _ _ _ old old'
    · subst e'; exact absurd ⟨_,old⟩ absent
    · exact absurd ⟨_,old'⟩ absent
    · exact e.symm
  · intro m' other out
    rw [others]
    · exact armdListInit_of_ne h (by rintro ⟨rfl⟩; exact other rfl)
    · intro there
      simp only [List.mem_cons,List.mem_append,List.mem_map,List.not_mem_nil,or_false] at there
      rcases there with e | ⟨m'',inside,e⟩ | e
      · cases e
      · cases e; exact out ⟨l,inside⟩
      · cases e; exact other rfl

/-- Unregistering a module that is on a ring takes it off its level and leaves its node alone. -/
theorem represents_unregister {h : Heap (Node M)} {R : Levels M} (rep : Represents h R) {m : M}
    (present : Registered R m) :
    ∃ g, armdListDelete h (.module m) = some g ∧ Represents g (remove R m) ∧ Alone g (.module m) ∧
      ∀ m', ¬ Registered R m' → g (.module m') = h (.module m') := by
  obtain ⟨l,inside⟩ := present
  obtain ⟨front,back,split⟩ := List.append_of_mem inside
  have whole : (R l).map Node.module = front.map Node.module ++ Node.module m :: back.map .module := by simp [split]
  have ringL := rep.ring l
  rw [whole] at ringL
  obtain ⟨g,deleted,ring,alone,others⟩ := armdListDelete_ring ringL
  have notFront : m ∉ front := by
    have distinct := rep.nodup l
    rw [split] at distinct
    exact fun there => (List.nodup_append.mp distinct).2.2 m there m (by simp) rfl
  refine ⟨g,deleted,⟨?_,?_⟩,alone,?_⟩
  · intro l'
    by_cases same : l' = l
    · subst same
      have left : remove R m l' = front ++ back := by
        simp [remove,split,List.erase_append_right _ notFront]
      rw [left,List.map_append]
      exact ring
    · have elsewhere : m ∉ R l' := fun there => same (rep.apart _ _ _ there inside)
      have unchanged : remove R m l' = R l' := List.erase_of_not_mem elsewhere
      rw [unchanged]
      refine (rep.ring l').frame (fun x member => others x ?_)
      rw [← whole]
      intro there
      simp only [List.mem_cons,List.mem_map] at member there
      rcases member with rfl | ⟨m',inside',rfl⟩
      · rcases there with e | ⟨_,_,e⟩
        · cases e; exact same rfl
        · cases e
      · rcases there with e | ⟨m'',inside'',e⟩
        · cases e
        · cases e; exact same (rep.apart _ _ _ inside' inside'')
  · intro l₁ l₂ m' first second
    exact rep.apart _ _ _ ((mem_remove rep.nodup).mp first).1 ((mem_remove rep.nodup).mp second).1
  · intro m' out
    apply others
    rw [← whole]
    intro there
    simp only [List.mem_cons,List.mem_map] at there
    rcases there with e | ⟨m'',inside'',e⟩
    · cases e
    · cases e; exact out ⟨l,inside''⟩

/-- A heap that represents the lists, in which every module that is on no ring has either the null pointers
    of zeroed memory or is alone. -/
structure Tidy (h : Heap (Node M)) (R : Levels M) : Prop where
  rings : Represents h R
  off : ∀ m, ¬ Registered R m → h (.module m) = ⟨none,none⟩ ∨ Alone h (.module m)

omit [DecidableEq M] in
theorem alone_not_null {h : Heap (Node M)} {m : M} (alone : Alone h (.module m)) : h (.module m) ≠ ⟨none,none⟩ := by
  intro null
  simpa [null] using ((alone_iff _ _).mp alone).1

omit [DecidableEq M] in
theorem registered_not_null {h : Heap (Node M)} {R : Levels M} (rep : Represents h R) {m : M}
    (present : Registered R m) : h (.module m) ≠ ⟨none,none⟩ := by
  obtain ⟨l,inside⟩ := present
  obtain ⟨⟨_,_,forward⟩,_⟩ := (rep.ring l).linked (List.mem_cons_of_mem _ (List.mem_map.mpr ⟨m,inside,rfl⟩))
  intro null
  simpa [null] using forward.1

omit [DecidableEq M] in
theorem off_frame {h g : Heap (Node M)} {m : M} (same : g (.module m) = h (.module m))
    (off : h (.module m) = ⟨none,none⟩ ∨ Alone h (.module m)) : g (.module m) = ⟨none,none⟩ ∨ Alone g (.module m) := by
  rcases off with null | alone
  · exact .inl (same.trans null)
  · refine .inr (alone.frame fun x at_m => ?_)
    rw [List.mem_singleton.mp at_m]
    exact same

theorem tidy_register {h : Heap (Node M)} {R : Levels M} (tidy : Tidy h R) {m : M} (l : Fin maxLevel)
    (absent : ¬ Registered R m) :
    ∃ g, armdListInsert (armdListInit h (.module m)) (.sentinel l) (.module m) = some g ∧ Tidy g (add R l m) ∧
      ∀ m', m' ≠ m → ¬ Registered R m' → g (.module m') = h (.module m') := by
  obtain ⟨g,inserted,rep,others⟩ := represents_register tidy.rings l absent
  refine ⟨g,inserted,⟨rep,fun m' out => ?_⟩,others⟩
  rw [registered_add,not_or] at out
  exact off_frame (others m' out.2 out.1) (tidy.off m' out.1)

theorem tidy_delete {h : Heap (Node M)} {R : Levels M} (tidy : Tidy h R) {m : M} (present : Registered R m) :
    ∃ g, armdListDelete h (.module m) = some g ∧ Tidy g (remove R m) ∧ Alone g (.module m) ∧
      ∀ m', ¬ Registered R m' → g (.module m') = h (.module m') := by
  obtain ⟨g,deleted,rep,alone,others⟩ := represents_unregister tidy.rings present
  refine ⟨g,deleted,⟨rep,fun m' out => ?_⟩,alone,others⟩
  by_cases same : m' = m
  · exact .inr (same ▸ alone)
  · have before : ¬ Registered R m' := fun there => out ((registered_remove tidy.rings.nodup).mpr ⟨there,same⟩)
    exact off_frame (others m' before) (tidy.off m' before)

/-- Registering a module gives it links, and no other. -/
theorem null_register {h g : Heap (Node M)} {R : Levels M} (tidy : Tidy h R) {m : M} {l : Fin maxLevel}
    (absent : ¬ Registered R m)
    (inserted : armdListInsert (armdListInit h (.module m)) (.sentinel l) (.module m) = some g) (m' : M) :
    g (.module m') = ⟨none,none⟩ ↔ h (.module m') = ⟨none,none⟩ ∧ m' ≠ m := by
  obtain ⟨g',inserted',tidy',others⟩ := tidy_register tidy l absent
  cases inserted.symm.trans inserted'
  by_cases known : Registered (add R l m) m'
  · have linked := registered_not_null tidy'.rings known
    refine ⟨fun null => absurd null linked,?_⟩
    rintro ⟨null,other⟩
    exact absurd null (registered_not_null tidy.rings ((registered_add.mp known).resolve_right other))
  · rw [registered_add,not_or] at known
    rw [others m' known.2 known.1]
    exact ⟨fun null => ⟨null,known.2⟩,fun both => both.1⟩

/-- Unregistering leaves no null pointers behind. -/
theorem null_delete {h g : Heap (Node M)} {R : Levels M} (tidy : Tidy h R) {m : M} (present : Registered R m)
    (deleted : armdListDelete h (.module m) = some g) (m' : M) :
    g (.module m') = ⟨none,none⟩ ↔ h (.module m') = ⟨none,none⟩ := by
  obtain ⟨g',deleted',tidy',alone,others⟩ := tidy_delete tidy present
  cases deleted.symm.trans deleted'
  by_cases known : Registered R m'
  · have before := registered_not_null tidy.rings known
    have after : g (.module m') ≠ ⟨none,none⟩ := by
      by_cases same : m' = m
      · exact same ▸ alone_not_null alone
      · exact registered_not_null tidy'.rings ((registered_remove tidy.rings.nodup).mpr ⟨known,same⟩)
    exact ⟨fun null => absurd null after,fun null => absurd null before⟩
  · rw [others m' known]

/-- Deleting a module that is on no ring changes nothing, or follows a null pointer. -/
theorem tidy_delete_off {h : Heap (Node M)} {R : Levels M} (tidy : Tidy h R) {m : M} (absent : ¬ Registered R m) :
    armdListDelete h (.module m) = none ∨ armdListDelete h (.module m) = some h := by
  rcases tidy.off m absent with null | alone
  · exact .inl (armdListDelete_null (by rw [null]))
  · exact .inr (armdListDelete_alone alone)

/-- Registering a module that is on a ring breaks a ring: its old predecessor still leads to it, and it
    no longer leads back. -/
theorem register_twice_breaks {h g : Heap (Node M)} {R : Levels M} (rep : Represents h R) {m : M} {l : Fin maxLevel}
    (present : Registered R m)
    (inserted : armdListInsert (armdListInit h (.module m)) (.sentinel l) (.module m) = some g) :
    ∀ R', ¬ Represents g R' := by
  intro R' rep'
  obtain ⟨l₀,inside⟩ := present
  obtain ⟨front,back,split⟩ := List.append_of_mem inside
  have ring₀ := rep.ring l₀
  rw [split,List.map_append,List.map_cons] at ring₀
  obtain ⟨toM,_⟩ := (path_append h _ _ _ _ _).mp ring₀.path
  set walked := Node.sentinel l₀ :: front.map .module with walkedIs
  set p := walked.getLast (by simp [walkedIs]) with pIs
  set q := (Node.sentinel l :: (R l).map .module).getLast (by simp) with qIs
  have before : Linked h p (.module m) := path_last toM
  have lastNext : (h q).next = some (.sentinel l) := (path_last (rep.ring l).path).1
  have notM : Node.module m ∉ walked := by
    have distinct := ring₀.nodup
    intro there
    rw [← List.cons_append,← walkedIs] at distinct
    exact (List.nodup_append.mp distinct).2.2 _ there (.module m) (by simp) rfl
  -- on the way to `m` no node is the last of the ring that `m` joins
  have notQ : q ∉ walked := by
    intro there
    have onward : ∃ y ∈ front.map Node.module ++ [Node.module m], (h q).next = some y := path_next toM q there
    obtain ⟨y,member,next⟩ := onward
    rw [lastNext,Option.some.injEq] at next
    subst next
    simp at member
  have written : g = (armdListInit h (.module m)).linkBetween q (.sentinel l) (.module m) := by
    have prev : (armdListInit h (.module m) (.sentinel l)).prev = some q := by
      rw [armdListInit_of_ne h (by simp)]; exact (rep.ring l).prev_start
    rw [armdListInsert_eq (.module m) prev,Option.some.injEq] at inserted
    exact inserted.symm
  have nexts : ∀ x ∈ walked, (g x).next = (h x).next := by
    intro x member
    have xNotM : x ≠ .module m := by rintro rfl; exact notM member
    have xNotQ : x ≠ q := by rintro rfl; exact notQ member
    simp [written,Heap.linkBetween,armdListInit,xNotM,xNotQ]
  have pIn : p ∈ walked := List.getLast_mem _
  have onRing := (rep'.ring l₀).walk_mem toM nexts (by simp) p pIn
  obtain ⟨⟨y,_,forward⟩,_⟩ := (rep'.ring l₀).linked onRing
  have y_m : y = .module m := by simpa [forward.1,before.1] using nexts p pIn
  have back_q : (g (.module m)).prev = some q := by simp [written,Heap.linkBetween]
  have same : p = q := by simpa [y_m ▸ forward.2] using back_q
  exact notQ (same ▸ pIn)

end

end Armd.RegistryModel
