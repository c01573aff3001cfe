import Mathlib.Logic.Equiv.Basic
import Mathlib.Order.Lattice
import Mathlib.Data.Set.Insert
import Mathlib.Tactic.Common

/-!
Complete binary trees by position. The root is at position 1 and the children of
position `i` are at `2i` and `2i+1`, so a tree of `n` elements fills the
positions from 1 to `n`. The tree is in heap order when no element is before its
parent (`Ordered`); the root of such a tree is a least element (`Ordered.root_le`).
An element that may be too small for its place rises by exchanges with its
parent (`Rising`), one that may be too big sinks by exchanges with its smaller
child (`Sinking`), and both end in heap order.
-/
namespace Armd.HeapOrder
universe u v
variable {A : Type u} {K : Type v}

/-- The elements at two positions change places. -/
def exchange (cells : ℕ → A) (i j : ℕ) : ℕ → A := fun k => cells (Equiv.swap i j k)

@[simp] theorem exchange_left (cells : ℕ → A) (i j : ℕ) : exchange cells i j i = cells j := by simp [exchange]

@[simp] theorem exchange_right (cells : ℕ → A) (i j : ℕ) : exchange cells i j j = cells i := by simp [exchange]

theorem exchange_other (cells : ℕ → A) {i j k : ℕ} (notFirst : k ≠ i) (notSecond : k ≠ j) :
    exchange cells i j k = cells k := by
  rw [exchange,Equiv.swap_apply_of_ne_of_ne notFirst notSecond]

/-- The elements at the positions from 1 to `n`. -/
def Filled (cells : ℕ → A) (n : ℕ) : Set A := {x | ∃ i, 1 ≤ i ∧ i ≤ n ∧ cells i = x}

theorem mem_filled (cells : ℕ → A) {n i : ℕ} (first : 1 ≤ i) (last : i ≤ n) : cells i ∈ Filled cells n :=
  ⟨i,first,last,rfl⟩

theorem swap_inside {n i j k : ℕ} (iFirst : 1 ≤ i) (iLast : i ≤ n) (jFirst : 1 ≤ j) (jLast : j ≤ n) (kFirst : 1 ≤ k)
    (kLast : k ≤ n) : 1 ≤ Equiv.swap i j k ∧ Equiv.swap i j k ≤ n := by
  rw [Equiv.swap_apply_def]
  split
  · exact ⟨jFirst,jLast⟩
  · split
    · exact ⟨iFirst,iLast⟩
    · exact ⟨kFirst,kLast⟩

/-- An exchange inside the tree changes the places but not the elements. -/
theorem filled_exchange (cells : ℕ → A) {n i j : ℕ} (iFirst : 1 ≤ i) (iLast : i ≤ n) (jFirst : 1 ≤ j) (jLast : j ≤ n) :
    Filled (exchange cells i j) n = Filled cells n := by
  have inside := fun k => @swap_inside n i j k iFirst iLast jFirst jLast
  ext x
  constructor
  · rintro ⟨k,first,last,rfl⟩
    exact ⟨_,(inside k first last).1,(inside k first last).2,rfl⟩
  · rintro ⟨k,first,last,rfl⟩
    exact ⟨_,(inside k first last).1,(inside k first last).2,by simp [exchange]⟩

theorem filled_snoc (cells : ℕ → A) (n : ℕ) (x : A) :
    Filled (Function.update cells (n+1) x) (n+1) = insert x (Filled cells n) := by
  ext y
  constructor
  · rintro ⟨i,first,last,rfl⟩
    by_cases end_ : i = n+1
    · exact .inl (by rw [end_,Function.update_self])
    · rw [Function.update_of_ne end_]
      exact .inr ⟨i,first,by omega,rfl⟩
  · rintro (rfl | ⟨i,first,last,rfl⟩)
    · exact ⟨n+1,by omega,le_refl _,by simp⟩
    · exact ⟨i,first,by omega,Function.update_of_ne (by omega) x cells⟩

/-- The last of different elements in the place of one of them: that one is gone. -/
theorem filled_replace {cells : ℕ → A} {n r : ℕ} (first : 1 ≤ r) (last : r ≤ n+1)
    (distinct : ∀ i j, 1 ≤ i → i ≤ n+1 → 1 ≤ j → j ≤ n+1 → cells i = cells j → i = j) :
    Filled (Function.update cells r (cells (n+1))) n = Filled cells (n+1) \ {cells r} := by
  ext y
  constructor
  · rintro ⟨i,iFirst,iLast,rfl⟩
    by_cases same : i = r
    · subst same
      rw [Function.update_self]
      exact ⟨mem_filled cells (by omega) (le_refl _),fun e => by have := distinct _ _ (by omega) (le_refl _) first last e; omega⟩
    · rw [Function.update_of_ne same]
      exact ⟨mem_filled cells iFirst (by omega),fun e => same (distinct i r iFirst (by omega) first last e)⟩
  · rintro ⟨⟨i,iFirst,iLast,rfl⟩,other⟩
    have notR : i ≠ r := fun same => other (by rw [same]; rfl)
    by_cases end_ : i = n+1
    · subst end_
      exact ⟨r,first,by omega,by simp⟩
    · exact ⟨i,iFirst,by omega,Function.update_of_ne notR _ cells⟩

variable [LinearOrder K]

/-- No element is before its parent. -/
def Ordered (key : A → K) (cells : ℕ → A) (n : ℕ) : Prop :=
  ∀ i, 2 ≤ i → i ≤ n → key (cells (i/2)) ≤ key (cells i)

/-- Heap order but for the edge above `i`: the element there may be before its parent, its children are not. -/
structure Rising (key : A → K) (cells : ℕ → A) (n i : ℕ) : Prop where
  other : ∀ j, 2 ≤ j → j ≤ n → j ≠ i → key (cells (j/2)) ≤ key (cells j)
  around : ∀ j, 2 ≤ i → j/2 = i → j ≤ n → key (cells (i/2)) ≤ key (cells j)

/-- Heap order but for the edges that meet `i`, where the children are still not before the parent. -/
structure Sinking (key : A → K) (cells : ℕ → A) (n i : ℕ) : Prop where
  other : ∀ j, 2 ≤ j → j ≤ n → j ≠ i → j/2 ≠ i → key (cells (j/2)) ≤ key (cells j)
  around : ∀ j, 2 ≤ i → j/2 = i → j ≤ n → key (cells (i/2)) ≤ key (cells j)

variable {key : A → K} {cells : ℕ → A} {n i : ℕ}

/-- The root of a tree in heap order is a least element. -/
theorem Ordered.root_le (ordered : Ordered key cells n) : ∀ i, 1 ≤ i → i ≤ n → key (cells 1) ≤ key (cells i) := by
  intro i
  induction i using Nat.strong_induction_on with
  | _ i ih =>
    intro first last
    rcases Nat.lt_or_ge i 2 with root | below
    · have same : i = 1 := by omega
      rw [same]
    · exact (ih (i/2) (by omega) (by omega) (by omega)).trans (ordered i below last)

theorem ordered_empty (key : A → K) (cells : ℕ → A) : Ordered key cells 0 := by
  intro i below last
  omega

/-- The last element leaves a tree in heap order. -/
theorem Ordered.init (ordered : Ordered key cells (n+1)) : Ordered key cells n :=
  fun i below last => ordered i below (by omega)

/-- A new last element is the only one that may be before its parent. -/
theorem Ordered.snoc (ordered : Ordered key cells n) (x : A) : Rising key (Function.update cells (n+1) x) (n+1) (n+1) := by
  constructor
  · intro j below last other
    rw [Function.update_of_ne other,Function.update_of_ne (by omega)]
    exact ordered j below (by omega)
  · intro j _ child last
    omega

/-- Another element in the place of one is the only one that may be out of order. -/
theorem Ordered.replace (ordered : Ordered key cells n) (i : ℕ) (x : A) : Sinking key (Function.update cells i x) n i := by
  constructor
  · intro j below last other notChild
    rw [Function.update_of_ne other,Function.update_of_ne notChild]
    exact ordered j below last
  · intro j below child last
    rw [Function.update_of_ne (by omega),Function.update_of_ne (by omega)]
    have above := ordered i below (by omega)
    have under := ordered j (by omega) last
    rw [child] at under
    exact above.trans under

/-- Where the rising element is not before its parent the tree is in heap order. -/
theorem Rising.ordered (rising : Rising key cells n i) (settled : 2 ≤ i → key (cells (i/2)) ≤ key (cells i)) :
    Ordered key cells n := by
  intro j below last
  by_cases same : j = i
  · subst same; exact settled below
  · exact rising.other j below last same

/-- An element before its parent changes places with it and goes on rising there. -/
theorem Rising.exchange (rising : Rising key cells n i) (below : 2 ≤ i) (last : i ≤ n)
    (before : key (cells i) < key (cells (i/2))) : Rising key (exchange cells (i/2) i) n (i/2) := by
  have above : 2 ≤ i/2 → key (cells (i/2/2)) ≤ key (cells (i/2)) :=
    fun two => rising.other (i/2) two (by omega) (by omega)
  constructor
  · intro j two inside other
    by_cases same : j = i
    · subst same; simpa using before.le
    · rw [exchange_other cells other same]
      by_cases sibling : j/2 = i/2
      · rw [sibling,exchange_left]
        exact before.le.trans (sibling ▸ rising.other j two inside same)
      · by_cases child : j/2 = i
        · rw [child,exchange_right]
          exact rising.around j below child inside
        · rw [exchange_other cells sibling child]
          exact rising.other j two inside same
  · intro j two child inside
    rw [exchange_other cells (by omega) (by omega)]
    by_cases same : j = i
    · subst same; simpa using above two
    · rw [exchange_other cells (by omega) same]
      exact (above two).trans (child ▸ rising.other j (by omega) inside same)

/-- Where the sinking element is not after its children it may only be too small. -/
theorem Sinking.rising (sinking : Sinking key cells n i)
    (settled : ∀ j, j/2 = i → j ≤ n → key (cells i) ≤ key (cells j)) : Rising key cells n i := by
  refine ⟨fun j below last other => ?_,sinking.around⟩
  by_cases child : j/2 = i
  · rw [child]; exact settled j child last
  · exact sinking.other j below last other child

/-- An element after its smaller child changes places with it and goes on sinking there. -/
theorem Sinking.exchange {c : ℕ} (sinking : Sinking key cells n i) (first : 1 ≤ i) (child : c/2 = i) (last : c ≤ n)
    (after : key (cells c) < key (cells i)) (smaller : ∀ j, j/2 = i → j ≤ n → key (cells c) ≤ key (cells j)) :
    Sinking key (exchange cells i c) n c := by
  constructor
  · intro j two inside other notChild
    by_cases same : j = i
    · subst same
      rw [exchange_left,exchange_other cells (by omega) (by omega)]
      exact sinking.around c two child last
    · rw [exchange_other cells same other]
      by_cases sibling : j/2 = i
      · rw [sibling,exchange_left]
        exact smaller j sibling inside
      · rw [exchange_other cells sibling notChild]
        exact sinking.other j two inside same sibling
  · intro j _ under inside
    rw [child,exchange_left,exchange_other cells (by omega) (by omega)]
    have below := sinking.other j (by omega) inside (by omega) (by omega)
    rwa [under] at below

end Armd.HeapOrder
