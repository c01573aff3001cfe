import Mathlib.Algebra.Ring.Nat
import Armd.BinaryHeap

/-!
The shape of a heap of nodes. A heap of `n` nodes is complete when its pointers
are those of the tree that fills the positions from 1 to `n` (`Complete`). The
path of bits leads from the root to the place of a position (`descend_path`);
an exchange of nodes is an exchange of positions (`complete_swap`), a new node
becomes the last one (`complete_snoc`), the last one leaves (`complete_init`)
and takes the place of another (`complete_replace`).
-/
namespace Armd.HeapShape
open Armd.Programs Armd.Programs.Program Armd.HeapOrder Armd.BinaryHeap
variable {N : Type}

/-- The node at a position of a tree of `n` nodes. -/
def nodeAt (cells : ℕ → N) (n i : ℕ) : Option N := if 1 ≤ i ∧ i ≤ n then some (cells i) else none

/-- The pointers of the heap are those of the tree that fills the positions from 1 to `n`. -/
structure Complete (h : HeapState N) (cells : ℕ → N) (n : ℕ) : Prop where
  nelts : h.nelts = n
  min : h.min = nodeAt cells n 1
  node : ∀ i, 1 ≤ i → i ≤ n →
    h.nodes (cells i) = ⟨nodeAt cells n (2*i),nodeAt cells n (2*i+1),nodeAt cells n (i/2)⟩
  distinct : ∀ i j, 1 ≤ i → i ≤ n → 1 ≤ j → j ≤ n → cells i = cells j → i = j

section
variable {h : HeapState N} {cells : ℕ → N} {n : ℕ}

theorem nodeAt_inside (cells : ℕ → N) {n i : ℕ} (first : 1 ≤ i) (last : i ≤ n) : nodeAt cells n i = some (cells i) :=
  if_pos ⟨first,last⟩

theorem nodeAt_outside (cells : ℕ → N) {n i : ℕ} (out : i < 1 ∨ n < i) : nodeAt cells n i = none :=
  if_neg (by omega)

private theorem Complete.cells_eq_iff (complete : Complete h cells n) {i j : ℕ} (iFirst : 1 ≤ i) (iLast : i ≤ n)
    (jFirst : 1 ≤ j) (jLast : j ≤ n) : cells i = cells j ↔ i = j :=
  ⟨complete.distinct i j iFirst iLast jFirst jLast,fun same => by rw [same]⟩

/-- A place holds a node of the tree only at the node's own position. -/
private theorem Complete.nodeAt_eq_iff (complete : Complete h cells n) {i : ℕ} (first : 1 ≤ i) (last : i ≤ n) (k : ℕ) :
    nodeAt cells n k = some (cells i) ↔ k = i := by
  constructor
  · intro found
    simp only [nodeAt,Option.ite_none_right_eq_some,Option.some.injEq] at found
    exact complete.distinct k i found.1.1 found.1.2 first last found.2
  · intro same
    rw [same]
    exact nodeAt_inside cells first last

theorem nodeAt_ne (cells : ℕ → N) {n : ℕ} {y : N} (outside : y ∉ Filled cells n) (k : ℕ) :
    nodeAt cells n k ≠ some y := by
  intro found
  simp only [nodeAt,Option.ite_none_right_eq_some,Option.some.injEq] at found
  exact outside ⟨k,found.1.1,found.1.2,found.2⟩

theorem Complete.family (complete : Complete h cells n) {i : ℕ} (below : 2 ≤ i) (last : i ≤ n) :
    Family h (cells (i/2)) (cells i) := by
  have up := complete.node (i/2) (by omega) (by omega)
  have down := complete.node i (by omega) last
  constructor
  · rw [ne_eq,complete.cells_eq_iff (by omega) (by omega) (by omega) last]
    omega
  · rw [up]
    simp only [ne_eq,complete.nodeAt_eq_iff (by omega : 1 ≤ i/2) (by omega),complete.nodeAt_eq_iff (by omega : 1 ≤ i) last]
    omega
  · rw [down]
    simp only [ne_eq,complete.nodeAt_eq_iff (by omega : 1 ≤ i) last]
    omega
  · rw [up]
    simp only [ne_eq,complete.nodeAt_eq_iff (by omega : 1 ≤ i) last]
    omega

private theorem nodeAt_exchange (cells : ℕ → N) {n a i : ℕ} (aFirst : 1 ≤ a) (aLast : a ≤ n) (iFirst : 1 ≤ i) (iLast : i ≤ n)
    (k : ℕ) : nodeAt (exchange cells a i) n k =
      if k = a then some (cells i) else if k = i then some (cells a) else nodeAt cells n k := by
  by_cases first : k = a
  · subst first; simp [nodeAt,aFirst,aLast]
  · by_cases second : k = i
    · subst second; simp [nodeAt,iFirst,iLast,first]
    · simp [nodeAt,first,second,exchange_other cells first second]

/-- Down from a position by the lowest bits of a path. -/
def follow : ℕ → ℕ → ℕ → ℕ
  | pos, _, 0 => pos
  | pos, path, k+1 => follow (2*pos + path%2) (path/2) k

private theorem le_follow : ∀ (k pos path : ℕ), pos ≤ follow pos path k := by
  intro k
  induction k with
  | zero => intro pos path; exact le_refl pos
  | succ k ih =>
    intro pos path
    have deeper := ih (2*pos + path%2) (path/2)
    simp only [follow]
    omega

private theorem two_le_follow {pos : ℕ} (first : 1 ≤ pos) (path k : ℕ) : 2 ≤ follow pos path (k+1) := by
  have deeper := le_follow k (2*pos + path%2) (path/2)
  simp only [follow]
  omega

private theorem pathLoop_follow : ∀ (fuel n path k : ℕ), 1 ≤ n → n ≤ fuel → path < 2^k → n * 2^k < uintMax →
    follow 1 (pathLoop fuel n path k).1 (pathLoop fuel n path k).2 = follow n path k := by
  intro fuel
  induction fuel with
  | zero => intro n path k first enough; omega
  | succ fuel ih =>
    intro n path k first enough small fits
    unfold pathLoop
    by_cases more : 2 ≤ n
    · rw [if_pos more]
      have double : 2^(k+1) = 2 * 2^k := Nat.pow_succ'
      have halves : n/2 * (2 * 2^k) ≤ n * 2^k := by
        rw [← Nat.mul_assoc]
        exact Nat.mul_le_mul_right _ (by omega)
      have bound : 2 * 2^k ≤ n * 2^k := Nat.mul_le_mul_right _ more
      have noWrap : (2*path + n%2) % uintMax = 2*path + n%2 := Nat.mod_eq_of_lt (by omega)
      rw [noWrap,ih (n/2) (2*path + n%2) (k+1) (by omega) (by omega) (by omega) (double ▸ halves.trans_lt fits)]
      have bit : (2*path + n%2) % 2 = n%2 := by omega
      have rest : (2*path + n%2) / 2 = path := by omega
      have whole : 2*(n/2) + n%2 = n := by omega
      rw [follow,bit,rest,whole]
    · have root : n = 1 := by omega
      rw [if_neg more,root]

/-- The path to a position leads there from the root. -/
theorem pathTo_follow {n : ℕ} (first : 1 ≤ n) (fits : n < uintMax) : follow 1 (pathTo n).1 (pathTo n).2 = n :=
  pathLoop_follow n n 0 0 first (le_refl n) (by omega) (by omega)

theorem pathTo_zero_iff {n : ℕ} (first : 1 ≤ n) (fits : n < uintMax) : (pathTo n).2 = 0 ↔ n = 1 := by
  have arrives := pathTo_follow first fits
  constructor
  · intro none
    rw [none] at arrives
    exact arrives.symm
  · intro root
    cases steps : (pathTo n).2 with
    | zero => rfl
    | succ k =>
      have deep := two_le_follow (le_refl 1) (pathTo n).1 k
      rw [steps] at arrives
      omega

/-- The pointer that leads to a position. -/
def slotOf (cells : ℕ → N) (i : ℕ) : Slot N :=
  if i < 2 then .min else if i % 2 = 1 then .right (cells (i/2)) else .left (cells (i/2))

theorem read_slotOf (complete : Complete h cells n) {i : ℕ} (first : 1 ≤ i) (under : i/2 ≤ n) :
    h.read (slotOf cells i) = nodeAt cells n i := by
  unfold slotOf
  by_cases root : i < 2
  · have same : i = 1 := by omega
    rw [if_pos root,same]
    exact complete.min
  · rw [if_neg root]
    have up := complete.node (i/2) (by omega) under
    by_cases odd : i % 2 = 1
    · rw [if_pos odd]
      have whole : 2*(i/2) + 1 = i := by omega
      simp only [HeapState.read,up,whole]
    · rw [if_neg odd]
      have whole : 2*(i/2) = i := by omega
      simp only [HeapState.read,up,whole]

private theorem slotOf_child {pos b : ℕ} (first : 1 ≤ pos) (bit : b < 2) (cells : ℕ → N) :
    slotOf cells (2*pos+b) = if b = 1 then .right (cells pos) else .left (cells pos) := by
  have half : (2*pos+b)/2 = pos := by omega
  have parity : (2*pos+b) % 2 = b := by omega
  rw [slotOf,if_neg (by omega),half,parity]

/-- Following a path leads to the slot of its end, and to the slot of the node above it. -/
theorem descend_path (complete : Complete h cells n) : ∀ (k path pos : ℕ) (parent : Slot N), 1 ≤ pos →
    (k = 0 ∨ follow pos path k / 2 ≤ n) → descend k path parent (slotOf cells pos) h =
      .done (if k = 0 then parent else slotOf cells (follow pos path k / 2),slotOf cells (follow pos path k)) h := by
  intro k
  induction k with
  | zero => intro path pos parent first _; rfl
  | succ k ih =>
    intro path pos parent first inside
    have deeper := le_follow k (2*pos + path%2) (path/2)
    have end_ : follow pos path (k+1) = follow (2*pos + path%2) (path/2) k := rfl
    have here : pos ≤ n := by omega
    have found : h.read (slotOf cells pos) = some (cells pos) := by
      rw [read_slotOf complete first (by omega),nodeAt_inside cells first here]
    have next := slotOf_child first (by omega : path % 2 < 2) cells
    simp only [descend,bind_run,get_run,Outcome.andThen_done,found]
    rw [← next,ih (path/2) (2*pos + path%2) _ (by omega) (by omega),← end_]
    by_cases last : k = 0
    · subst last
      have up : follow pos path 1 / 2 = pos := by simp only [follow]; omega
      simp [up]
    · simp [last]

/-- A heap whose tree nodes are the same has the same shape. -/
theorem Complete.frame {g : HeapState N} (complete : Complete h cells n) (nelts : g.nelts = h.nelts) (min : g.min = h.min)
    (same : ∀ x ∈ Filled cells n, g.nodes x = h.nodes x) : Complete g cells n where
  nelts := nelts.trans complete.nelts
  min := min.trans complete.min
  node := fun i first last => (same _ (mem_filled cells first last)).trans (complete.node i first last)
  distinct := complete.distinct

theorem complete_heapInit (nodes : N → HeapNode N) (cells : ℕ → N) : Complete (heapInit nodes) cells 0 where
  nelts := rfl
  min := rfl
  node := fun i first last => by omega
  distinct := fun i j first last => by omega

variable [DecidableEq N]

/-- The exchange of a node with its parent is the exchange of their positions. -/
theorem complete_swap (complete : Complete h cells n) {i : ℕ} (below : 2 ≤ i) (last : i ≤ n) :
    Complete (heapNodeSwap h (cells (i/2)) (cells i)) (exchange cells (i/2) i) n := by
  have family := complete.family below last
  obtain ⟨a,aIs⟩ : ∃ a, a = i/2 := ⟨_,rfl⟩
  have aFirst : 1 ≤ a := by omega
  have aLast : a ≤ n := by omega
  have iFirst : 1 ≤ i := by omega
  rw [← aIs] at family ⊢
  have up := complete.node a aFirst aLast
  have down := complete.node i iFirst last
  have atI := complete.nodeAt_eq_iff iFirst last
  have atA := complete.nodeAt_eq_iff aFirst aLast
  constructor
  · rw [heapNodeSwap_nelts,complete.nelts]
  · rw [heapNodeSwap_min family,up,nodeAt_exchange cells aFirst aLast iFirst last,complete.min]
    simp only [nodeAt]
    grind
  · intro j first inside
    have atJ := complete.nodeAt_eq_iff first inside
    have here := complete.node j first inside
    have jIsA := complete.cells_eq_iff first inside aFirst aLast
    have jIsI := complete.cells_eq_iff first inside iFirst last
    have apart := complete.cells_eq_iff iFirst last aFirst aLast
    simp only [nodeAt_exchange cells aFirst aLast iFirst last]
    by_cases isA : j = a
    · subst isA
      rw [exchange_left]
      ext1
      · rw [heapNodeSwap_left family,up,down]
        grind
      · rw [heapNodeSwap_right family,up,down]
        grind
      · rw [heapNodeSwap_parent family,up,down]
        grind
    · by_cases isI : j = i
      · subst isI
        rw [exchange_right]
        ext1
        · rw [heapNodeSwap_left family,up,down]
          grind
        · rw [heapNodeSwap_right family,up,down]
          grind
        · rw [heapNodeSwap_parent family,up,down]
          grind
      · rw [exchange_other cells isA isI]
        ext1
        · rw [heapNodeSwap_left family,up,down,here]
          grind
        · rw [heapNodeSwap_right family,up,down,here]
          grind
        · rw [heapNodeSwap_parent family,up,down,here]
          grind
  · intro j k jFirst jLast kFirst kLast same
    obtain ⟨j₁,j₂⟩ := swap_inside aFirst aLast iFirst last jFirst jLast
    obtain ⟨k₁,k₂⟩ := swap_inside aFirst aLast iFirst last kFirst kLast
    exact (Equiv.swap a i).injective (complete.distinct _ _ j₁ j₂ k₁ k₂ same)

/-- An exchange touches no node outside the tree. -/
theorem complete_swap_frame (complete : Complete h cells n) {i : ℕ} (below : 2 ≤ i) (last : i ≤ n) {y : N}
    (outside : y ∉ Filled cells n) : (heapNodeSwap h (cells (i/2)) (cells i)).nodes y = h.nodes y := by
  have family := complete.family below last
  have up := complete.node (i/2) (by omega) (by omega)
  have down := complete.node i (by omega) last
  have notAt := nodeAt_ne cells outside
  have notP : y ≠ cells (i/2) := fun same => outside (same ▸ mem_filled cells (by omega) (by omega))
  have notC : y ≠ cells i := fun same => outside (same ▸ mem_filled cells (by omega) last)
  ext1
  · rw [heapNodeSwap_left family,up]
    simp [notP,notC,notAt]
  · rw [heapNodeSwap_right family,up]
    simp [notP,notC,notAt]
  · rw [heapNodeSwap_parent family,up,down]
    grind

omit [DecidableEq N] in
private theorem nodeAt_snoc (cells : ℕ → N) (n : ℕ) (x : N) (i : ℕ) :
    nodeAt (Function.update cells (n+1) x) (n+1) i = if i = n+1 then some x else nodeAt cells n i := by
  by_cases last : i = n+1
  · subst last; simp [nodeAt]
  · have bound : (1 ≤ i ∧ i ≤ n+1) ↔ (1 ≤ i ∧ i ≤ n) := by omega
    simp [nodeAt,last,bound]

/-- The new node as the heap links it: below the node above the first free position, and without children. -/
def addLeaf (h : HeapState N) (parent child : Slot N) (x : N) : HeapState N :=
  let h := h.setParent x (h.read parent)
  let h := h.write child (some x)
  { h with nelts := (h.nelts+1) % uintMax }

omit [DecidableEq N] in
private theorem slotOf_eq_left {cells : ℕ → N} {i : ℕ} {y : N} :
    slotOf cells i = .left y ↔ 2 ≤ i ∧ i % 2 = 0 ∧ cells (i/2) = y := by
  unfold slotOf
  grind

omit [DecidableEq N] in
private theorem slotOf_eq_right {cells : ℕ → N} {i : ℕ} {y : N} :
    slotOf cells i = .right y ↔ 2 ≤ i ∧ i % 2 = 1 ∧ cells (i/2) = y := by
  unfold slotOf
  grind

omit [DecidableEq N] in
private theorem slotOf_eq_min {cells : ℕ → N} {i : ℕ} : slotOf cells i = .min ↔ i < 2 := by
  unfold slotOf
  grind

omit [DecidableEq N] in
private theorem read_above (complete : Complete h cells n) :
    h.read (slotOf cells ((n+1)/2)) = nodeAt cells n ((n+1)/2) := by
  rcases Nat.eq_zero_or_pos n with none | some
  · subst none
    exact complete.min
  · exact read_slotOf complete (by omega) (by omega)

/-- A node that has joined at the first free position is the last one. -/
theorem complete_snoc (complete : Complete h cells n) {x : N} (fresh : x ∉ Filled cells n)
    (bare : h.nodes x = ⟨none,none,none⟩) (fits : n+1 < uintMax) :
    Complete (addLeaf h (slotOf cells ((n+1)/2)) (slotOf cells (n+1)) x) (Function.update cells (n+1) x) (n+1) := by
  have above := read_above complete
  have other : ∀ i, 1 ≤ i → i ≤ n → cells i ≠ x := fun i first last same => fresh ⟨i,first,last,same⟩
  constructor
  · simp [addLeaf,complete.nelts,Nat.mod_eq_of_lt fits]
  · simp only [addLeaf,HeapState.write_min,HeapState.setParent_min,complete.min,nodeAt_snoc,slotOf_eq_min]
    grind
  · intro j first inside
    simp only [nodeAt_snoc]
    by_cases last : j = n+1
    · subst last
      rw [Function.update_self]
      ext1
      · simp only [addLeaf,HeapState.write_left,HeapState.setParent_left,bare,slotOf_eq_left,nodeAt]
        grind
      · simp only [addLeaf,HeapState.write_right,HeapState.setParent_right,bare,slotOf_eq_right,nodeAt]
        grind
      · simp only [addLeaf,HeapState.write_parent,HeapState.setParent_parent,above]
        grind
    · rw [Function.update_of_ne last]
      have here := complete.node j first (by omega)
      have notX := other j first (by omega)
      ext1
      · simp only [addLeaf,HeapState.write_left,HeapState.setParent_left,here,slotOf_eq_left]
        grind [complete.distinct]
      · simp only [addLeaf,HeapState.write_right,HeapState.setParent_right,here,slotOf_eq_right]
        grind [complete.distinct]
      · simp only [addLeaf,HeapState.write_parent,HeapState.setParent_parent,here]
        grind
  · intro i j iFirst iLast jFirst jLast same
    grind [Function.update_apply,complete.distinct]

/-- The pointers of a new node and of the one above it are the only ones that change. -/
theorem addLeaf_frame (h : HeapState N) {x y : N} (outside : y ∉ Filled cells n) (other : y ≠ x) :
    (addLeaf h (slotOf cells ((n+1)/2)) (slotOf cells (n+1)) x).nodes y = h.nodes y := by
  have notAt : ∀ i, 2 ≤ i → i ≤ n+1 → cells (i/2) ≠ y := fun i two last same => outside ⟨i/2,by omega,by omega,same⟩
  ext1
  · simp only [addLeaf,HeapState.write_left,HeapState.setParent_left,slotOf_eq_left]
    grind
  · simp only [addLeaf,HeapState.write_right,HeapState.setParent_right,slotOf_eq_right]
    grind
  · simp only [addLeaf,HeapState.write_parent,HeapState.setParent_parent,other,if_false]

/-- The heap without its last node. -/
def dropLast (h : HeapState N) (last : Slot N) : HeapState N := ({ h with nelts := h.nelts-1 }).write last none

theorem complete_init (complete : Complete h cells (n+1)) : Complete (dropLast h (slotOf cells (n+1))) cells n := by
  constructor
  · simp [dropLast,complete.nelts]
  · simp only [dropLast,HeapState.write_min,complete.min,slotOf_eq_min,nodeAt]
    grind
  · intro j first inside
    have here := complete.node j first (by omega)
    have apart := complete.distinct
    ext1
    · simp only [dropLast,HeapState.write_left,here,slotOf_eq_left,nodeAt]
      grind
    · simp only [dropLast,HeapState.write_right,here,slotOf_eq_right,nodeAt]
      grind
    · simp only [dropLast,HeapState.write_parent,here,nodeAt]
      grind
  · intro i j iFirst iLast jFirst jLast same
    exact complete.distinct i j iFirst (by omega) jFirst (by omega) same

theorem dropLast_frame (h : HeapState N) {y : N} (outside : y ∉ Filled cells (n+1)) :
    (dropLast h (slotOf cells (n+1))).nodes y = h.nodes y := by
  have notAt : ∀ i, 2 ≤ i → i ≤ n+1 → cells (i/2) ≠ y := fun i two last same => outside ⟨i/2,by omega,by omega,same⟩
  ext1
  · simp only [dropLast,HeapState.write_left,slotOf_eq_left]
    grind
  · simp only [dropLast,HeapState.write_right,slotOf_eq_right]
    grind
  · simp only [dropLast,HeapState.write_parent]

/-- A node that is not in the tree takes over the position of one that is. -/
theorem complete_replace (complete : Complete h cells n) {r : ℕ} (first : 1 ≤ r) (last : r ≤ n) {x : N}
    (fresh : x ∉ Filled cells n) : Complete (takePlace h (cells r) x) (Function.update cells r x) n := by
  have notAt := nodeAt_ne cells fresh
  have other : ∀ i, 1 ≤ i → i ≤ n → cells i ≠ x := fun i first last same => fresh ⟨i,first,last,same⟩
  have atR := complete.nodeAt_eq_iff first last
  have notR := other r first last
  have apart := complete.distinct
  have whole := complete.node r first last
  have place : ∀ k, nodeAt (Function.update cells r x) n k = if k = r then some x else nodeAt cells n k := by
    intro k
    unfold nodeAt
    grind [Function.update_apply]
  constructor
  · simp [takePlace,complete.nelts]
  · simp [takePlace,notR,whole,complete.min,place]
    grind [nodeAt]
  · intro j jFirst jLast
    simp only [place]
    by_cases same : j = r
    · subst same
      rw [Function.update_self]
      ext1
      · simp [takePlace,notR,whole,notAt]
        grind
      · simp [takePlace,notR,whole,notAt]
        grind
      · simp [takePlace,notR,whole,notAt]
        grind
    · rw [Function.update_of_ne same]
      have here := complete.node j jFirst jLast
      have notJ := other j jFirst jLast
      have atJ := complete.nodeAt_eq_iff jFirst jLast
      ext1
      · simp [takePlace,notR,whole,here,notJ]
        grind
      · simp [takePlace,notR,whole,here,notJ]
        grind
      · simp [takePlace,notR,whole,here,notJ,atJ]
        grind
  · intro i j iFirst iLast jFirst jLast same
    grind [Function.update_apply]

theorem takePlace_frame (complete : Complete h cells n) {r : ℕ} (first : 1 ≤ r) (last : r ≤ n) {x y : N}
    (fresh : x ∉ Filled cells n) (outside : y ∉ Filled cells n) (other : y ≠ x) :
    (takePlace h (cells r) x).nodes y = h.nodes y := by
  have notR : cells r ≠ x := fun same => fresh ⟨r,first,last,same⟩
  have notAt := nodeAt_ne cells outside
  have whole := complete.node r first last
  ext1
  · simp [takePlace,notR,whole,other]
    grind
  · simp [takePlace,notR,whole,other]
    grind
  · simp [takePlace,notR,whole,notAt,other]

end

end Armd.HeapShape
