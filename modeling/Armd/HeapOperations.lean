import Mathlib.Data.Nat.Log
import Mathlib.Data.Set.Card
import Mathlib.Order.Interval.Finset.Nat
import Armd.HeapShape
import Armd.Runs

/-!
What the heap operations do. A heap holds a set of nodes when its pointers are
those of a complete tree in heap order whose nodes are that set (`Holds`).
Inserting adds a node (`heapInsert_holds`), removing takes away whichever node
it is given (`heapRemove_holds`), both end within the depth of the tree and
leave every other node as it was, and the minimum is a least node of the set
(`heapMin_holds`). So it is after any calls that a caller is allowed
(`heap_calls`).
-/
namespace Armd.HeapOperations
open Armd.Programs Armd.Programs.Program Armd.Runs Armd.HeapOrder Armd.BinaryHeap Armd.HeapShape
universe v
variable {N : Type} {K : Type v} [LinearOrder K]

/-- The comparison of nodes is the one of their keys. -/
def Compares (lessThan : N → N → Bool) (key : N → K) : Prop := ∀ a b, lessThan a b = decide (key a < key b)

/-- The nodes of the heap are those of `S`, in a complete tree in heap order. -/
def Holds (key : N → K) (h : HeapState N) (S : Set N) : Prop :=
  ∃ cells, Complete h cells h.nelts ∧ Ordered key cells h.nelts ∧ Filled cells h.nelts = S

/-- The tree after a walk: other places, the same nodes, and nothing else written. -/
structure Walked (h : HeapState N) (cells : ℕ → N) (n : ℕ) (h' : HeapState N) (cells' : ℕ → N) : Prop where
  complete : Complete h' cells' n
  filled : Filled cells' n = Filled cells n
  others : ∀ y ∉ Filled cells n, h'.nodes y = h.nodes y

section
variable {key : N → K} {lessThan : N → N → Bool} {h : HeapState N} {cells : ℕ → N} {n : ℕ}

omit [LinearOrder K] in
theorem Walked.trans {h' h'' : HeapState N} {cells' cells'' : ℕ → N} (first : Walked h cells n h' cells')
    (second : Walked h' cells' n h'' cells'') : Walked h cells n h'' cells'' where
  complete := second.complete
  filled := second.filled.trans first.filled
  others := fun y outside => (second.others y (first.filled ▸ outside)).trans (first.others y outside)

theorem Complete.holds (complete : Complete h cells n) (ordered : Ordered key cells n) : Holds key h (Filled cells n) := by
  have size := complete.nelts
  subst size
  exact ⟨cells,complete,ordered,rfl⟩

/-- The counter is right. -/
theorem Holds.size {S : Set N} (holds : Holds key h S) : S.ncard = h.nelts := by
  obtain ⟨cells,complete,_,rfl⟩ := holds
  have image : Filled cells h.nelts = Set.image cells (Set.Icc 1 h.nelts) := by
    ext x
    simp [Filled,and_assoc]
  have injective : Set.InjOn cells (Set.Icc 1 h.nelts) := fun i inside j inside' same =>
    complete.distinct i j inside.1 inside.2 inside'.1 inside'.2 same
  rw [image,injective.ncard_image,Set.ncard_eq_toFinset_card',Set.toFinset_Icc,Nat.card_Icc,Nat.add_sub_cancel]

variable [DecidableEq N]

private theorem walked_swap (complete : Complete h cells n) {i : ℕ} (below : 2 ≤ i) (last : i ≤ n) :
    Walked h cells n (heapNodeSwap h (cells (i/2)) (cells i)) (exchange cells (i/2) i) where
  complete := complete_swap complete below last
  filled := filled_exchange cells (by omega) (by omega) (by omega) last
  others := fun _ outside => complete_swap_frame complete below last outside

/-- A rising node comes to rest within the depth of its place. -/
private theorem siftUp_ordered (compares : Compares lessThan key) : ∀ (fuel i : ℕ) (cells : ℕ → N) (h : HeapState N),
    Complete h cells n → Rising key cells n i → 1 ≤ i → i ≤ n → i < 2^fuel →
      ∃ h' cells', siftUp lessThan fuel (cells i) h = .done () h' ∧ Walked h cells n h' cells' ∧ Ordered key cells' n := by
  intro fuel
  induction fuel with
  | zero => intro i cells h _ _ first _ shallow; omega
  | succ fuel ih =>
    intro i cells h complete rising first last shallow
    have here := complete.node i first last
    by_cases root : i = 1
    · subst root
      refine ⟨h,cells,?_,⟨complete,rfl,fun _ _ => rfl⟩,rising.ordered (fun two => by omega)⟩
      exact loop_end fuel (by simp [here,nodeAt])
    · have up : nodeAt cells n (i/2) = some (cells (i/2)) := nodeAt_inside cells (by omega) (by omega)
      by_cases before : key (cells i) < key (cells (i/2))
      · have swapped := walked_swap complete (by omega : 2 ≤ i) last
        have risen := rising.exchange (by omega) last before
        obtain ⟨h',cells',run,walked,ordered⟩ := ih (i/2) _ _ swapped.complete risen (by omega) (by omega) (by omega)
        refine ⟨h',cells',?_,swapped.trans walked,ordered⟩
        rw [exchange_left] at run
        rw [← run]
        exact loop_next fuel (by simp [here,up,compares _ _,before])
      · refine ⟨h,cells,?_,⟨complete,rfl,fun _ _ => rfl⟩,rising.ordered (fun _ => not_lt.mp before)⟩
        exact loop_end fuel (by simp [here,up,compares _ _,before])

omit [DecidableEq N] in
/-- A candidate is taken only when it is before the one at hand. -/
private theorem smallerOf_nodeAt (compares : Compares lessThan key) (cells : ℕ → N) (n j s : ℕ) :
    ∃ t, smallerOf lessThan (nodeAt cells n j) (cells s) = cells t ∧
      (t = s ∨ (t = j ∧ 1 ≤ j ∧ j ≤ n ∧ key (cells j) < key (cells s))) ∧ key (cells t) ≤ key (cells s) ∧
      (1 ≤ j → j ≤ n → key (cells t) ≤ key (cells j)) := by
  by_cases inside : 1 ≤ j ∧ j ≤ n
  · obtain ⟨first,last⟩ := inside
    by_cases before : key (cells j) < key (cells s)
    · refine ⟨j,?_,.inr ⟨rfl,first,last,before⟩,before.le,fun _ _ => le_refl _⟩
      simp [smallerOf,nodeAt,first,last,compares _ _,before]
    · refine ⟨s,?_,.inl rfl,le_refl _,fun _ _ => not_lt.mp before⟩
      simp [smallerOf,nodeAt,first,last,compares _ _,before]
  · refine ⟨s,?_,.inl rfl,le_refl _,fun first last => absurd ⟨first,last⟩ inside⟩
    simp [smallerOf,nodeAt,inside]

/-- A sinking node comes to rest within the height of the tree below it. -/
private theorem siftDown_rising (compares : Compares lessThan key) : ∀ (fuel i : ℕ) (cells : ℕ → N) (h : HeapState N),
    Complete h cells n → Sinking key cells n i → 1 ≤ i → i ≤ n → n < i * 2^fuel →
      ∃ h' cells' r, siftDown lessThan fuel (cells i) h = .done () h' ∧ Walked h cells n h' cells' ∧
        Rising key cells' n r ∧ 1 ≤ r ∧ r ≤ n ∧ cells' r = cells i := by
  intro fuel
  induction fuel with
  | zero => intro i cells h _ _ first last shallow; omega
  | succ fuel ih =>
    intro i cells h complete sinking first last shallow
    have here := complete.node i first last
    obtain ⟨s,chosen,which,least,leastLeft⟩ := smallerOf_nodeAt compares cells n (2*i) i
    obtain ⟨c,chosen',which',least',leastRight⟩ := smallerOf_nodeAt compares cells n (2*i+1) s
    have smallest : smallerOf lessThan (h.nodes (cells i)).right (smallerOf lessThan (h.nodes (cells i)).left (cells i)) =
        cells c := by rw [here,chosen,chosen']
    have smaller : ∀ j, j/2 = i → j ≤ n → key (cells c) ≤ key (cells j) := by
      intro j child inside
      have sides : j = 2*i ∨ j = 2*i+1 := by omega
      rcases sides with left | right
      · rw [left]; exact least'.trans (leastLeft (by omega) (by omega))
      · rw [right]; exact leastRight (by omega) (by omega)
    by_cases rest : c = i
    · subst rest
      refine ⟨h,cells,c,loop_end fuel ?_,⟨complete,rfl,fun _ _ => rfl⟩,sinking.rising smaller,first,last,rfl⟩
      simp [smallest]
    · have child : c/2 = i ∧ c ≤ n ∧ key (cells c) < key (cells i) := by
        rcases which' with same | ⟨same,_,inside,before⟩
        · rcases which with same' | ⟨same',_,inside,before⟩
          · exact absurd (same.trans same') rest
          · rw [same,same']; exact ⟨by omega,inside,before⟩
        · rw [same]; exact ⟨by omega,inside,before.trans_le least⟩
      obtain ⟨under,inside,after⟩ := child
      have other : cells c ≠ cells i := fun same => rest (complete.distinct c i (by omega) inside first last same)
      have swapped := walked_swap complete (by omega : 2 ≤ c) inside
      have sunk := sinking.exchange first under inside after smaller
      rw [under] at swapped
      have shallow' : n < c * 2^fuel := by
        have double : i * 2^(fuel+1) = 2*i * 2^fuel := by rw [Nat.pow_succ',Nat.mul_left_comm,Nat.mul_assoc]
        have wider : 2*i * 2^fuel ≤ c * 2^fuel := Nat.mul_le_mul_right _ (by omega)
        omega
      obtain ⟨h',cells',r,run,walked,rising,rFirst,rLast,there⟩ :=
        ih c _ _ swapped.complete sunk (by omega) inside shallow'
      rw [exchange_right] at run there
      refine ⟨h',cells',r,?_,swapped.trans walked,rising,rFirst,rLast,there⟩
      rw [← run]
      exact loop_next fuel (by simp [smallest,other])

omit [DecidableEq N] in
/-- The walk from the root to a position that is in the tree or right behind it. -/
private theorem descend_pathTo (complete : Complete h cells n) {m : ℕ} (first : 1 ≤ m) (next : m ≤ n+1) (fits : m < uintMax) :
    descend (pathTo m).2 (pathTo m).1 .min .min h = .done (slotOf cells (m/2),slotOf cells m) h := by
  have arrives := pathTo_follow first fits
  have none := pathTo_zero_iff first fits
  have walk := descend_path complete (pathTo m).2 (pathTo m).1 1 .min (le_refl 1) (by omega)
  rw [arrives] at walk
  refine walk.trans ?_
  by_cases root : m = 1
  · subst root; simp [none,slotOf]
  · simp [none,root]

/-- Inserting a node that is not in the heap adds it to the nodes the heap holds. -/
theorem heapInsert_holds (compares : Compares lessThan key) {S : Set N} (holds : Holds key h S) {x : N} (fresh : x ∉ S)
    {fuel : ℕ} (fits : h.nelts+1 < uintMax) (enough : h.nelts+1 < 2^fuel) :
    ∃ h', heapInsert lessThan fuel x h = .done () h' ∧ Holds key h' (insert x S) ∧ h'.nelts = h.nelts+1 ∧
      ∀ y ∉ insert x S, h'.nodes y = h.nodes y := by
  obtain ⟨cells,complete,ordered,rfl⟩ := holds
  generalize count : h.nelts = n at *
  obtain ⟨bare,bareIs⟩ : ∃ g, g = h.setNode x ⟨none,none,none⟩ := ⟨_,rfl⟩
  have same : ∀ y, y ≠ x → bare.nodes y = h.nodes y := fun y other => by rw [bareIs,HeapState.setNode_nodes,if_neg other]
  have complete₁ : Complete bare cells n := complete.frame (by rw [bareIs]; rfl) (by rw [bareIs]; rfl)
    fun y inside => same y fun isX => fresh (isX ▸ inside)
  have node₁ : bare.nodes x = ⟨none,none,none⟩ := by rw [bareIs,HeapState.setNode_nodes,if_pos rfl]
  have complete₂ := complete_snoc complete₁ fresh node₁ fits
  obtain ⟨h',cells',run,walked,ordered'⟩ := siftUp_ordered compares fuel (n+1) _ _ complete₂ (ordered.snoc x)
    (by omega) (le_refl _) enough
  rw [Function.update_self] at run
  have filled := filled_snoc cells n x
  have holds' := Complete.holds walked.complete ordered'
  rw [walked.filled,filled] at holds'
  refine ⟨h',?_,holds',walked.complete.nelts,?_⟩
  · have position : (1 + bare.nelts) % uintMax = n+1 := by
      rw [complete₁.nelts,Nat.add_comm,Nat.mod_eq_of_lt fits]
    simp only [heapInsert,bind_run,change_run,get_run,Outcome.andThen_done,← bareIs,position,
      descend_pathTo complete₁ (by omega : 1 ≤ n+1) (le_refl _) fits]
    exact run
  · intro y outside
    have notX : y ≠ x := fun isX => outside (.inl isX)
    have notIn : y ∉ Filled cells n := fun inside => outside (.inr inside)
    rw [walked.others y (filled ▸ outside),addLeaf_frame bare notIn notX,same y notX]

omit [DecidableEq N] in
private theorem last_fresh (complete : Complete h cells (n+1)) : cells (n+1) ∉ Filled cells n := by
  rintro ⟨i,first,last,same⟩
  have := complete.distinct i (n+1) first (by omega) (by omega) (le_refl _) same
  omega

/-- A removal unlinks the last node, which then takes the place of the removed one if that is another. -/
private theorem heapRemove_eq (complete : Complete h cells (n+1)) (fits : n+1 < uintMax) (fuel : ℕ) (x : N) :
    heapRemove lessThan fuel (some x) h =
      if cells (n+1) = x then .done () (dropLast h (slotOf cells (n+1)))
      else (do
        siftDown lessThan fuel (cells (n+1))
        siftUp lessThan fuel (cells (n+1))) (takePlace (dropLast h (slotOf cells (n+1))) x (cells (n+1))) := by
  have size := complete.nelts
  have fresh := nodeAt_ne cells (last_fresh complete) 1
  rw [← (complete_init complete).min] at fresh
  have last := read_slotOf complete (by omega : 1 ≤ n+1) (by omega)
  rw [nodeAt_inside cells (by omega) (le_refl _)] at last
  have found : ({ h with nelts := h.nelts-1 } : HeapState N).read (slotOf cells (n+1)) = some (cells (n+1)) := by
    rw [← last]
    cases slotOf cells (n+1) <;> rfl
  have walk : descend (pathTo h.nelts).2 (pathTo h.nelts).1 .min .min h =
      .done (slotOf cells ((n+1)/2),slotOf cells (n+1)) h := by
    rw [size]
    exact descend_pathTo complete (by omega) (by omega) fits
  have dropped : ({ h with nelts := h.nelts-1 } : HeapState N).write (slotOf cells (n+1)) none =
      dropLast h (slotOf cells (n+1)) := rfl
  have notEmpty : h.nelts ≠ 0 := by omega
  simp only [heapRemove,bind_run,get_run,Outcome.andThen_done,ite_run,notEmpty,if_false,walk,change_run,found,
    Option.some.injEq,dropped,Ne.symm fresh,pure_run]

/-- Removing a node of the heap, wherever it is, takes away that node and no other. -/
theorem heapRemove_holds (compares : Compares lessThan key) {S : Set N} (holds : Holds key h S) {x : N} (member : x ∈ S)
    {fuel : ℕ} (fits : h.nelts < uintMax) (enough : h.nelts < 2^fuel) :
    ∃ h', heapRemove lessThan fuel (some x) h = .done () h' ∧ Holds key h' (S \ {x}) ∧ h'.nelts+1 = h.nelts ∧
      ∀ y ∉ S, h'.nodes y = h.nodes y := by
  obtain ⟨cells,complete,ordered,rfl⟩ := holds
  obtain ⟨r,first,last,rfl⟩ := member
  obtain ⟨n,count⟩ : ∃ n, h.nelts = n+1 := ⟨h.nelts-1,by omega⟩
  rw [count] at complete ordered last fits enough ⊢
  have init := complete_init complete
  have fresh := last_fresh complete
  have filled := filled_replace first last complete.distinct
  have dropped : ∀ y ∉ Filled cells (n+1), (dropLast h (slotOf cells (n+1))).nodes y = h.nodes y :=
    fun y outside => dropLast_frame h outside
  rw [heapRemove_eq complete fits fuel (cells r)]
  by_cases isLast : n+1 = r
  · subst isLast
    rw [Function.update_eq_self] at filled
    rw [if_pos rfl]
    exact ⟨_,rfl,filled ▸ Complete.holds init ordered.init,congrArg (· + 1) init.nelts,dropped⟩
  · have inside : r ≤ n := by omega
    have other : cells (n+1) ≠ cells r := fun same => isLast (complete.distinct _ _ (by omega) (le_refl _) first last same)
    rw [if_neg other]
    have placed := complete_replace init first inside fresh
    obtain ⟨h₁,cells₁,i,sank,walked₁,rising,iFirst,iLast,there⟩ := siftDown_rising compares fuel r _ _ placed
      (ordered.init.replace r (cells (n+1))) first inside (enough.trans_le' (by omega) |>.trans_le (Nat.le_mul_of_pos_left _ first))
    obtain ⟨h₂,cells₂,rose,walked₂,ordered₂⟩ := siftUp_ordered compares fuel i _ _ walked₁.complete rising iFirst iLast
      (by omega)
    rw [Function.update_self] at sank there
    rw [there] at rose
    have walked := walked₁.trans walked₂
    have holds' := Complete.holds walked.complete ordered₂
    rw [walked.filled,filled] at holds'
    refine ⟨h₂,?_,holds',congrArg (· + 1) walked.complete.nelts,?_⟩
    · simp only [bind_run,sank,Outcome.andThen_done,rose]
    · intro y outside
      have notLast : y ≠ cells (n+1) := fun same => outside (same ▸ mem_filled cells (by omega) (le_refl _))
      have notIn : y ∉ Filled cells n := fun inside => outside (by
        obtain ⟨i,iFirst,iLast,same⟩ := inside
        exact ⟨i,iFirst,by omega,same⟩)
      rw [walked.others y (fun inside => outside (filled ▸ inside).1),takePlace_frame init first inside fresh notIn notLast]
      exact dropped y outside

omit [DecidableEq N] in
/-- The minimum is null exactly when the heap holds nothing, else it is a least node. -/
theorem heapMin_holds {S : Set N} (holds : Holds key h S) :
    (heapMin h = none ↔ S = ∅) ∧ ∀ x, heapMin h = some x → x ∈ S ∧ ∀ y ∈ S, key x ≤ key y := by
  obtain ⟨cells,complete,ordered,rfl⟩ := holds
  have min := complete.min
  rw [← heapMin] at min
  constructor
  · constructor
    · intro null
      ext x
      simp only [Set.mem_empty_iff_false,iff_false]
      rintro ⟨i,first,last,rfl⟩
      rw [nodeAt_inside cells (le_refl 1) (by omega)] at min
      rw [null] at min
      cases min
    · intro empty
      rw [min]
      refine nodeAt_outside cells (.inr (Nat.lt_of_not_le fun one => ?_))
      have root := mem_filled cells (le_refl 1) one
      rw [empty] at root
      exact root
  · intro x found
    rw [found] at min
    have one : 1 ≤ h.nelts := by
      by_contra none
      rw [nodeAt_outside cells (.inr (by omega))] at min
      cases min
    rw [nodeAt_inside cells (le_refl 1) one] at min
    cases min
    exact ⟨mem_filled cells (le_refl 1) one,fun y ⟨i,first,last,same⟩ => same ▸ ordered.root_le i first last⟩

omit [DecidableEq N] in
theorem heapInit_holds (key : N → K) (nodes : N → HeapNode N) (cells : ℕ → N) : Holds key (heapInit nodes) ∅ := by
  refine ⟨cells,complete_heapInit nodes cells,ordered_empty key cells,?_⟩
  ext x
  simp only [Set.mem_empty_iff_false,iff_false]
  rintro ⟨i,first,last,_⟩
  simp only [heapInit] at last
  omega

/-- Taking the minimum off the heap removes it; an empty heap stays as it is. -/
private theorem heapDequeue_holds (compares : Compares lessThan key) {S : Set N} (holds : Holds key h S) {fuel : ℕ}
    (fits : h.nelts < uintMax) (enough : h.nelts < 2^fuel) :
    (heapMin h = none ∧ heapDequeue lessThan fuel h = .done () h) ∨
      ∃ x h', heapMin h = some x ∧ heapDequeue lessThan fuel h = .done () h' ∧ Holds key h' (S \ {x}) ∧
        h'.nelts+1 = h.nelts ∧ ∀ y ∉ S, h'.nodes y = h.nodes y := by
  cases min : heapMin h with
  | none =>
    obtain ⟨cells,complete,_,_⟩ := holds
    have empty : h.nelts = 0 := by
      by_contra some
      have root := complete.min
      rw [← heapMin,min,nodeAt_inside cells (le_refl 1) (by omega)] at root
      cases root
    exact .inl ⟨rfl,by simp [heapDequeue,heapRemove,empty]⟩
  | some x =>
    obtain ⟨h',removed,rest⟩ := heapRemove_holds compares holds ((heapMin_holds holds).2 x min).1 fits enough
    refine .inr ⟨x,h',rfl,?_,rest⟩
    rw [heapMin] at min
    simpa [heapDequeue,min] using removed

end

/-! ### The depth of a tree -/

/-- The levels of the tree of `n` nodes: the path to the last one meets a node of each. -/
def depth (n : ℕ) : ℕ := (pathTo n).2 + 1

private theorem pathLoop_steps : ∀ (fuel n path k : ℕ), 1 ≤ n → n ≤ fuel → (pathLoop fuel n path k).2 = k + Nat.log 2 n := by
  intro fuel
  induction fuel with
  | zero => intro n path k first enough; omega
  | succ fuel ih =>
    intro n path k first enough
    unfold pathLoop
    by_cases more : 2 ≤ n
    · rw [if_pos more,ih (n/2) _ (k+1) (by omega) (by omega),Nat.log_of_one_lt_of_le (by decide) more]
      omega
    · rw [if_neg more,Nat.log_of_lt (by omega)]
      rfl

private theorem depth_eq {n : ℕ} (first : 1 ≤ n) : depth n = Nat.log 2 n + 1 := by
  rw [depth,pathTo,pathLoop_steps n n 0 0 first le_rfl,Nat.zero_add]

private theorem lt_pow_depth (n : ℕ) : n < 2^depth n := by
  by_cases first : 1 ≤ n
  · rw [depth_eq first]
    exact Nat.lt_pow_succ_log_self (by decide) n
  · rw [show n = 0 by omega]
    exact Nat.two_pow_pos _

/-! ### Calls in a row -/

inductive HeapCall (N : Type)
  | insert (x : N)
  | remove (x : N)
  | dequeue

/-- A heap in use, and the nodes that were inserted and not removed since. -/
structure HeapUse (N : Type) where
  heap : HeapState N
  held : Set N

/-- What a caller owes: no node is inserted twice, their number fits its counter, and only nodes of the heap are
    removed. -/
def HeapCall.Allowed (s : HeapUse N) : HeapCall N → Prop
  | .insert x => x ∉ s.held ∧ s.held.ncard + 1 < uintMax
  | .remove x => x ∈ s.held
  | .dequeue => True

/-- The nodes held after a call. -/
def HeapCall.after (s : HeapUse N) : HeapCall N → Set N
  | .insert x => Insert.insert x s.held
  | .remove x => s.held \ {x}
  | .dequeue => s.held \ {x | heapMin s.heap = some x}

section
variable [DecidableEq N]

/-- A call whose walks have as many turns as the tree has levels. -/
def HeapCall.perform (lessThan : N → N → Bool) : HeapCall N → Program (HeapState N) Unit
  | .insert x => do heapInsert lessThan (depth ((← get).nelts+1)) x
  | .remove x => do heapRemove lessThan (depth (← get).nelts) (some x)
  | .dequeue => do heapDequeue lessThan (depth (← get).nelts)

/-- A call that a caller is allowed runs through. -/
structure Step (lessThan : N → N → Bool) (s : HeapUse N) (call : HeapCall N) (s' : HeapUse N) : Prop where
  allowed : call.Allowed s
  runs : call.perform lessThan s.heap = .done () s'.heap
  held : s'.held = call.after s

/-- The minimum again and again, until the heap is empty. -/
def drain (lessThan : N → N → Bool) : ℕ → Program (HeapState N) (List N)
  | 0 => fun _ => .exhausted
  | rounds+1 => do
    match heapMin (← get) with
    | none => pure []
    | some x =>
      HeapCall.dequeue.perform lessThan
      let rest ← drain lessThan rounds
      pure (x :: rest)

variable {key : N → K} {lessThan : N → N → Bool}

/-- The heap holds what it should, and its counter has not wrapped. -/
structure Inv (key : N → K) (s : HeapUse N) : Prop where
  holds : Holds key s.heap s.held
  fits : s.heap.nelts < uintMax

private theorem perform_holds (compares : Compares lessThan key) {s : HeapUse N} (inv : Inv key s) {call : HeapCall N}
    (allowed : call.Allowed s) : ∃ h', call.perform lessThan s.heap = .done () h' ∧ Inv key ⟨h',call.after s⟩ ∧
      ∀ y ∉ s.held, call ≠ .insert y → h'.nodes y = s.heap.nodes y := by
  obtain ⟨holds,fits⟩ := inv
  cases call with
  | insert x =>
    obtain ⟨fresh,room⟩ := allowed
    rw [holds.size] at room
    obtain ⟨h',run,holds',size,others⟩ := heapInsert_holds compares holds fresh room (lt_pow_depth _)
    refine ⟨h',by simpa [HeapCall.perform] using run,⟨holds',size ▸ room⟩,fun y outside other => others y ?_⟩
    rintro (isX | inside)
    · exact other (by rw [isX])
    · exact outside inside
  | remove x =>
    obtain ⟨h',run,holds',size,others⟩ := heapRemove_holds compares holds allowed fits (lt_pow_depth _)
    exact ⟨h',by simpa [HeapCall.perform] using run,⟨holds',(by omega : h'.nelts < uintMax)⟩,fun y outside _ => others y outside⟩
  | dequeue =>
    rcases heapDequeue_holds compares holds fits (lt_pow_depth s.heap.nelts) with ⟨null,run⟩ | ⟨x,h',min,run,holds',size,others⟩
    · refine ⟨s.heap,by simpa [HeapCall.perform] using run,⟨?_,fits⟩,fun _ _ _ => rfl⟩
      simpa [HeapCall.after,null,Set.sdiff_empty] using holds
    · refine ⟨h',by simpa [HeapCall.perform] using run,⟨?_,(by omega : h'.nelts < uintMax)⟩,fun y outside _ => others y outside⟩
      have taken : ({y | heapMin s.heap = some y} : Set N) = {x} := by
        ext y
        simp [min,eq_comm]
      rw [HeapCall.after,taken]
      exact holds'

theorem inv_step (compares : Compares lessThan key) {s s' : HeapUse N} {call : HeapCall N} (inv : Inv key s)
    (step : Step lessThan s call s') : Inv key s' ∧ ∀ y ∉ s.held, call ≠ .insert y → s'.heap.nodes y = s.heap.nodes y := by
  obtain ⟨heap',held'⟩ := s'
  obtain ⟨allowed,runs,rfl⟩ := step
  obtain ⟨h',run,inv',others⟩ := perform_holds compares inv allowed
  rw [runs] at run
  cases run
  exact ⟨inv',others⟩

/-- Only inserted nodes are held or written. -/
private theorem untouched_run (compares : Compares lessThan key) {s s' : HeapUse N} {calls : List (HeapCall N)} (inv : Inv key s)
    (run : Run (Step lessThan) s calls s') {y : N} (outside : y ∉ s.held) (never : .insert y ∉ calls) :
    y ∉ s'.held ∧ s'.heap.nodes y = s.heap.nodes y := by
  induction run with
  | nil => exact ⟨outside,rfl⟩
  | @snoc calls call t t' before step ih =>
    have other : call ≠ .insert y := fun isIt => never (by simp [isIt])
    obtain ⟨notHeld,same⟩ := ih fun earlier => never (List.mem_append_left _ earlier)
    have kept := before.invariant (Inv key) inv fun _ _ _ inv step => (inv_step compares inv step).1
    refine ⟨?_,((inv_step compares kept step).2 y notHeld other).trans same⟩
    rw [step.held]
    cases call with
    | insert x => exact fun inside => inside.elim (fun isX => other (by rw [isX])) notHeld
    | remove x => exact fun inside => notHeld inside.1
    | dequeue => exact fun inside => notHeld inside.1

/-- Emptying a heap yields the nodes it held, each once, in the order of their keys. -/
private theorem drain_sorted (compares : Compares lessThan key) : ∀ (rounds : ℕ) (s : HeapUse N), Inv key s → s.heap.nelts < rounds →
    ∃ xs h', drain lessThan rounds s.heap = .done xs h' ∧ Holds key h' ∅ ∧ xs.Nodup ∧
      xs.Pairwise (fun a b => key a ≤ key b) ∧ ∀ x, x ∈ xs ↔ x ∈ s.held := by
  intro rounds
  induction rounds with
  | zero => intro s _ few; omega
  | succ rounds ih =>
    rintro ⟨h,S⟩ ⟨holds,fits⟩ few
    rcases heapDequeue_holds compares holds fits (lt_pow_depth h.nelts) with ⟨null,_⟩ | ⟨x,h₁,min,run,holds₁,size,_⟩
    · obtain rfl : S = ∅ := (heapMin_holds holds).1.mp null
      exact ⟨[],h,by simp [drain,null],holds,by simp,by simp,by simp⟩
    · obtain ⟨inside,least⟩ := (heapMin_holds holds).2 x min
      have fewer : h₁.nelts < rounds := by
        show h₁.nelts < rounds
        have : h.nelts < rounds+1 := few
        omega
      obtain ⟨xs,h₂,rest,holds₂,distinct,sorted,members⟩ :=
        ih ⟨h₁,S \ {x}⟩ ⟨holds₁,(by show h₁.nelts < uintMax; have : h.nelts < uintMax := fits; omega)⟩ fewer
      refine ⟨x :: xs,h₂,by simp [drain,HeapCall.perform,min,run,rest],holds₂,?_,?_,fun y => ?_⟩
      · exact List.nodup_cons.mpr ⟨fun again => ((members x).mp again).2 rfl,distinct⟩
      · exact List.pairwise_cons.mpr ⟨fun y later => least y ((members y).mp later).1,sorted⟩
      · rw [List.mem_cons,members y]
        by_cases same : y = x
        · subst same; simp [inside]
        · simp [same]

/-- From an initialised heap every call that a caller is allowed runs through, with no walk longer than the depth of the
    tree. The heap is a complete tree in heap order of exactly the nodes inserted and not removed since, its minimum a
    least of them, and no other node is written. Emptying it yields those nodes once each in order. -/
theorem heap_calls (compares : Compares lessThan key) (nodes : N → HeapNode N) (cells : ℕ → N) {calls : List (HeapCall N)}
    {s : HeapUse N} (run : Run (Step lessThan) ⟨heapInit nodes,∅⟩ calls s) :
    Holds key s.heap s.held ∧ s.heap.nelts = s.held.ncard ∧ (∀ call, call.Allowed s → ∃ s', Step lessThan s call s') ∧
      (∀ n, 1 ≤ n → depth n = Nat.log 2 n + 1) ∧
      (heapMin s.heap = none ↔ s.held = ∅) ∧
      (∀ x, heapMin s.heap = some x → x ∈ s.held ∧ ∀ y ∈ s.held, key x ≤ key y) ∧
      (∀ y, .insert y ∉ calls → s.heap.nodes y = nodes y) ∧
      ∃ xs h', drain lessThan (s.heap.nelts+1) s.heap = .done xs h' ∧ xs.Nodup ∧
        xs.Pairwise (fun a b => key a ≤ key b) ∧ ∀ x, x ∈ xs ↔ x ∈ s.held := by
  have start : Inv key ⟨heapInit nodes,∅⟩ := ⟨heapInit_holds key nodes cells,(by decide : 0 < uintMax)⟩
  have inv := run.invariant (Inv key) start fun _ _ _ inv step => (inv_step compares inv step).1
  obtain ⟨null,least⟩ := heapMin_holds inv.holds
  obtain ⟨xs,h',drained,_,distinct,sorted,members⟩ := drain_sorted compares (s.heap.nelts+1) s inv (Nat.lt_succ_self _)
  refine ⟨inv.holds,inv.holds.size.symm,fun call allowed => ?_,fun n => depth_eq,null,least,?_,xs,h',drained,distinct,sorted,members⟩
  · obtain ⟨h',runs,_⟩ := perform_holds compares inv allowed
    exact ⟨⟨h',call.after s⟩,allowed,runs,rfl⟩
  · exact fun y never => (untouched_run compares start run (Set.notMem_empty y) never).2

/-- Of 7, 2 and 5 the first is removed and the least dequeued. -/
theorem heap_calls_three : ∃ s : HeapUse ℕ,
    Run (Step fun a b => decide (a < b)) ⟨heapInit fun _ => ⟨none,none,none⟩,∅⟩
      [.insert 7,.insert 2,.insert 5,.remove 7,.dequeue] s ∧
    s.held = {5} ∧ s.heap.nelts = 1 ∧ s.heap.nodes 9 = ⟨none,none,none⟩ ∧ ∀ x, heapMin s.heap = some x → x = 5 := by
  have reached : ∀ {calls : List (HeapCall ℕ)} {s : HeapUse ℕ}, Run (Step fun a b => decide (a < b))
      ⟨heapInit fun _ => ⟨none,none,none⟩,∅⟩ calls s → _ :=
    fun run => heap_calls (fun _ _ => rfl : Compares (fun a b => decide (a < b)) (fun n : ℕ => n))
      (fun _ => ⟨none,none,none⟩) id run
  obtain ⟨⟨h₁,_⟩,first⟩ := (reached .nil).2.2.1 (.insert 7) ⟨Set.notMem_empty 7,by rw [Set.ncard_empty]; decide⟩
  obtain rfl := first.held
  have run₁ := Run.single first
  obtain ⟨⟨h₂,_⟩,second⟩ := (reached run₁).2.2.1 (.insert 2) ⟨by simp [HeapCall.after],by simp [HeapCall.after]; decide⟩
  obtain rfl := second.held
  have run₂ := run₁.snoc second
  obtain ⟨⟨h₃,_⟩,third⟩ := (reached run₂).2.2.1 (.insert 5) ⟨by simp [HeapCall.after],by
    simp [HeapCall.after]
    decide⟩
  obtain rfl := third.held
  have run₃ := run₂.snoc third
  obtain ⟨⟨h₄,S₄⟩,removed⟩ := (reached run₃).2.2.1 (.remove 7) (by simp [HeapCall.Allowed,HeapCall.after])
  have run₄ := run₃.snoc removed
  have left : S₄ = {5,2} := removed.held.trans (by ext x; simp [HeapCall.after]; omega)
  subst left
  have least : heapMin h₄ = some 2 := by
    obtain ⟨_,_,_,_,null,least,_⟩ := reached run₄
    cases min : heapMin h₄ with
    | none => exact absurd (null.mp min) (Set.nonempty_iff_ne_empty.mp ⟨5,by simp⟩)
    | some x =>
      obtain ⟨inside,before⟩ := least x min
      have below : x ≤ 2 := before 2 (by simp)
      simp only [Set.mem_insert_iff,Set.mem_singleton_iff] at inside
      congr 1
      omega
  obtain ⟨⟨h₅,S₅⟩,dequeued⟩ := (reached run₄).2.2.1 .dequeue trivial
  have run := run₄.snoc dequeued
  have alone : S₅ = {5} := dequeued.held.trans (by ext x; simp [HeapCall.after,least])
  subst alone
  obtain ⟨_,size,_,_,_,min,others,_⟩ := reached run
  exact ⟨_,run,rfl,by simpa using size,others 9 (by simp),fun x found => (min x found).1⟩

end

end Armd.HeapOperations
