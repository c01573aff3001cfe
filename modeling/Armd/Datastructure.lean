import Armd.LinkedRings

/-!
The intrusive list of the daemon: an `armd_list_t` is a node's links in a heap. Each
operation is the sequence of pointer writes of the source; dereferencing a null
pointer has no result (`none`). In a heap made of rings the operations replace
one ring by another and touch nothing else (`list_operations`).
-/
namespace Armd.Datastructure
open Armd.LinkedRings
universe u

section
variable {N : Type u} [DecidableEq N]

def armdListInit (h : Heap N) (list : N) : Heap N :=
  (h.setPrev list (some list)).setNext list (some list)

def armdListInsert (h : Heap N) (list node : N) : Option (Heap N) := do
  let last ← (h list).prev
  let h := h.setNext last (some node)
  let h := h.setPrev node (h list).prev
  let h := h.setPrev list (some node)
  return h.setNext node (some list)

def armdListDelete (h : Heap N) (node : N) : Option (Heap N) := do
  let before ← (h node).prev
  let h := h.setNext before (h node).next
  -- read again: `before` may be the node itself
  let after ← (h node).next
  let h := h.setPrev after (h node).prev
  let h := h.setPrev node (some node)
  return h.setNext node (some node)

def armdListEmpty (h : Heap N) (list : N) : Bool := decide ((h list).next = some list)

theorem armdListInit_of_ne (h : Heap N) {list x : N} (other : x ≠ list) : armdListInit h list x = h x := by
  rw [armdListInit,setNext_of_ne _ _ other,setPrev_of_ne _ _ other]

theorem armdListInit_alone (h : Heap N) (list : N) : Alone (armdListInit h list) list := by
  rw [alone_iff]
  constructor <;> simp [armdListInit]

theorem armdListInsert_eq {h : Heap N} {list last : N} (node : N) (prev : (h list).prev = some last) :
    armdListInsert h list node = some (h.linkBetween last list node) := by
  simp [armdListInsert,Heap.linkBetween,prev]

theorem armdListDelete_eq {h : Heap N} {node before after : N} (prev : (h node).prev = some before)
    (next : (h node).next = some after) :
    armdListDelete h node = some (h.unlinkBetween before after node) := by
  simp [armdListDelete,Heap.unlinkBetween,prev,next]

/-- Deleting a node that was never linked dereferences its null `prev`. -/
theorem armdListDelete_null {h : Heap N} {node : N} (prev : (h node).prev = none) :
    armdListDelete h node = none := by
  simp [armdListDelete,prev]

/-- Of the `next` pointers a deletion writes that of the node before, and that of the node itself. -/
theorem armdListDelete_next {h g : Heap N} {node : N} (deleted : armdListDelete h node = some g) :
    ∃ before, (h node).prev = some before ∧
      ∀ x, (g x).next = if x = node then some node else if x = before then (h node).next else (h x).next := by
  simp only [armdListDelete,Option.bind_eq_bind,Option.bind_eq_some_iff,Option.pure_def,Option.some.injEq] at deleted
  obtain ⟨before,prev,after,_,rfl⟩ := deleted
  refine ⟨before,prev,fun x => ?_⟩
  by_cases same : x = node
  · simp [same]
  · simp [same]

/-- Deleting a node that is alone changes nothing. -/
theorem armdListDelete_alone {h : Heap N} {node : N} (alone : Alone h node) : armdListDelete h node = some h := by
  obtain ⟨next,prev⟩ := (alone_iff h node).mp alone
  rw [armdListDelete_eq prev next]
  congr 1
  funext x
  by_cases same : x = node
  · subst same
    cases links : h x with
    | mk p n => simp_all [Heap.unlinkBetween,Heap.setNext,Heap.setPrev]
  · exact unlinkBetween_of_ne h same same same

/-- Inserting puts a node at the end of the ring of the list head. -/
theorem armdListInsert_ring {h : Heap N} {list node : N} {xs : List N} (ring : Ring h list xs)
    (fresh : node ∉ list :: xs) :
    ∃ g, armdListInsert h list node = some g ∧ Ring g list (xs ++ [node]) ∧
      ∀ x ∉ list :: (xs ++ [node]), g x = h x := by
  refine ⟨_,armdListInsert_eq node ring.prev_start,ring.link fresh,?_⟩
  intro x outside
  simp only [List.mem_cons,List.mem_append,List.not_mem_nil,or_false,not_or] at outside
  refine linkBetween_of_ne h ?_ outside.1 outside.2.2
  intro same
  have last : x ∈ list :: xs := same ▸ List.getLast_mem _
  rcases List.mem_cons.mp last with e | e
  · exact outside.1 e
  · exact outside.2.1 e

/-- Deleting takes a node out of its ring, leaves it alone and touches no other ring. -/
theorem armdListDelete_ring {h : Heap N} {list node : N} {front back : List N}
    (ring : Ring h list (front ++ node :: back)) :
    ∃ g, armdListDelete h node = some g ∧ Ring g list (front ++ back) ∧ Alone g node ∧
      ∀ x ∉ list :: (front ++ node :: back), g x = h x := by
  have here : node ∈ list :: (front ++ node :: back) := by simp
  obtain ⟨⟨n,nIn,forward⟩,p,pIn,backward⟩ := ring.linked here
  refine ⟨_,armdListDelete_eq backward.2 forward.1,ring.unlink backward.2 forward.1,
    alone_unlinkBetween h p n node,?_⟩
  intro x outside
  apply unlinkBetween_of_ne
  · rintro rfl; exact outside pIn
  · rintro rfl; exact outside nIn
  · rintro rfl; exact outside here

/-- The head of a ring is empty exactly when it is the only node. -/
theorem armdListEmpty_ring {h : Heap N} {list : N} {xs : List N} (ring : Ring h list xs) :
    armdListEmpty h list = decide (xs = []) := by
  simp only [armdListEmpty,ring.next_start_iff]

/-- Deleting any node of a ring, the one it is read from included. -/
theorem armdListDelete_circle {h : Heap N} {node : N} {front back : List N}
    (circle : Circle h (front ++ node :: back)) :
    ∃ g, armdListDelete h node = some g ∧ Circle g (front ++ back) ∧ Alone g node ∧
      ∀ x ∉ front ++ node :: back, g x = h x := by
  cases front with
  | cons s front => exact armdListDelete_ring circle
  | nil =>
    cases back with
    | nil => exact ⟨h,armdListDelete_alone circle,trivial,circle,fun _ _ => rfl⟩
    | cons b back =>
      -- read from the next node the ring ends with the deleted one
      have whole : Ring h node ([] ++ b :: back) := circle
      have around : Ring h b (back ++ node :: []) := whole.rotate
      obtain ⟨g,deleted,ring,alone,others⟩ := armdListDelete_ring around
      rw [List.append_nil] at ring
      refine ⟨g,deleted,ring,alone,fun x outside => others x ?_⟩
      simp only [List.nil_append,List.mem_cons,List.mem_append,List.not_mem_nil,or_false] at outside ⊢
      tauto

section
variable {h : Heap N} {R : Set (List N)}

/-- Inserting replaces the ring of the list head, and the ring of the node if it had one. -/
theorem armdListInsert_madeOf {list node : N} {xs : List N} (madeOf : MadeOf h R) (inR : list :: xs ∈ R)
    (other : node ≠ list) (free : Alone h node ∨ ∀ r ∈ R, node ∉ r) :
    ∃ g, armdListInsert h list node = some g ∧ Ring g list (xs ++ [node]) ∧
      MadeOf g (R \ {list :: xs,[node]} ∪ {list :: (xs ++ [node])}) ∧ ∀ x ∉ list :: (xs ++ [node]), g x = h x := by
  have fresh : node ∉ list :: xs := by
    intro member
    have only := madeOf.only_ring free inR member
    exact other (List.cons.inj only).1.symm
  obtain ⟨g,inserted,ring,others⟩ := armdListInsert_ring (madeOf.ring _ inR) fresh
  have meets : ∀ x ∈ list :: (xs ++ [node]), ∀ r ∈ R, x ∈ r → r = list :: xs ∨ r = [node] := by
    intro x on r inR' on'
    have split : x ∈ list :: xs ∨ x = node := by simpa [or_assoc] using on
    rcases split with before | rfl
    · exact .inl (madeOf.apart r inR' _ inR x on' before)
    · exact .inr (madeOf.only_ring free inR' on')
  refine ⟨g,inserted,ring,madeOf.edit ⟨?_,?_⟩ ?_ ?_,others⟩
  · rintro r rfl; exact ring
  · rintro r rfl r' rfl x _ _; rfl
  · rintro r rfl x on r' inR' on'
    exact meets x on r' inR' on'
  · intro r kept x on
    exact others x fun there => kept.2 (meets x there r kept.1 on)

/-- Deleting splits a node off its ring. -/
theorem armdListDelete_madeOf {node : N} {front back : List N} (madeOf : MadeOf h R)
    (inR : front ++ node :: back ∈ R) :
    ∃ g, armdListDelete h node = some g ∧ Circle g (front ++ back) ∧ Alone g node ∧
      MadeOf g (R \ {front ++ node :: back} ∪ {front ++ back,[node]}) ∧
      ∀ x ∉ front ++ node :: back, g x = h x := by
  obtain ⟨g,deleted,left,alone,others⟩ := armdListDelete_circle (madeOf.ring _ inR)
  have gone : node ∉ front ++ back := (madeOf.ring _ inR).not_mem_rest
  have whole : ∀ x ∈ front ++ back, x ∈ front ++ node :: back := by
    intro x member
    simp only [List.mem_append,List.mem_cons] at member ⊢
    tauto
  refine ⟨g,deleted,left,alone,madeOf.edit ⟨?_,?_⟩ ?_ ?_,others⟩
  · rintro r (rfl | rfl)
    · exact left
    · exact alone
  · rintro r (rfl | rfl) r' (rfl | rfl) x on on'
    · rfl
    · exact absurd (List.mem_singleton.mp on' ▸ on) gone
    · exact absurd (List.mem_singleton.mp on ▸ on') gone
    · rfl
  · rintro r (rfl | rfl) x on r' inR' on'
    · exact madeOf.apart r' inR' _ inR x on' (whole x on)
    · exact madeOf.apart r' inR' _ inR x on' (by rw [List.mem_singleton.mp on]; simp)
  · intro r kept x on
    exact others x fun there => kept.2 (madeOf.apart r kept.1 _ inR x on there)

/-- Deleting a node right after it was inserted restores the links of every other node. -/
theorem armdListDelete_inserted {g : Heap N} {list node : N} {xs : List N} (ring : Ring h list xs)
    (fresh : node ∉ list :: xs) (inserted : armdListInsert h list node = some g) :
    ∃ g', armdListDelete g node = some g' ∧ ∀ x, x ≠ node → g' x = h x := by
  set last := (list :: xs).getLast (by simp) with lastIs
  have lastIn : last ∈ list :: xs := List.getLast_mem _
  have notLast : node ≠ last := fun same => fresh (same ▸ lastIn)
  have notHead : node ≠ list := fun same => fresh (by simp [same])
  rw [armdListInsert_eq node ring.prev_start] at inserted
  cases inserted
  have prev : (h.linkBetween last list node node).prev = some last := by simp [Heap.linkBetween,notHead]
  have next : (h.linkBetween last list node node).next = some list := by simp [Heap.linkBetween]
  exact ⟨_,armdListDelete_eq prev next,
    fun x other => unlinkBetween_linkBetween h (path_last ring.path) notLast notHead other⟩

/-- In a heap made of rings, inserting appends to the ring of the list head, deleting takes exactly one node
    off its ring, whichever it is, and both leave every other node as it was. -/
theorem list_operations (madeOf : MadeOf h R) :
    (∀ list xs node, list :: xs ∈ R → node ≠ list → (Alone h node ∨ ∀ r ∈ R, node ∉ r) →
      ∃ g, armdListInsert h list node = some g ∧ Ring g list (xs ++ [node]) ∧
        MadeOf g (R \ {list :: xs,[node]} ∪ {list :: (xs ++ [node])}) ∧
        (∀ x ∉ list :: (xs ++ [node]), g x = h x) ∧
        ∃ g', armdListDelete g node = some g' ∧ ∀ x, x ≠ node → g' x = h x) ∧
    (∀ front node back, front ++ node :: back ∈ R →
      ∃ g, armdListDelete h node = some g ∧ Circle g (front ++ back) ∧ Alone g node ∧
        MadeOf g (R \ {front ++ node :: back} ∪ {front ++ back,[node]}) ∧
        (∀ x ∉ front ++ node :: back, g x = h x) ∧ (Alone h node → g = h)) ∧
    ∀ list xs, list :: xs ∈ R → (armdListEmpty h list = true ↔ xs = []) := by
  refine ⟨?_,?_,?_⟩
  · intro list xs node inR other free
    obtain ⟨g,inserted,ring,madeOf',others⟩ := armdListInsert_madeOf madeOf inR other free
    have fresh : node ∉ list :: xs := fun member =>
      other (List.cons.inj (madeOf.only_ring free inR member)).1.symm
    exact ⟨g,inserted,ring,madeOf',others,armdListDelete_inserted (madeOf.ring _ inR) fresh inserted⟩
  · intro front node back inR
    obtain ⟨g,deleted,left,alone,madeOf',others⟩ := armdListDelete_madeOf madeOf inR
    refine ⟨g,deleted,left,alone,madeOf',others,fun before => ?_⟩
    exact (Option.some.inj ((armdListDelete_alone before).symm.trans deleted)).symm
  · intro list xs inR
    have ring : Ring h list xs := madeOf.ring _ inR
    simp [armdListEmpty_ring ring]

end

/-- A list head with three nodes, and a node on a ring of its own. -/
def threeHeap : Heap (Fin 5)
  | 0 => ⟨some 3,some 1⟩
  | 1 => ⟨some 0,some 2⟩
  | 2 => ⟨some 1,some 3⟩
  | 3 => ⟨some 2,some 0⟩
  | 4 => ⟨some 4,some 4⟩

theorem threeHeap_madeOf : MadeOf threeHeap {[0,1,2,3],[4]} where
  ring := by
    rintro r (rfl | rfl)
    · exact ⟨by decide,⟨rfl,rfl⟩,⟨rfl,rfl⟩,⟨rfl,rfl⟩,rfl,rfl⟩
    · exact (alone_iff _ _).mpr ⟨rfl,rfl⟩
  apart := by
    rintro r (rfl | rfl) r' (rfl | rfl) x on on'
    · rfl
    · revert x; decide
    · revert x; decide
    · rfl

/-- The lone node goes behind the three others, and the middle one of these is taken out. -/
theorem list_operations_three :
    (∃ g, armdListInsert threeHeap 0 4 = some g ∧ Ring g 0 [1,2,3,4] ∧
      ∃ g', armdListDelete g 4 = some g' ∧ g' 3 = threeHeap 3) ∧
    (∃ g, armdListDelete threeHeap 2 = some g ∧ Ring g 0 [1,3] ∧ Alone g 2 ∧ g 4 = threeHeap 4) ∧
    armdListEmpty threeHeap 0 = false := by
  obtain ⟨insert,delete,empty⟩ := list_operations threeHeap_madeOf
  have alone : Alone threeHeap 4 := (alone_iff _ _).mpr ⟨rfl,rfl⟩
  obtain ⟨g,inserted,ring,_,_,g',deleted,restored⟩ := insert 0 [1,2,3] 4 (.inl rfl) (by decide) (.inl alone)
  obtain ⟨e,removed,left,out,_,others,_⟩ := delete [0,1] 2 [3] (.inl rfl)
  have notEmpty : armdListEmpty threeHeap 0 ≠ true := fun isEmpty =>
    absurd ((empty 0 [1,2,3] (.inl rfl)).mp isEmpty) (by decide)
  exact ⟨⟨g,inserted,ring,g',deleted,restored 3 (by decide)⟩,⟨e,removed,left,out,others 4 (by decide)⟩,
    eq_false_of_ne_true notEmpty⟩

end

end Armd.Datastructure
