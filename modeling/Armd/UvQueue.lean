import Armd.Datastructure

/-!
The intrusive queue of libuv: a `struct uv__queue` is a node's links in a heap.
Each operation is the sequence of pointer writes of the source; dereferencing a
null pointer has no result (`none`). On rings the operations are those of lists:
the head is the first node, a node is added at either end or removed wherever it
is, a queue is split at a node, moved to another head or appended to another
queue, and every node of other rings stays as it was.
-/
namespace Armd.UvQueue
open Armd.LinkedRings Armd.Datastructure
universe u

section
variable {N : Type u} [DecidableEq N]

def uvQueueInit (h : Heap N) (q : N) : Heap N := (h.setNext q (some q)).setPrev q (some q)

def uvQueueEmpty (h : Heap N) (q : N) : Bool := decide (some q = (h q).next)

omit [DecidableEq N] in
def uvQueueHead (h : Heap N) (q : N) : Option N := (h q).next

def uvQueueAdd (h : Heap N) (l n : N) : Option (Heap N) := do
  let last ← (h l).prev
  let h := h.setNext last (h n).next
  let first ← (h n).next
  let h := h.setPrev first (h l).prev
  let h := h.setPrev l (h n).prev
  let last ← (h l).prev
  return h.setNext last (some l)

def uvQueueSplit (h : Heap N) (l q n : N) : Option (Heap N) := do
  let h := h.setPrev n (h l).prev
  let last ← (h n).prev
  let h := h.setNext last (some n)
  let h := h.setNext n (some q)
  let h := h.setPrev l (h q).prev
  let before ← (h l).prev
  let h := h.setNext before (some l)
  return h.setPrev q (some n)

def uvQueueMove (h : Heap N) (l n : N) : Option (Heap N) :=
  if uvQueueEmpty h l then some (uvQueueInit h n)
  else do
    let first ← (h l).next
    uvQueueSplit h l first n

def uvQueueInsertHead (h : Heap N) (l q : N) : Option (Heap N) := do
  let h := h.setNext q (h l).next
  let h := h.setPrev q (some l)
  let first ← (h q).next
  let h := h.setPrev first (some q)
  return h.setNext l (some q)

def uvQueueInsertTail (h : Heap N) (l q : N) : Option (Heap N) := do
  let h := h.setNext q (some l)
  let h := h.setPrev q (h l).prev
  let last ← (h q).prev
  let h := h.setNext last (some q)
  return h.setPrev l (some q)

def uvQueueRemove (h : Heap N) (q : N) : Option (Heap N) := do
  let before ← (h q).prev
  let h := h.setNext before (h q).next
  let after ← (h q).next
  return h.setPrev after (h q).prev

omit [DecidableEq N] in
theorem links_ext {a b : Links N} (next : a.next = b.next) (prev : a.prev = b.prev) : a = b := by
  cases a; cases b; simp_all

omit [DecidableEq N] in
theorem heap_ext {g h : Heap N} (nexts : ∀ x, (g x).next = (h x).next) (prevs : ∀ x, (g x).prev = (h x).prev) :
    g = h := by
  funext x
  exact links_ext (nexts x) (prevs x)

omit [DecidableEq N] in
/-- A path whose last node comes to lead elsewhere. -/
theorem path_retarget {h g : Heap N} {xs : List N} {a b b' : N} (path : Path h a xs b)
    (nexts : ∀ x ∈ (a :: xs).dropLast, (g x).next = (h x).next) (prevs : ∀ x ∈ xs, (g x).prev = (h x).prev)
    (last : Linked g ((a :: xs).getLast (by simp)) b') : Path g a xs b' := by
  induction xs generalizing a with
  | nil => exact last
  | cons x xs ih =>
    obtain ⟨first,rest⟩ := path
    refine ⟨⟨(nexts a (by simp)).trans first.1,(prevs x (by simp)).trans first.2⟩,ih rest ?_ ?_ ?_⟩
    · intro y member
      exact nexts y (by simp only [List.dropLast_cons_cons]; exact List.mem_cons_of_mem _ member)
    · intro y member; exact prevs y (List.mem_cons_of_mem _ member)
    · simpa [List.getLast_cons] using last

omit [DecidableEq N] in
theorem getLast_not_dropLast {xs : List N} (distinct : xs.Nodup) (some : xs ≠ []) : xs.getLast some ∉ xs.dropLast := by
  intro early
  have split := List.dropLast_append_getLast some
  rw [← split] at distinct
  exact (List.nodup_append.mp distinct).2.2 _ early _ (by simp) rfl

theorem uvQueueInit_alone (h : Heap N) (q : N) : Alone (uvQueueInit h q) q := by
  rw [alone_iff]
  constructor <;> simp [uvQueueInit]

omit [DecidableEq N] in
theorem alone_congr {h g : Heap N} {x : N} (alone : Alone h x) (same : g x = h x) : Alone g x := by
  rw [alone_iff,same]
  exact (alone_iff h x).mp alone

theorem uvQueueInit_of_ne (h : Heap N) {q x : N} (other : x ≠ q) : uvQueueInit h q x = h x := by
  rw [uvQueueInit,setPrev_of_ne _ _ other,setNext_of_ne _ _ other]

theorem uvQueueEmpty_ring {h : Heap N} {l : N} {xs : List N} (ring : Ring h l xs) : uvQueueEmpty h l = decide (xs = []) := by
  have turned : some l = (h l).next ↔ xs = [] := eq_comm.trans ring.next_start_iff
  simp only [uvQueueEmpty,turned]

omit [DecidableEq N] in
theorem uvQueueHead_ring {h : Heap N} {l x : N} {xs : List N} (ring : Ring h l (x :: xs)) : uvQueueHead h l = some x :=
  ring.next_head

theorem uvQueueInsertTail_eq {h : Heap N} {l q last : N} (prev : (h l).prev = some last) (notLast : q ≠ last) :
    uvQueueInsertTail h l q = some (h.linkBetween last l q) := by
  simp [uvQueueInsertTail,prev]
  apply heap_ext
  · intro x; simp [Heap.linkBetween]; grind
  · intro x; simp [Heap.linkBetween]

/-- Inserting at the tail appends a node that is on no place of the queue. -/
theorem uvQueueInsertTail_ring {h : Heap N} {l q : N} {xs : List N} (ring : Ring h l xs) (fresh : q ∉ l :: xs) :
    ∃ g, uvQueueInsertTail h l q = some g ∧ Ring g l (xs ++ [q]) ∧ ∀ x ∉ l :: (xs ++ [q]), g x = h x := by
  have notLast : q ≠ (l :: xs).getLast (by simp) := fun same => fresh (same ▸ List.getLast_mem _)
  obtain ⟨g,inserted,linked,others⟩ := armdListInsert_ring ring fresh
  rw [armdListInsert_eq q ring.prev_start,Option.some.injEq] at inserted
  exact ⟨g,inserted ▸ uvQueueInsertTail_eq ring.prev_start notLast,linked,others⟩

theorem uvQueueInsertHead_eq {h : Heap N} {l q first : N} (next : (h l).next = some first) (notHead : q ≠ l) :
    uvQueueInsertHead h l q = some (h.linkBetween l first q) := by
  simp [uvQueueInsertHead,next]
  apply heap_ext
  · intro x; simp [Heap.linkBetween]; grind
  · intro x; simp [Heap.linkBetween]

/-- Inserting at the head puts a node before all others. -/
theorem uvQueueInsertHead_ring {h : Heap N} {l q : N} {xs : List N} (ring : Ring h l xs) (fresh : q ∉ l :: xs) :
    ∃ g, uvQueueInsertHead h l q = some g ∧ Ring g l (q :: xs) ∧ ∀ x ∉ l :: q :: xs, g x = h x := by
  have notHead : q ≠ l := fun same => fresh (by simp [same])
  cases xs with
  | nil =>
    have next : (h l).next = some l := ring.path.1
    refine ⟨_,uvQueueInsertHead_eq next notHead,?_,fun x outside => ?_⟩
    · simpa using ring.link fresh
    · exact linkBetween_of_ne h (by grind) (by grind) (by grind)
  | cons y ys =>
    have whole : Ring h l ([] ++ y :: ys) := ring
    have around : Ring h y (ys ++ [l]) := whole.rotate
    have last : (y :: (ys ++ [l])).getLast (by simp) = l := by simp
    have outside : q ∉ y :: (ys ++ [l]) := by grind
    have linked := around.link outside
    rw [last,List.append_assoc] at linked
    exact ⟨_,uvQueueInsertHead_eq ring.next_head notHead,linked.rotate,
      fun x outside => linkBetween_of_ne h (by grind) (by grind) (by grind)⟩

/-- Removing a node joins its neighbours; the node keeps its own links. -/
theorem uvQueueRemove_ring {h : Heap N} {l q : N} {front back : List N} (ring : Ring h l (front ++ q :: back)) :
    ∃ g, uvQueueRemove h q = some g ∧ Ring g l (front ++ back) ∧ ∀ x ∉ l :: (front ++ back), g x = h x := by
  have here : q ∈ l :: (front ++ q :: back) := by simp
  obtain ⟨⟨n,nIn,forward⟩,p,pIn,backward⟩ := ring.linked here
  have gone : q ∉ l :: (front ++ back) := by
    have distinct := ring.nodup
    grind
  have around := ring.rotate
  have pRest : p ∈ back ++ l :: front := by
    have last := around.prev_start
    rw [backward.2,Option.some.injEq,List.getLast_cons (by simp)] at last
    exact last ▸ List.getLast_mem _
  have nRest : n ∈ back ++ l :: front := by
    have first := ring.next_of_split
    rw [forward.1,Option.some.injEq] at first
    rw [first]
    cases back <;> simp
  refine ⟨(h.setNext p (some n)).setPrev n (some p),?_,?_,fun x outside => ?_⟩
  · simp [uvQueueRemove,backward.2,forward.1]
  · refine (ring.unlink backward.2 forward.1).frame fun x member => ?_
    have other : x ≠ q := fun same => gone (same ▸ member)
    rw [Heap.unlinkBetween,setNext_of_ne _ _ other,setPrev_of_ne _ _ other]
  · rw [setPrev_of_ne _ _ (by grind),setNext_of_ne _ _ (by grind)]

/-- Splitting a queue at a node leaves the nodes before it and moves the others to another head. -/
theorem uvQueueSplit_ring {h : Heap N} {l q n : N} {front back : List N} (ring : Ring h l (front ++ q :: back))
    (fresh : n ∉ l :: (front ++ q :: back)) :
    ∃ g, uvQueueSplit h l q n = some g ∧ Ring g l front ∧ Ring g n (q :: back) ∧
      ∀ x ∉ n :: l :: (front ++ q :: back), g x = h x := by
  obtain ⟨toQ,fromQ⟩ := (path_append h front back l l q).mp ring.path
  have distinct := ring.nodup
  obtain ⟨before,beforeIs⟩ : ∃ b, b = (l :: front).getLast (by simp) := ⟨_,rfl⟩
  obtain ⟨last,lastIs⟩ : ∃ b, b = (q :: back).getLast (by simp) := ⟨_,rfl⟩
  have beforeIn : before ∈ l :: front := beforeIs ▸ List.getLast_mem _
  have lastIn : last ∈ q :: back := lastIs ▸ List.getLast_mem _
  have prevL : (h l).prev = some last := lastIs ▸ (path_last fromQ).2
  have prevQ : (h q).prev = some before := beforeIs ▸ (path_last toQ).2
  have beforeLate : before ∉ (l :: front).dropLast := beforeIs ▸ getLast_not_dropLast (by grind) (by simp)
  have lastLate : last ∉ (q :: back).dropLast := lastIs ▸ getLast_not_dropLast (by grind) (by simp)
  have early : ∀ x ∈ (l :: front).dropLast, x ∈ l :: front := fun x => (List.dropLast_sublist _).mem
  have early' : ∀ x ∈ (q :: back).dropLast, x ∈ q :: back := fun x => (List.dropLast_sublist _).mem
  have split : uvQueueSplit h l q n = some ((((((h.setPrev n (some last)).setNext last (some n)).setNext n (some q)).setPrev l
      (some before)).setNext before (some l)).setPrev q (some n)) := by
    have notQ : q ≠ n := by grind
    simp [uvQueueSplit,prevL,prevQ,notQ]
  refine ⟨_,split,⟨by grind,?_⟩,⟨by grind,?_,?_⟩,fun x outside => ?_⟩
  · refine path_retarget toQ (fun x member => ?_) (fun x member => ?_) ?_
    · simp
      grind
    · simp
      grind
    · rw [← beforeIs]
      constructor
      · simp
      · simp
        grind
  · constructor
    · simp
      grind
    · simp
  · refine path_retarget fromQ (fun x member => ?_) (fun x member => ?_) ?_
    · simp
      grind
    · simp
      grind
    · rw [← lastIs]
      constructor
      · simp
        grind
      · simp
        grind
  · rw [setPrev_of_ne _ _ (by grind),setNext_of_ne _ _ (by grind),setPrev_of_ne _ _ (by grind),
      setNext_of_ne _ _ (by grind),setNext_of_ne _ _ (by grind),setPrev_of_ne _ _ (by grind)]

/-- Moving a queue to another head leaves the old head alone. -/
theorem uvQueueMove_ring {h : Heap N} {l n : N} {xs : List N} (ring : Ring h l xs) (fresh : n ∉ l :: xs) :
    ∃ g, uvQueueMove h l n = some g ∧ Alone g l ∧ Ring g n xs ∧ ∀ x ∉ n :: l :: xs, g x = h x := by
  cases xs with
  | nil =>
    have empty := uvQueueEmpty_ring ring
    have notHead : l ≠ n := by grind
    refine ⟨uvQueueInit h n,by simp [uvQueueMove,empty],?_,uvQueueInit_alone h n,fun x outside => ?_⟩
    · exact ring.frame fun x member => uvQueueInit_of_ne h (by grind)
    · exact uvQueueInit_of_ne h (by grind)
  | cons x xs =>
    have empty := uvQueueEmpty_ring ring
    have whole : Ring h l ([] ++ x :: xs) := ring
    obtain ⟨g,split,left,moved,others⟩ := uvQueueSplit_ring whole fresh
    exact ⟨g,by simp [uvQueueMove,empty,ring.next_head,split],left,moved,others⟩

/-- Appending a queue puts its nodes behind those of another; its own head is left as it was, or dangling when it
    had no nodes. -/
theorem uvQueueAdd_ring {h : Heap N} {l n : N} {xs ys : List N} (ring : Ring h l xs) (added : Ring h n ys)
    (apart : ∀ x ∈ l :: xs, x ∉ n :: ys) :
    ∃ g, uvQueueAdd h l n = some g ∧ Ring g l (xs ++ ys) ∧ ∀ x ∉ n :: l :: (xs ++ ys), g x = h x := by
  have distinct := ring.nodup
  have distinct' := added.nodup
  obtain ⟨last,lastIs⟩ : ∃ b, b = (l :: xs).getLast (by simp) := ⟨_,rfl⟩
  have lastIn : last ∈ l :: xs := lastIs ▸ List.getLast_mem _
  have prevL : (h l).prev = some last := lastIs ▸ ring.prev_start
  have lastLate : last ∉ (l :: xs).dropLast := lastIs ▸ getLast_not_dropLast distinct (by simp)
  have early : ∀ x ∈ (l :: xs).dropLast, x ∈ l :: xs := fun x => (List.dropLast_sublist _).mem
  cases ys with
  | nil =>
    obtain ⟨next,prev⟩ := (alone_iff h n).mp added
    have notHead : n ≠ l := by grind
    have done : uvQueueAdd h l n = some ((((h.setNext last (some n)).setPrev n (some last)).setPrev l (some last)).setNext last
        (some l)) := by
      have notLast : n ≠ last := by grind
      simp [uvQueueAdd,prevL,next]
    refine ⟨_,done,?_,fun x outside => ?_⟩
    · rw [List.append_nil]
      refine ring.frame fun x member => ?_
      have notN : x ≠ n := by grind
      have forward := (path_last ring.path).1
      rw [← lastIs] at forward
      apply links_ext
      · simp; grind
      · simp [notN]; grind
    · rw [setNext_of_ne _ _ (by grind),setPrev_of_ne _ _ (by grind),setPrev_of_ne _ _ (by grind),
        setNext_of_ne _ _ (by grind)]
  | cons y ys =>
    obtain ⟨first,rest⟩ := added.path
    obtain ⟨lastN,lastNIs⟩ : ∃ b, b = (y :: ys).getLast (by simp) := ⟨_,rfl⟩
    have lastNIn : lastN ∈ y :: ys := lastNIs ▸ List.getLast_mem _
    have prevN : (h n).prev = some lastN := lastNIs ▸ (path_last rest).2
    have lastNLate : lastN ∉ (y :: ys).dropLast := lastNIs ▸ getLast_not_dropLast (by grind) (by simp)
    have earlyN : ∀ x ∈ (y :: ys).dropLast, x ∈ y :: ys := fun x => (List.dropLast_sublist _).mem
    have notY : n ≠ y := by grind
    have done : uvQueueAdd h l n = some ((((h.setNext last (some y)).setPrev y (some last)).setPrev l (some lastN)).setNext
        lastN (some l)) := by
      simp [uvQueueAdd,prevL,first.1,prevN,notY]
    refine ⟨_,done,⟨by grind,(path_append _ xs ys l l y).mpr ⟨?_,?_⟩⟩,fun x outside => ?_⟩
    · refine path_retarget ring.path (fun x member => ?_) (fun x member => ?_) ?_
      · simp
        grind
      · simp
        grind
      · have notHead : y ≠ l := fun same => apart y (by simp [same]) (by simp)
        have notLastN : last ≠ lastN := fun same => apart last lastIn (by rw [same]; exact List.mem_cons_of_mem _ lastNIn)
        rw [← lastIs]
        constructor
        · simp [notLastN]
        · simp [notHead]
    · refine path_retarget rest (fun x member => ?_) (fun x member => ?_) ?_
      · simp
        grind
      · simp
        grind
      · rw [← lastNIs]
        constructor <;> simp
    · rw [setNext_of_ne _ _ (by grind),setPrev_of_ne _ _ (by grind),setPrev_of_ne _ _ (by grind),
        setNext_of_ne _ _ (by grind)]

end

end Armd.UvQueue
