import Mathlib.Logic.Function.Basic
import Mathlib.Data.List.Nodup
import Mathlib.Tactic.Common

/-!
Circular doubly linked lists in a heap of links. A heap gives every node two
nullable pointers (`Links`, `Heap`). A path follows `next` and is mirrored by
`prev` (`Path`), and a ring is a duplicate-free path from a node back to itself
(`Ring`). Rings rotate (`Ring.rotate`); four pointer writes put a node at the
end of a ring (`Ring.link`) or take a node out of it (`Ring.unlink`), and leave
every ring that does not meet the written nodes as it was (`Ring.frame`). A heap
made of rings is given by the set of their lists of nodes (`MadeOf`), in which
the writes replace one ring and touch no other (`MadeOf.edit`).
-/
namespace Armd.LinkedRings
universe u

/-- The two pointers of a node; `none` is the null pointer. -/
structure Links (N : Type u) where
  prev : Option N
  next : Option N

/-- A heap of links. -/
abbrev Heap (N : Type u) := N → Links N

section
variable {N : Type u}

/-- `b` follows `a` and `a` precedes `b`. -/
def Linked (h : Heap N) (a b : N) : Prop := (h a).next = some b ∧ (h b).prev = some a

/-- From `a` through the nodes of the list to `b`, forwards by `next` and backwards by `prev`. -/
def Path (h : Heap N) : N → List N → N → Prop
  | a, [], b => Linked h a b
  | a, x :: xs, b => Linked h a x ∧ Path h x xs b

theorem path_append (h : Heap N) (xs ys : List N) (a b y : N) :
    Path h a (xs ++ y :: ys) b ↔ Path h a xs y ∧ Path h y ys b := by
  induction xs generalizing a with
  | nil => rfl
  | cons x xs ih => simp only [List.cons_append,Path,ih,and_assoc]

/-- A path only depends on the `next` of its nodes but the last and the `prev` of all but the first. -/
theorem path_congr {h g : Heap N} {xs : List N} {a b : N} (path : Path h a xs b)
    (nexts : ∀ x ∈ a :: xs, (g x).next = (h x).next) (prevs : ∀ x ∈ xs ++ [b], (g x).prev = (h x).prev) :
    Path g a xs b := by
  induction xs generalizing a with
  | nil => exact ⟨(nexts a (by simp)).trans path.1,(prevs b (by simp)).trans path.2⟩
  | cons x xs ih =>
    obtain ⟨first,rest⟩ := path
    refine ⟨⟨(nexts a (by simp)).trans first.1,(prevs x (by simp)).trans first.2⟩,ih rest ?_ ?_⟩
    · intro y member; exact nexts y (List.mem_cons_of_mem _ member)
    · intro y member; exact prevs y (List.mem_cons_of_mem _ member)

/-- The last link of a path. -/
theorem path_last {h : Heap N} {xs : List N} {a b : N} (path : Path h a xs b) :
    Linked h ((a :: xs).getLast (by simp)) b := by
  induction xs generalizing a with
  | nil => exact path
  | cons x xs ih => rw [List.getLast_cons (by simp)]; exact ih path.2

/-- The first link of a path. -/
theorem path_first {h : Heap N} {xs : List N} {a b : N} (path : Path h a xs b) :
    Linked h a ((xs ++ [b]).head (by simp)) := by
  cases xs with
  | nil => exact path
  | cons x xs => exact path.1

/-- Every node of a path but its last has a successor among the others. -/
theorem path_next {h : Heap N} {xs : List N} {a b : N} (path : Path h a xs b) :
    ∀ x ∈ a :: xs, ∃ y ∈ xs ++ [b], (h x).next = some y := by
  induction xs generalizing a with
  | nil => intro x member; simp at member; subst member; exact ⟨b,by simp,path.1⟩
  | cons z xs ih =>
    intro x member
    rcases List.mem_cons.mp member with rfl | later
    · exact ⟨z,by simp,path.1.1⟩
    · obtain ⟨y,inside,next⟩ := ih path.2 x later
      exact ⟨y,List.mem_cons_of_mem _ inside,next⟩

/-- Every node of a path but its first has a predecessor among the others. -/
theorem path_prev {h : Heap N} {xs : List N} {a b : N} (path : Path h a xs b) :
    ∀ x ∈ xs ++ [b], ∃ y ∈ a :: xs, Linked h y x := by
  induction xs generalizing a with
  | nil => intro x member; simp at member; subst member; exact ⟨a,by simp,path⟩
  | cons z xs ih =>
    intro x member
    rcases List.mem_cons.mp member with rfl | later
    · exact ⟨a,by simp,path.1⟩
    · obtain ⟨y,inside,link⟩ := ih path.2 x later
      exact ⟨y,List.mem_cons_of_mem _ inside,link⟩

/-- A ring: from `s` through the nodes of `xs`, all different, and back to `s`. -/
structure Ring (h : Heap N) (s : N) (xs : List N) : Prop where
  nodup : (s :: xs).Nodup
  path : Path h s xs s

/-- A node whose two pointers lead to itself. -/
def Alone (h : Heap N) (x : N) : Prop := Ring h x []

theorem alone_iff (h : Heap N) (x : N) : Alone h x ↔ (h x).next = some x ∧ (h x).prev = some x :=
  ⟨fun ring => ring.path,fun links => ⟨by simp,links⟩⟩

theorem Ring.next_head {h : Heap N} {s x : N} {xs : List N} (ring : Ring h s (x :: xs)) :
    (h s).next = some x := ring.path.1.1

/-- The predecessor of the start of a ring is its last node. -/
theorem Ring.prev_start {h : Heap N} {s : N} {xs : List N} (ring : Ring h s xs) :
    (h s).prev = some ((s :: xs).getLast (by simp)) := (path_last ring.path).2

/-- The node that follows `x` on a ring is the next one of the list, or the start again. -/
theorem Ring.next_of_split {h : Heap N} {s x : N} {front back : List N} (ring : Ring h s (front ++ x :: back)) :
    (h x).next = some ((back ++ [s]).head (by simp)) :=
  (path_first ((path_append h front back s s x).mp ring.path).2).1

/-- A node on a ring is followed by its start only when it is the last one. -/
theorem Ring.next_start_iff {h : Heap N} {s : N} {xs : List N} (ring : Ring h s xs) :
    (h s).next = some s ↔ xs = [] := by
  cases xs with
  | nil => exact ⟨fun _ => rfl,fun _ => ring.path.1⟩
  | cons x xs =>
    constructor
    · intro back
      have same : x = s := by simpa [ring.next_head] using back
      have distinct := ring.nodup
      simp [same] at distinct
    · intro empty; cases empty

/-- A ring read from another of its nodes. -/
theorem Ring.rotate {h : Heap N} {s x : N} {front back : List N} (ring : Ring h s (front ++ x :: back)) :
    Ring h x (back ++ s :: front) := by
  refine ⟨?_,?_⟩
  · have perm : (x :: (back ++ s :: front)).Perm (s :: (front ++ x :: back)) := by
      have one : (x :: back ++ s :: front).Perm (s :: front ++ x :: back) := List.perm_append_comm
      simpa using one
    exact perm.nodup_iff.mpr ring.nodup
  · obtain ⟨toX,fromX⟩ := (path_append h front back s s x).mp ring.path
    exact (path_append h back front x x s).mpr ⟨fromX,toX⟩

/-- Every node of a ring has both pointers, into the ring, and they are inverse to each other. -/
theorem Ring.linked {h : Heap N} {s : N} {xs : List N} (ring : Ring h s xs) {x : N} (member : x ∈ s :: xs) :
    (∃ y ∈ s :: xs, Linked h x y) ∧ ∃ y ∈ s :: xs, Linked h y x := by
  have mirrored : ∀ z ∈ s :: xs, ∃ y ∈ s :: xs, Linked h y z := by
    intro z inside
    apply path_prev ring.path z
    simp only [List.mem_append,List.mem_cons,List.not_mem_nil,or_false] at inside ⊢
    exact inside.symm
  refine ⟨?_,mirrored x member⟩
  obtain ⟨y,inside,next⟩ := path_next ring.path x member
  have onRing : y ∈ s :: xs := by
    simp only [List.mem_append,List.mem_cons,List.not_mem_nil,or_false] at inside ⊢
    exact inside.symm
  rcases List.mem_cons.mp member with rfl | later
  · cases xs with
    | nil => exact ⟨_,by simp,ring.path⟩
    | cons z zs => exact ⟨z,by simp,ring.path.1⟩
  · obtain ⟨front,back,rfl⟩ := List.append_of_mem later
    have link := path_first ((path_append h front back s s x).mp ring.path).2
    refine ⟨_,?_,link⟩
    have : y = (back ++ [s]).head (by simp) := by simpa [link.1] using next.symm
    exact this ▸ onRing

/-- A ring depends on the links of its own nodes only. -/
theorem Ring.frame {h g : Heap N} {s : N} {xs : List N} (ring : Ring h s xs)
    (same : ∀ x ∈ s :: xs, g x = h x) : Ring g s xs := by
  refine ⟨ring.nodup,path_congr ring.path (fun x member => by rw [same x member]) ?_⟩
  intro x member
  rw [same x]
  simp only [List.mem_append,List.mem_cons,List.not_mem_nil,or_false] at member ⊢
  exact member.symm

/-- Following `next` stays on the ring. -/
theorem Ring.next_mem {h : Heap N} {s : N} {xs : List N} (ring : Ring h s xs) {x y : N} (member : x ∈ s :: xs)
    (next : (h x).next = some y) : y ∈ s :: xs := by
  obtain ⟨⟨z,inside,link⟩,_⟩ := ring.linked member
  have : y = z := by simpa [link.1] using next.symm
  exact this ▸ inside

/-- A path that does not meet its end before is determined by the `next` pointers. -/
theorem path_unique {h : Heap N} {s : N} {xs ys : List N} {a : N} (path : Path h a xs s) (path' : Path h a ys s)
    (open₁ : s ∉ xs) (open₂ : s ∉ ys) : xs = ys := by
  induction xs generalizing a ys with
  | nil =>
    cases ys with
    | nil => rfl
    | cons y ys =>
      have same : s = y := by simpa [path.1] using path'.1.1
      exact absurd (by simp [same]) open₂
  | cons x xs ih =>
    cases ys with
    | nil =>
      have same : s = x := by simpa [path'.1] using path.1.1
      exact absurd (by simp [same]) open₁
    | cons y ys =>
      have same : x = y := by simpa [path.1.1] using path'.1.1
      subst same
      rw [ih path.2 path'.2 (fun member => open₁ (List.mem_cons_of_mem _ member))
        (fun member => open₂ (List.mem_cons_of_mem _ member))]

theorem Ring.unique {h : Heap N} {s : N} {xs ys : List N} (ring : Ring h s xs) (ring' : Ring h s ys) : xs = ys :=
  path_unique ring.path ring'.path (List.nodup_cons.mp ring.nodup).1 (List.nodup_cons.mp ring'.nodup).1

/-- Whoever walks along a path of another heap whose `next` pointers are the same stays on the ring. -/
theorem Ring.walk_mem {h g : Heap N} {s : N} {xs : List N} (ring : Ring g s xs) {front : List N} {a b : N}
    (path : Path h a front b) (nexts : ∀ x ∈ a :: front, (g x).next = (h x).next) (start : a ∈ s :: xs) :
    ∀ x ∈ a :: front, x ∈ s :: xs := by
  induction front generalizing a with
  | nil => intro x member; simp at member; exact member ▸ start
  | cons y front ih =>
    have next : (g a).next = some y := (nexts a (by simp)).trans path.1.1
    intro x member
    rcases List.mem_cons.mp member with rfl | later
    · exact start
    · exact ih path.2 (fun z inside => nexts z (List.mem_cons_of_mem _ inside)) (ring.next_mem start next) x later


/-- By `next` alone from a cursor through the nodes of the list to a cursor. -/
def Walk (h : Heap N) : Option N → List N → Option N → Prop
  | a, [], b => a = b
  | a, x :: xs, b => a = some x ∧ Walk h (h x).next xs b

theorem walk_snoc {h : Heap N} {xs : List N} {a : Option N} {x : N} (walk : Walk h a xs (some x)) :
    Walk h a (xs ++ [x]) (h x).next := by
  induction xs generalizing a with
  | nil => exact ⟨walk,rfl⟩
  | cons y xs ih => exact ⟨walk.1,ih walk.2⟩

theorem walk_congr {h g : Heap N} {xs : List N} {a b : Option N} (walk : Walk h a xs b)
    (nexts : ∀ x ∈ xs, (g x).next = (h x).next) : Walk g a xs b := by
  induction xs generalizing a with
  | nil => exact walk
  | cons x xs ih =>
    refine ⟨walk.1,?_⟩
    rw [nexts x (by simp)]
    exact ih walk.2 fun y member => nexts y (List.mem_cons_of_mem _ member)

theorem walk_suffix {h : Heap N} {xs : List N} {a b : Option N} (walk : Walk h a xs b) {x : N} (member : x ∈ xs) :
    ∃ ys, Walk h (h x).next ys b ∧ ys.length < xs.length ∧ ∀ y ∈ ys, y ∈ xs := by
  induction xs generalizing a with
  | nil => simp at member
  | cons z xs ih =>
    rcases List.mem_cons.mp member with rfl | later
    · exact ⟨xs,walk.2,by simp,fun y inside => List.mem_cons_of_mem _ inside⟩
    · obtain ⟨ys,rest,shorter,among⟩ := ih walk.2 later
      exact ⟨ys,rest,by simp; omega,fun y inside => List.mem_cons_of_mem _ (among y inside)⟩

section
variable {h : Heap N} {inside : N → Prop} {xs ys : List N} {a b : Option N} {s t : N}

/-- Two walks from one cursor through nodes of a class, each up to a node outside it, are one. -/
theorem walk_unique (walk : Walk h a xs (some s)) (walk' : Walk h a ys (some t)) (all : ∀ x ∈ xs, inside x)
    (all' : ∀ y ∈ ys, inside y) (out : ¬ inside s) (out' : ¬ inside t) : xs = ys ∧ s = t := by
  induction xs generalizing a ys with
  | nil =>
    cases ys with
    | nil => exact ⟨rfl,Option.some.inj (walk.symm.trans walk')⟩
    | cons y ys =>
      cases walk.symm.trans walk'.1
      exact absurd (all' _ (by simp)) out
  | cons x xs ih =>
    cases ys with
    | nil =>
      cases walk'.symm.trans walk.1
      exact absurd (all _ (by simp)) out'
    | cons y ys =>
      cases walk.1.symm.trans walk'.1
      obtain ⟨rfl,same⟩ := ih walk.2 walk'.2 (fun z member => all z (List.mem_cons_of_mem _ member))
        (fun z member => all' z (List.mem_cons_of_mem _ member))
      exact ⟨rfl,same⟩

/-- Walks that meet end at one node. -/
theorem walk_apart (walk : Walk h a xs (some s)) (walk' : Walk h b ys (some t)) (all : ∀ x ∈ xs, inside x)
    (all' : ∀ y ∈ ys, inside y) (out : ¬ inside s) (out' : ¬ inside t) {x : N} (member : x ∈ xs) (member' : x ∈ ys) :
    s = t := by
  obtain ⟨us,rest,_,among⟩ := walk_suffix walk member
  obtain ⟨vs,rest',_,among'⟩ := walk_suffix walk' member'
  exact (walk_unique rest rest' (fun y inside => all y (among y inside)) (fun y inside => all' y (among' y inside)) out
    out').2

/-- A walk that ends never comes back to its first node. -/
theorem walk_fresh {x : N} (walk : Walk h a (x :: xs) (some s)) (all : ∀ y ∈ xs, inside y) (out : ¬ inside s) : x ∉ xs := by
  intro member
  obtain ⟨us,rest,shorter,among⟩ := walk_suffix walk.2 member
  obtain ⟨rfl,_⟩ := walk_unique walk.2 rest all (fun y inside => all y (among y inside)) out out
  exact Nat.lt_irrefl _ shorter

end

/-- The nodes of the list are a ring, read from the first of them. -/
def Circle (h : Heap N) : List N → Prop
  | [] => True
  | s :: xs => Ring h s xs

theorem Circle.frame {h g : Heap N} {r : List N} (circle : Circle h r) (same : ∀ x ∈ r, g x = h x) : Circle g r := by
  cases r with
  | nil => trivial
  | cons s xs => exact Ring.frame circle same

/-- A node that is alone shares its ring with no other. -/
theorem Circle.alone {h : Heap N} {r : List N} {x : N} (circle : Circle h r) (member : x ∈ r) (alone : Alone h x) :
    r = [x] := by
  cases r with
  | nil => simp at member
  | cons s xs =>
    rcases List.mem_cons.mp member with rfl | later
    · rw [(Ring.next_start_iff circle).mp ((alone_iff h x).mp alone).1]
    · obtain ⟨front,back,rfl⟩ := List.append_of_mem later
      have around := Ring.rotate circle
      have none := around.next_start_iff.mp ((alone_iff h x).mp alone).1
      simp at none

/-- No other place of a ring holds the node. -/
theorem Circle.not_mem_rest {h : Heap N} {front back : List N} {x : N} (circle : Circle h (front ++ x :: back)) :
    x ∉ front ++ back := by
  have distinct : (front ++ x :: back).Nodup := by
    cases front with
    | nil => exact Ring.nodup circle
    | cons s front => exact Ring.nodup circle
  exact (List.nodup_cons.mp (List.nodup_middle.mp distinct)).1

/-- The rings of a heap: each list of the set is one, and no node is on two of them. -/
structure MadeOf (h : Heap N) (R : Set (List N)) : Prop where
  ring : ∀ r ∈ R, Circle h r
  apart : ∀ r ∈ R, ∀ r' ∈ R, ∀ x ∈ r, x ∈ r' → r = r'

/-- A node that is alone or on no ring is on a ring of its own at most. -/
theorem MadeOf.only_ring {h : Heap N} {R : Set (List N)} (madeOf : MadeOf h R) {x : N} {r : List N}
    (free : Alone h x ∨ ∀ r ∈ R, x ∉ r) (inR : r ∈ R) (member : x ∈ r) : r = [x] := by
  rcases free with alone | none
  · exact (madeOf.ring r inR).alone member alone
  · exact absurd member (none r inR)

/-- Writes that stay on the nodes of some rings, and leave there the rings of `new`. -/
theorem MadeOf.edit {h g : Heap N} {R old new : Set (List N)} (madeOf : MadeOf h R) (made : MadeOf g new)
    (inside : ∀ r ∈ new, ∀ x ∈ r, ∀ r' ∈ R, x ∈ r' → r' ∈ old)
    (same : ∀ r ∈ R \ old, ∀ x ∈ r, g x = h x) : MadeOf g (R \ old ∪ new) := by
  constructor
  · rintro r (kept | fresh)
    · exact (madeOf.ring r kept.1).frame (same r kept)
    · exact made.ring r fresh
  · rintro r (kept | fresh) r' (kept' | fresh') x on on'
    · exact madeOf.apart r kept.1 r' kept'.1 x on on'
    · exact absurd (inside r' fresh' x on' r kept.1 on) kept.2
    · exact absurd (inside r fresh x on r' kept'.1 on') kept'.2
    · exact made.apart r fresh r' fresh' x on on'

end

section
variable {N : Type u} [DecidableEq N]

/-- Writing the `next` pointer of a node. -/
def Heap.setNext (h : Heap N) (x : N) (y : Option N) : Heap N := Function.update h x { h x with next := y }
/-- Writing the `prev` pointer of a node. -/
def Heap.setPrev (h : Heap N) (x : N) (y : Option N) : Heap N := Function.update h x { h x with prev := y }

@[simp] theorem setNext_next (h : Heap N) (x z : N) (y : Option N) :
    (h.setNext x y z).next = if z = x then y else (h z).next := by
  by_cases same : z = x
  · subst same; simp [Heap.setNext]
  · simp [Heap.setNext,same]
@[simp] theorem setNext_prev (h : Heap N) (x z : N) (y : Option N) : (h.setNext x y z).prev = (h z).prev := by
  by_cases same : z = x
  · subst same; simp [Heap.setNext]
  · simp [Heap.setNext,same]
@[simp] theorem setPrev_prev (h : Heap N) (x z : N) (y : Option N) :
    (h.setPrev x y z).prev = if z = x then y else (h z).prev := by
  by_cases same : z = x
  · subst same; simp [Heap.setPrev]
  · simp [Heap.setPrev,same]
@[simp] theorem setPrev_next (h : Heap N) (x z : N) (y : Option N) : (h.setPrev x y z).next = (h z).next := by
  by_cases same : z = x
  · subst same; simp [Heap.setPrev]
  · simp [Heap.setPrev,same]

theorem setNext_of_ne (h : Heap N) {x z : N} (y : Option N) (other : z ≠ x) : h.setNext x y z = h z := by
  simp [Heap.setNext,other]
theorem setPrev_of_ne (h : Heap N) {x z : N} (y : Option N) (other : z ≠ x) : h.setPrev x y z = h z := by
  simp [Heap.setPrev,other]

/-- `y` put between the last node `p` of a ring and its start `s`. -/
def Heap.linkBetween (h : Heap N) (p s y : N) : Heap N :=
  (((h.setNext p (some y)).setPrev y (some p)).setPrev s (some y)).setNext y (some s)

/-- The neighbours `p` and `n` of `x` joined and `x` left alone. -/
def Heap.unlinkBetween (h : Heap N) (p n x : N) : Heap N :=
  (((h.setNext p (some n)).setPrev n (some p)).setPrev x (some x)).setNext x (some x)

theorem linkBetween_of_ne (h : Heap N) {p s y z : N} (notLast : z ≠ p) (notStart : z ≠ s) (notNew : z ≠ y) :
    h.linkBetween p s y z = h z := by
  simp only [Heap.linkBetween,setNext_of_ne _ _ notNew,setPrev_of_ne _ _ notStart,setPrev_of_ne _ _ notNew,
    setNext_of_ne _ _ notLast]

theorem unlinkBetween_of_ne (h : Heap N) {p n x z : N} (notPrev : z ≠ p) (notNext : z ≠ n) (notNode : z ≠ x) :
    h.unlinkBetween p n x z = h z := by
  simp only [Heap.unlinkBetween,setNext_of_ne _ _ notNode,setPrev_of_ne _ _ notNode,setPrev_of_ne _ _ notNext,
    setNext_of_ne _ _ notPrev]

/-- A node that is on no place of the ring joins it at its end. -/
theorem Ring.link {h : Heap N} {s y : N} {xs : List N} (ring : Ring h s xs) (fresh : y ∉ s :: xs) :
    Ring (h.linkBetween ((s :: xs).getLast (by simp)) s y) s (xs ++ [y]) := by
  set p := (s :: xs).getLast (by simp) with pIs
  have notStart : y ≠ s := fun same => fresh (by simp [same])
  have lastIn : p ∈ s :: xs := List.getLast_mem _
  have notLast : y ≠ p := fun same => fresh (same ▸ lastIn)
  have distinct : (s :: (xs ++ [y])).Nodup := by
    have grown : ((s :: xs) ++ [y]).Nodup := List.nodup_append.mpr
      ⟨ring.nodup,by simp,by rintro a inside b last rfl; simp at last; exact fresh (last ▸ inside)⟩
    simpa using grown
  refine ⟨distinct,(path_append _ xs [] s s y).mpr ⟨?_,?_⟩⟩
  · -- the old path, its last step now leading to `y`
    rcases List.eq_nil_or_concat xs with rfl | ⟨ys,z,rfl⟩
    · have last : p = s := by simp [pIs]
      rw [last]
      constructor <;> simp [Heap.linkBetween,notStart,Ne.symm notStart]
    · have last : p = z := by simp [pIs]
      rw [last] at notLast ⊢
      have zNotStart : z ≠ s := by have := ring.nodup; simp at this; exact fun same => this.1.2 same.symm
      rw [List.concat_eq_append,path_append] at ⊢
      have old := ring.path
      rw [List.concat_eq_append,path_append] at old
      have parts := ring.nodup
      rw [List.concat_eq_append] at parts fresh
      simp only [List.nodup_cons,List.mem_append,List.mem_cons,List.not_mem_nil,or_false,not_or,
        List.nodup_append] at parts
      simp only [List.mem_append,List.mem_cons,List.not_mem_nil,or_false,not_or] at fresh
      refine ⟨path_congr old.1 ?_ ?_,?_⟩
      · intro x member
        have notY : x ≠ y := by rintro rfl; rcases List.mem_cons.mp member with e | e <;> simp_all
        have notZ : x ≠ z := by
          rintro rfl
          rcases List.mem_cons.mp member with e | e
          · exact zNotStart e
          · exact parts.2.2.2 x e x rfl rfl
        simp [Heap.linkBetween,notY,notZ]
      · intro x member
        have notY : x ≠ y := by rintro rfl; simp at member; rcases member with e | e <;> simp_all
        have notS : x ≠ s := by rintro rfl; simp at member; rcases member with e | e <;> simp_all
        simp [Heap.linkBetween,notY,notS]
      · constructor <;> simp [Heap.linkBetween,notStart,Ne.symm notLast]
  · constructor <;> simp [Heap.linkBetween]

/-- The first node of a ring leaves it: the others stay a ring, in their order. -/
theorem Ring.unlink_start {h : Heap N} {x y : N} {ys : List N} (ring : Ring h x (y :: ys)) :
    Ring (h.unlinkBetween ((y :: ys).getLast (by simp)) y x) y ys := by
  set p := (y :: ys).getLast (by simp) with pIs
  have distinct : x ∉ y :: ys := (List.nodup_cons.mp ring.nodup).1
  have notX : y ≠ x := fun same => distinct (by simp [same])
  have lastIn : p ∈ y :: ys := List.getLast_mem _
  have lastNotX : p ≠ x := fun same => distinct (same ▸ lastIn)
  refine ⟨(List.nodup_cons.mp ring.nodup).2,?_⟩
  rcases List.eq_nil_or_concat ys with rfl | ⟨zs,z,rfl⟩
  · have last : p = y := by simp [pIs]
    rw [last]
    constructor <;> simp [Heap.unlinkBetween,notX]
  · have last : p = z := by simp [pIs]
    rw [last] at lastNotX ⊢
    rw [List.concat_eq_append] at ring distinct ⊢
    have old := ring.path.2
    rw [path_append] at old ⊢
    have parts := (List.nodup_cons.mp ring.nodup).2
    simp only [List.nodup_cons,List.mem_append,List.mem_cons,List.not_mem_nil,or_false,not_or,
      List.nodup_append] at parts
    simp only [List.mem_append,List.mem_cons,List.not_mem_nil,or_false,not_or] at distinct
    refine ⟨path_congr old.1 ?_ ?_,?_⟩
    · intro a member
      have aNotX : a ≠ x := by rintro rfl; rcases List.mem_cons.mp member with e | e <;> simp_all
      have aNotZ : a ≠ z := by
        rintro rfl
        rcases List.mem_cons.mp member with e | e
        · exact parts.1.2 e.symm
        · exact parts.2.2.2 a e a rfl rfl
      simp [Heap.unlinkBetween,aNotX,aNotZ]
    · intro a member
      have aNotX : a ≠ x := by rintro rfl; simp at member; rcases member with e | e <;> simp_all
      have aNotY : a ≠ y := by
        rintro rfl
        simp at member
        rcases member with e | e
        · exact parts.1.1 e
        · exact parts.1.2 e
      simp [Heap.unlinkBetween,aNotX,aNotY]
    · constructor <;> simp [Heap.unlinkBetween,lastNotX,notX]

/-- Any node of a ring but its start leaves it: the others stay a ring, in their order. -/
theorem Ring.unlink {h : Heap N} {s x p n : N} {front back : List N} (ring : Ring h s (front ++ x :: back))
    (prev : (h x).prev = some p) (next : (h x).next = some n) :
    Ring (h.unlinkBetween p n x) s (front ++ back) := by
  have around := ring.rotate
  have pIs := around.prev_start
  rw [prev,Option.some.injEq] at pIs
  cases back with
  | nil =>
    have nIs : n = s := by simpa [next] using around.next_head
    have left : Ring _ s front := Ring.unlink_start around
    rw [List.nil_append,List.getLast_cons (by simp)] at pIs
    rw [← pIs,← nIs] at left
    simpa [nIs] using left
  | cons b back =>
    have nIs : n = b := by simpa [next] using around.next_head
    have left : Ring _ b (back ++ s :: front) := Ring.unlink_start around
    have pLast : p = (b :: (back ++ s :: front)).getLast (by simp) := by
      simpa [List.getLast_cons] using pIs
    subst nIs
    rw [pLast]
    exact left.rotate

/-- Unlinking the node that was just linked restores every other node. -/
theorem unlinkBetween_linkBetween (h : Heap N) {p s y x : N} (link : Linked h p s) (notLast : y ≠ p) (notStart : y ≠ s)
    (other : x ≠ y) : (h.linkBetween p s y).unlinkBetween p s y x = h x := by
  have next : ((h.linkBetween p s y).unlinkBetween p s y x).next = (h x).next := by
    by_cases last : x = p
    · subst last; simp [Heap.unlinkBetween,other,link.1]
    · simp [Heap.unlinkBetween,Heap.linkBetween,other,last]
  have prev : ((h.linkBetween p s y).unlinkBetween p s y x).prev = (h x).prev := by
    by_cases start : x = s
    · subst start; simp [Heap.unlinkBetween,other,link.2]
    · simp [Heap.unlinkBetween,Heap.linkBetween,other,start]
  calc (h.linkBetween p s y).unlinkBetween p s y x
      = ⟨((h.linkBetween p s y).unlinkBetween p s y x).prev,((h.linkBetween p s y).unlinkBetween p s y x).next⟩ := rfl
    _ = ⟨(h x).prev,(h x).next⟩ := by rw [next,prev]
    _ = h x := rfl

/-- A node that is unlinked from its neighbours is alone. -/
theorem alone_unlinkBetween (h : Heap N) (p n x : N) : Alone (h.unlinkBetween p n x) x := by
  rw [alone_iff]
  constructor <;> simp [Heap.unlinkBetween]

end

end Armd.LinkedRings
