import Armd.HeapOrder
import Armd.Programs

/-!
The binary min heap of the timers: nodes with three pointers, whose links the
heap operations rewrite in place. A new node becomes the last one and walks up
while it is before its parent; the last node takes the place of a removed one
and walks down, then up. Every pointer write has its lemma, and the exchange of
a node with its parent one for each pointer (`heapNodeSwap_left` and so on).
-/
namespace Armd.BinaryHeap
open Armd.Programs Armd.Programs.Program Armd.HeapOrder
universe u

structure HeapNode (N : Type) where
  left : Option N
  right : Option N
  parent : Option N

@[ext] theorem HeapNode.ext {N : Type} {a b : HeapNode N} (left : a.left = b.left) (right : a.right = b.right)
    (parent : a.parent = b.parent) : a = b := by
  cases a; cases b; simp_all

/-- A `struct heap`, with the memory of the nodes. -/
structure HeapState (N : Type) where
  min : Option N
  nelts : ℕ
  nodes : N → HeapNode N

/-- The places that hold a pointer to a node: `struct heap_node**`. -/
inductive Slot (N : Type)
  | min
  | left (a : N)
  | right (a : N)
  deriving DecidableEq

variable {N : Type} [DecidableEq N]

namespace HeapState

def setNode (h : HeapState N) (x : N) (node : HeapNode N) : HeapState N :=
  { h with nodes := Function.update h.nodes x node }
def setLeft (h : HeapState N) (x : N) (y : Option N) : HeapState N := h.setNode x { h.nodes x with left := y }
def setRight (h : HeapState N) (x : N) (y : Option N) : HeapState N := h.setNode x { h.nodes x with right := y }
def setParent (h : HeapState N) (x : N) (y : Option N) : HeapState N := h.setNode x { h.nodes x with parent := y }
/-- `if (x != NULL) x->parent = y`. -/
def setParentOf (h : HeapState N) (x : Option N) (y : N) : HeapState N :=
  match x with
  | none => h
  | some x => h.setParent x (some y)

omit [DecidableEq N] in
def read (h : HeapState N) : Slot N → Option N
  | .min => h.min
  | .left a => (h.nodes a).left
  | .right a => (h.nodes a).right
def write (h : HeapState N) (slot : Slot N) (x : Option N) : HeapState N :=
  match slot with
  | .min => { h with min := x }
  | .left a => h.setLeft a x
  | .right a => h.setRight a x

/-- The pointer to `old`, of the node above it or of the heap, leads to `new`. -/
def relink (h : HeapState N) (above : Option N) (old new : N) : HeapState N :=
  match above with
  | none => { h with min := some new }
  | some above =>
    if (h.nodes above).left = some old then h.setLeft above (some new) else h.setRight above (some new)

section
variable (h : HeapState N) (x y : N) (v : Option N)

theorem setNode_nodes (node : HeapNode N) : (h.setNode x node).nodes y = if y = x then node else h.nodes y := by
  by_cases same : y = x
  · subst same; simp [setNode]
  · simp [setNode,same]

@[simp] theorem setNode_min (node : HeapNode N) : (h.setNode x node).min = h.min := rfl
@[simp] theorem setNode_nelts (node : HeapNode N) : (h.setNode x node).nelts = h.nelts := rfl
@[simp] theorem setNode_left (node : HeapNode N) :
    ((h.setNode x node).nodes y).left = if y = x then node.left else (h.nodes y).left := by
  rw [setNode_nodes]; split <;> rfl
@[simp] theorem setNode_right (node : HeapNode N) :
    ((h.setNode x node).nodes y).right = if y = x then node.right else (h.nodes y).right := by
  rw [setNode_nodes]; split <;> rfl
@[simp] theorem setNode_parent (node : HeapNode N) :
    ((h.setNode x node).nodes y).parent = if y = x then node.parent else (h.nodes y).parent := by
  rw [setNode_nodes]; split <;> rfl

@[simp] theorem setLeft_left : ((h.setLeft x v).nodes y).left = if y = x then v else (h.nodes y).left := by
  simp [setLeft]
@[simp] theorem setLeft_right : ((h.setLeft x v).nodes y).right = (h.nodes y).right := by
  simp only [setLeft,setNode_right]; split <;> simp [*]
@[simp] theorem setLeft_parent : ((h.setLeft x v).nodes y).parent = (h.nodes y).parent := by
  simp only [setLeft,setNode_parent]; split <;> simp [*]
@[simp] theorem setRight_left : ((h.setRight x v).nodes y).left = (h.nodes y).left := by
  simp only [setRight,setNode_left]; split <;> simp [*]
@[simp] theorem setRight_right : ((h.setRight x v).nodes y).right = if y = x then v else (h.nodes y).right := by
  simp [setRight]
@[simp] theorem setRight_parent : ((h.setRight x v).nodes y).parent = (h.nodes y).parent := by
  simp only [setRight,setNode_parent]; split <;> simp [*]
@[simp] theorem setParent_left : ((h.setParent x v).nodes y).left = (h.nodes y).left := by
  simp only [setParent,setNode_left]; split <;> simp [*]
@[simp] theorem setParent_right : ((h.setParent x v).nodes y).right = (h.nodes y).right := by
  simp only [setParent,setNode_right]; split <;> simp [*]
@[simp] theorem setParent_parent : ((h.setParent x v).nodes y).parent = if y = x then v else (h.nodes y).parent := by
  simp [setParent]

@[simp] theorem setLeft_min : (h.setLeft x v).min = h.min := rfl
@[simp] theorem setRight_min : (h.setRight x v).min = h.min := rfl
@[simp] theorem setParent_min : (h.setParent x v).min = h.min := rfl
@[simp] theorem setLeft_nelts : (h.setLeft x v).nelts = h.nelts := rfl
@[simp] theorem setRight_nelts : (h.setRight x v).nelts = h.nelts := rfl
@[simp] theorem setParent_nelts : (h.setParent x v).nelts = h.nelts := rfl

@[simp] theorem setParentOf_left : ((h.setParentOf v x).nodes y).left = (h.nodes y).left := by
  cases v <;> simp [setParentOf]
@[simp] theorem setParentOf_right : ((h.setParentOf v x).nodes y).right = (h.nodes y).right := by
  cases v <;> simp [setParentOf]
@[simp] theorem setParentOf_parent :
    ((h.setParentOf v x).nodes y).parent = if v = some y then some x else (h.nodes y).parent := by
  cases v <;> simp [setParentOf,eq_comm]
@[simp] theorem setParentOf_min : (h.setParentOf v x).min = h.min := by cases v <;> rfl
@[simp] theorem setParentOf_nelts : (h.setParentOf v x).nelts = h.nelts := by cases v <;> rfl

variable (slot : Slot N)

@[simp] theorem write_left : ((h.write slot v).nodes y).left = if slot = .left y then v else (h.nodes y).left := by
  cases slot <;> simp [write,eq_comm]
@[simp] theorem write_right : ((h.write slot v).nodes y).right = if slot = .right y then v else (h.nodes y).right := by
  cases slot <;> simp [write,eq_comm]
@[simp] theorem write_parent : ((h.write slot v).nodes y).parent = (h.nodes y).parent := by
  cases slot <;> simp [write]
@[simp] theorem write_min : (h.write slot v).min = if slot = .min then v else h.min := by
  cases slot <;> simp [write]
@[simp] theorem write_nelts : (h.write slot v).nelts = h.nelts := by cases slot <;> rfl

variable (above : Option N) (old new : N)

@[simp] theorem relink_left : ((h.relink above old new).nodes y).left =
    if above = some y ∧ (h.nodes y).left = some old then some new else (h.nodes y).left := by
  unfold relink; grind [setLeft_left,setRight_left]
@[simp] theorem relink_right : ((h.relink above old new).nodes y).right =
    if above = some y ∧ (h.nodes y).left ≠ some old then some new else (h.nodes y).right := by
  unfold relink; grind [setLeft_right,setRight_right]
@[simp] theorem relink_parent : ((h.relink above old new).nodes y).parent = (h.nodes y).parent := by
  unfold relink; grind [setLeft_parent,setRight_parent]
@[simp] theorem relink_min : (h.relink above old new).min = if above = none then some new else h.min := by
  unfold relink; grind [setLeft_min,setRight_min]
@[simp] theorem relink_nelts : (h.relink above old new).nelts = h.nelts := by
  unfold relink; grind [setLeft_nelts,setRight_nelts]

end

end HeapState

def heapInit (nodes : N → HeapNode N) : HeapState N := ⟨none,0,nodes⟩

def heapMin (h : HeapState N) : Option N := h.min

/-- The child moves up and the parent down. -/
def heapNodeSwap (h : HeapState N) (parent child : N) : HeapState N :=
  let t := h.nodes parent
  let h := h.setNode parent (h.nodes child)
  let h := h.setNode child t
  let h := h.setParent parent (some child)
  let onLeft := (h.nodes child).left = some child
  let h := if onLeft then h.setLeft child (some parent) else h.setRight child (some parent)
  let sibling := if onLeft then (h.nodes child).right else (h.nodes child).left
  let h := h.setParentOf sibling child
  let h := h.setParentOf (h.nodes parent).left parent
  let h := h.setParentOf (h.nodes parent).right parent
  h.relink (h.nodes child).parent parent child

/-- One more than the largest `unsigned int`. -/
def uintMax : ℕ := 4294967296

/-- The bits that lead from the root to position `n`, the first step lowest, and their number; an `n` is
    halved fewer times than it is large. -/
def pathLoop : ℕ → ℕ → ℕ → ℕ → ℕ × ℕ
  | 0, _, path, k => (path,k)
  | fuel+1, n, path, k => if 2 ≤ n then pathLoop fuel (n/2) ((2*path + n%2) % uintMax) (k+1) else (path,k)

def pathTo (n : ℕ) : ℕ × ℕ := pathLoop n n 0 0

/-- Following the path down from two slots, the second inside the node that the first points to. -/
def descend : ℕ → ℕ → Slot N → Slot N → Program (HeapState N) (Slot N × Slot N)
  | 0, _, parent, child => pure (parent,child)
  | k+1, path, _, child => do
    match (← get).read child with
    | none => abort
    | some a => descend k (path/2) child (if path % 2 = 1 then .right a else .left a)

/-- Walking up while the node is before its parent. -/
def siftUp (lessThan : N → N → Bool) (fuel : ℕ) (node : N) : Program (HeapState N) Unit :=
  loop (fun _ => do
    match ((← get).nodes node).parent with
    | none => pure (.inr ())
    | some parent =>
      if lessThan node parent then
        change (heapNodeSwap · parent node)
        pure (.inl ())
      else pure (.inr ())) fuel ()

/-- `if (x != NULL && less_than(x, smallest)) smallest = x`. -/
def smallerOf (lessThan : N → N → Bool) (x : Option N) (smallest : N) : N :=
  match x with
  | none => smallest
  | some x => if lessThan x smallest then x else smallest

/-- Walking down while a child is before the node. -/
def siftDown (lessThan : N → N → Bool) (fuel : ℕ) (child : N) : Program (HeapState N) Unit :=
  loop (fun _ => do
    let node := (← get).nodes child
    let smallest := smallerOf lessThan node.right (smallerOf lessThan node.left child)
    if smallest = child then pure (.inr ())
    else
      change (heapNodeSwap · child smallest)
      pure (.inl ())) fuel ()

def heapInsert (lessThan : N → N → Bool) (fuel : ℕ) (newnode : N) : Program (HeapState N) Unit := do
  change (·.setNode newnode ⟨none,none,none⟩)
  let (path,k) := pathTo ((1 + (← get).nelts) % uintMax)
  let (parent,child) ← descend k path .min .min
  change fun h => h.setParent newnode (h.read parent)
  change (·.write child (some newnode))
  change fun h => { h with nelts := (h.nelts+1) % uintMax }
  siftUp lessThan fuel newnode

/-- The links of `node` become those of `child`, and every pointer to the one leads to the other. -/
def takePlace (h : HeapState N) (node child : N) : HeapState N :=
  let h := h.setLeft child (h.nodes node).left
  let h := h.setRight child (h.nodes node).right
  let h := h.setParent child (h.nodes node).parent
  let h := h.setParentOf (h.nodes child).left child
  let h := h.setParentOf (h.nodes child).right child
  h.relink (h.nodes node).parent node child

def heapRemove (lessThan : N → N → Bool) (fuel : ℕ) (node : Option N) : Program (HeapState N) Unit := do
  if (← get).nelts = 0 then pure ()
  else
    let (path,k) := pathTo (← get).nelts
    -- the walk to the last node needs the second slot only
    let (_,max) ← descend k path .min .min
    change fun h => { h with nelts := h.nelts-1 }
    let child := (← get).read max
    change (·.write max none)
    if child = node then
      if child = (← get).min then change fun h => { h with min := none }
      else pure ()
    else
      match child,node with
      | some child,some node =>
        change (takePlace · node child)
        siftDown lessThan fuel child
        siftUp lessThan fuel child
      | _,_ => abort

def heapDequeue (lessThan : N → N → Bool) (fuel : ℕ) : Program (HeapState N) Unit := do
  heapRemove lessThan fuel (← get).min

variable {h : HeapState N} {p c : N}

/-- What keeps the writes of an exchange apart: a parent, its child and their neighbours are different nodes. -/
structure Family (h : HeapState N) (p c : N) : Prop where
  apart : p ≠ c
  above : (h.nodes p).parent ≠ some p ∧ (h.nodes p).parent ≠ some c
  below : (h.nodes c).left ≠ some c ∧ (h.nodes c).right ≠ some c
  once : (h.nodes p).left = some c → (h.nodes p).right ≠ some c

theorem heapNodeSwap_left (family : Family h p c) (y : N) :
    ((heapNodeSwap h p c).nodes y).left =
      if y = p then (h.nodes c).left
      else if y = c then (if (h.nodes p).left = some c then some p else (h.nodes p).left)
      else if (h.nodes p).parent = some y ∧ (h.nodes y).left = some p then some c else (h.nodes y).left := by
  obtain ⟨apart,above,below,once⟩ := family
  by_cases onLeft : (h.nodes p).left = some c
  · simp [heapNodeSwap,onLeft,apart,Ne.symm apart,below,once]
    grind
  · simp [heapNodeSwap,onLeft,apart,Ne.symm apart,below]
    grind

theorem heapNodeSwap_right (family : Family h p c) (y : N) :
    ((heapNodeSwap h p c).nodes y).right =
      if y = p then (h.nodes c).right
      else if y = c then (if (h.nodes p).left = some c then (h.nodes p).right else some p)
      else if (h.nodes p).parent = some y ∧ (h.nodes y).left ≠ some p then some c else (h.nodes y).right := by
  obtain ⟨apart,above,below,once⟩ := family
  by_cases onLeft : (h.nodes p).left = some c
  · simp [heapNodeSwap,onLeft,apart,Ne.symm apart,below,once]
    grind
  · simp [heapNodeSwap,onLeft,apart,Ne.symm apart,below]
    grind

theorem heapNodeSwap_parent (family : Family h p c) (y : N) :
    ((heapNodeSwap h p c).nodes y).parent =
      if (h.nodes c).right = some y ∨ (h.nodes c).left = some y then some p
      else if y = p ∨ (if (h.nodes p).left = some c then (h.nodes p).right else (h.nodes p).left) = some y then some c
      else if y = c then (h.nodes p).parent else (h.nodes y).parent := by
  obtain ⟨apart,above,below,once⟩ := family
  by_cases onLeft : (h.nodes p).left = some c
  · simp [heapNodeSwap,onLeft,apart,Ne.symm apart,below,once]
    grind
  · simp [heapNodeSwap,onLeft,apart,Ne.symm apart,below]
    grind

theorem heapNodeSwap_min (family : Family h p c) :
    (heapNodeSwap h p c).min = if (h.nodes p).parent = none then some c else h.min := by
  obtain ⟨apart,above,below,once⟩ := family
  by_cases onLeft : (h.nodes p).left = some c
  · simp [heapNodeSwap,onLeft,apart,Ne.symm apart,below,once]
  · simp [heapNodeSwap,onLeft,apart,Ne.symm apart,below]

theorem heapNodeSwap_nelts (h : HeapState N) (p c : N) : (heapNodeSwap h p c).nelts = h.nelts := by
  unfold heapNodeSwap
  by_cases onLeft : (h.nodes p).left = some c
  · simp [onLeft]
  · simp [onLeft]

end Armd.BinaryHeap
