import Armd.Runs
import Mathlib.Logic.Function.Basic
import Mathlib.Data.List.Basic
import Mathlib.Algebra.BigOperators.Ring.List
import Mathlib.Algebra.Order.BigOperators.Group.List
import Mathlib.Algebra.Order.Group.Nat
import Mathlib.Algebra.Ring.Nat
import Mathlib.Data.Nat.Cast.Basic

/-!
Bounded queues in a circular array. The abstract queue is a list with a
capacity whose steps are recorded as events (`FifoStep`); what it accepted is
what was taken out followed by what is still inside (`fifo_conserves`), and it
has a weight that falls when an element is replaced by elements of lower rank
(`weight_replace`). The array keeps the occupied cells from `tail` up to `head`,
both taken modulo its size (`contents`), and one cell stays free: writing at
`head` appends and reading at `tail` removes the first element
(`contents_push`, `contents_pop`).
-/
namespace Armd.BoundedQueue
open Armd.Runs
universe u
variable {α : Type u}

/-! ### The abstract queue -/

/-- An offer with its outcome, or the removal of an element. -/
inductive FifoEvent (α : Type u)
  | offer (x : α) (ok : Bool)
  | take (x : α)

inductive FifoStep (cap : ℕ) : List α → FifoEvent α → List α → Prop
  | accept {q : List α} {x : α} : q.length < cap → FifoStep cap q (.offer x true) (q ++ [x])
  | reject {q : List α} {x : α} : cap ≤ q.length → FifoStep cap q (.offer x false) q
  | take {q : List α} {x : α} : FifoStep cap (x :: q) (.take x) q

def accepted : List (FifoEvent α) → List α :=
  List.filterMap (fun | .offer x true => some x | _ => none)
def taken : List (FifoEvent α) → List α :=
  List.filterMap (fun | .take x => some x | _ => none)

@[simp] theorem accepted_append (es fs : List (FifoEvent α)) : accepted (es ++ fs) = accepted es ++ accepted fs :=
  List.filterMap_append
@[simp] theorem taken_append (es fs : List (FifoEvent α)) : taken (es ++ fs) = taken es ++ taken fs :=
  List.filterMap_append
@[simp] theorem accepted_offer (x : α) (ok : Bool) :
    accepted [FifoEvent.offer x ok] = if ok then [x] else [] := by cases ok <;> rfl
@[simp] theorem accepted_take (x : α) : accepted [FifoEvent.take x] = [] := rfl
@[simp] theorem taken_offer (x : α) (ok : Bool) : taken [FifoEvent.offer x ok] = [] := by cases ok <;> rfl
@[simp] theorem taken_take (x : α) : taken [FifoEvent.take x] = [x] := rfl

/-- Nothing accepted is lost, duplicated, reordered or altered. -/
theorem fifo_conserves {cap : ℕ} {es : List (FifoEvent α)} {q : List α} (run : Run (FifoStep cap) [] es q) :
    accepted es = taken es ++ q := by
  induction run with
  | nil => rfl
  | snoc _ fires ih => cases fires <;> simp [ih]

/-- A weight for queues of less than `cap` elements: an element outweighs a queue of elements of lower rank. -/
def weight (cap : ℕ) (rank : α → ℕ) (q : List α) : ℕ := (q.map fun x => cap^rank x).sum

/-- Replacing the first element by elements of lower rank at the end makes the queue lighter. -/
theorem weight_replace {cap : ℕ} {rank : α → ℕ} {x : α} {rest added : List α} (lower : ∀ y ∈ added, rank y < rank x)
    (fits : added.length < cap) : weight cap rank (rest ++ added) < weight cap rank (x :: rest) := by
  have each : ∀ v ∈ added.map (fun y => cap^rank y * cap), v ≤ cap^rank x := by
    rintro v member
    obtain ⟨y,inside,rfl⟩ := List.mem_map.mp member
    rw [← pow_succ]
    exact Nat.pow_le_pow_right (by omega) (lower y inside)
  have total := List.sum_le_card_nsmul _ _ each
  rw [List.length_map,nsmul_eq_mul,Nat.cast_id] at total
  have bound : weight cap rank added * cap < cap^rank x * cap := by
    calc weight cap rank added * cap = (added.map fun y => cap^rank y * cap).sum := by rw [weight,List.sum_map_mul_right]
      _ ≤ added.length * cap^rank x := total
      _ < cap * cap^rank x := Nat.mul_lt_mul_of_pos_right fits (Nat.pow_pos (by omega))
      _ = cap^rank x * cap := Nat.mul_comm _ _
  have lighter : weight cap rank added < cap^rank x := Nat.lt_of_mul_lt_mul_right bound
  simp only [weight,List.map_append,List.sum_append,List.map_cons,List.sum_cons] at lighter ⊢
  omega

/-! ### The circular array -/

/-- The number of occupied cells. -/
def size (cap head tail : ℕ) : ℕ := (head + cap - tail) % cap

/-- The elements in the occupied cells, oldest first. -/
def contents (cap : ℕ) (cells : ℕ → α) (head tail : ℕ) : List α :=
  (List.range (size cap head tail)).map (fun i => cells ((tail+i) % cap))

variable {cap head tail : ℕ}

theorem succ_mod {i : ℕ} (inside : i < cap) : (i+1) % cap = if i+1 = cap then 0 else i+1 := by
  split
  · rename_i wraps; rw [wraps,Nat.mod_self]
  · exact Nat.mod_eq_of_lt (by omega)

theorem size_eq (headIn : head < cap) (tailIn : tail < cap) :
    size cap head tail = if tail ≤ head then head-tail else head+cap-tail := by
  unfold size
  split
  · rw [show head+cap-tail = (head-tail)+cap by omega,Nat.add_mod_right,Nat.mod_eq_of_lt (by omega)]
  · exact Nat.mod_eq_of_lt (by omega)

theorem cell_eq {i : ℕ} (tailIn : tail < cap) (offset : i < cap) :
    (tail+i) % cap = if tail+i < cap then tail+i else tail+i-cap := by
  split
  · exact Nat.mod_eq_of_lt ‹_›
  · rw [Nat.mod_eq_sub_mod (by omega),Nat.mod_eq_of_lt (by omega)]

theorem size_lt (headIn : head < cap) : size cap head tail < cap := Nat.mod_lt _ (by omega)

theorem size_zero_iff (headIn : head < cap) (tailIn : tail < cap) : size cap head tail = 0 ↔ tail = head := by
  rw [size_eq headIn tailIn]
  split <;> omega

/-- Advancing `head` onto `tail` would fill the last cell. -/
theorem full_iff (headIn : head < cap) (tailIn : tail < cap) :
    (head+1) % cap = tail ↔ size cap head tail = cap-1 := by
  rw [size_eq headIn tailIn,succ_mod headIn]
  split <;> split <;> omega

theorem size_push (headIn : head < cap) (tailIn : tail < cap) (room : (head+1) % cap ≠ tail) :
    size cap ((head+1) % cap) tail = size cap head tail+1 := by
  have nextIn : (head+1) % cap < cap := Nat.mod_lt _ (by omega)
  rw [size_eq nextIn tailIn,size_eq headIn tailIn]
  rw [succ_mod headIn] at room ⊢
  split at room <;> split_ifs <;> omega

theorem size_pop (headIn : head < cap) (tailIn : tail < cap) (some : tail ≠ head) :
    size cap head tail = size cap head ((tail+1) % cap)+1 := by
  have nextIn : (tail+1) % cap < cap := Nat.mod_lt _ (by omega)
  rw [size_eq headIn nextIn,size_eq headIn tailIn,succ_mod tailIn]
  split_ifs <;> omega

@[simp] theorem contents_length (cells : ℕ → α) : (contents cap cells head tail).length = size cap head tail := by
  simp [contents]

theorem contents_nil_iff (cells : ℕ → α) (headIn : head < cap) (tailIn : tail < cap) :
    contents cap cells head tail = [] ↔ tail = head := by
  rw [← List.length_eq_zero_iff,contents_length,size_zero_iff headIn tailIn]

/-- No occupied cell is the one at `head`. -/
theorem cell_ne_head (headIn : head < cap) (tailIn : tail < cap) {i : ℕ} (occupied : i < size cap head tail) :
    (tail+i) % cap ≠ head := by
  have inside : size cap head tail < cap := size_lt headIn
  rw [cell_eq tailIn (by omega)]
  rw [size_eq headIn tailIn] at occupied
  split at occupied <;> split <;> omega

/-- The cell after the occupied ones is the one at `head`. -/
theorem cell_size (headIn : head < cap) (tailIn : tail < cap) : (tail+size cap head tail) % cap = head := by
  rw [cell_eq tailIn (size_lt headIn),size_eq headIn tailIn]
  split <;> split <;> omega

theorem contents_push (cells : ℕ → α) (x : α) (headIn : head < cap) (tailIn : tail < cap)
    (room : (head+1) % cap ≠ tail) :
    contents cap (Function.update cells head x) ((head+1) % cap) tail = contents cap cells head tail ++ [x] := by
  unfold contents
  rw [size_push headIn tailIn room,List.range_succ,List.map_append]
  congr 1
  · apply List.map_congr_left
    intro i member
    exact Function.update_of_ne (cell_ne_head headIn tailIn (List.mem_range.mp member)) _ _
  · simp [cell_size headIn tailIn]

theorem contents_pop (cells : ℕ → α) (headIn : head < cap) (tailIn : tail < cap) (some : tail ≠ head) :
    contents cap cells head tail = cells tail :: contents cap cells head ((tail+1) % cap) := by
  unfold contents
  rw [size_pop headIn tailIn some,List.range_succ_eq_map,List.map_cons,List.map_map]
  congr 1
  · rw [Nat.add_zero,Nat.mod_eq_of_lt tailIn]
  · apply List.map_congr_left
    intro i _
    simp only [Function.comp_apply,Nat.succ_eq_add_one,Nat.mod_add_mod]
    congr 2
    omega

end Armd.BoundedQueue
