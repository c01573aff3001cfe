import Mathlib.Tactic.Common

/-!
An atomic location with its modification order. A relaxed read may see an older
value than the one the location holds, but none from before what the reader has
been told of by synchronisation (`CanRead`). A value that was not written since
then is seen only if the location holds it (`now_of_canRead`).
-/
namespace Armd.Location
universe u

/-- The value of a location, and those it held before, oldest first. -/
structure Atomic (α : Type u) where
  older : List α
  now : α

variable {α : Type u}

namespace Atomic

/-- A store, or the writing half of an exchange. -/
def write (l : Atomic α) (v : α) : Atomic α := ⟨l.older ++ [l.now],v⟩

/-- The place of the present value in the modification order. -/
def position (l : Atomic α) : ℕ := l.older.length

/-- What a read may see whose thread knows of the writes before `seen`. -/
def CanRead (l : Atomic α) (seen : ℕ) (v : α) : Prop := l.now = v ∨ ∃ i, seen ≤ i ∧ l.older[i]? = some v

/-- No value from place `n` on, the present one apart, is `v`. -/
def NotSince (l : Atomic α) (n : ℕ) (v : α) : Prop := ∀ i, n ≤ i → l.older[i]? ≠ some v

@[simp] theorem write_now (l : Atomic α) (v : α) : (l.write v).now = v := rfl
@[simp] theorem write_position (l : Atomic α) (v : α) : (l.write v).position = l.position+1 := by
  simp [write,position]

theorem notSince_position (l : Atomic α) (v : α) : l.NotSince l.position v := by
  intro i late
  rw [List.getElem?_eq_none late]
  exact nofun

/-- Overwriting another value writes no `v` into the past. -/
theorem NotSince.write {l : Atomic α} {n : ℕ} {v : α} (none : l.NotSince n v) (other : l.now ≠ v) (u : α) :
    (l.write u).NotSince n v := by
  intro i late
  by_cases before : i < l.older.length
  · have same : (l.write u).older[i]? = l.older[i]? := List.getElem?_append_left before
    rw [same]
    exact none i late
  · by_cases last : i = l.older.length
    · subst last
      simpa [Atomic.write] using other
    · have past : (l.write u).older.length ≤ i := by
        simp only [Atomic.write,List.length_append,List.length_singleton]
        omega
      rw [List.getElem?_eq_none past]
      exact nofun

/-- A reader that knows of all writes before place `n` sees a value that was not there since only when it is there now. -/
theorem now_of_canRead {l : Atomic α} {n seen : ℕ} {v : α} (read : l.CanRead seen v) (none : l.NotSince n v)
    (known : n ≤ seen) : l.now = v := by
  rcases read with now | ⟨i,late,old⟩
  · exact now
  · exact absurd old (none i (Nat.le_trans known late))

end Atomic

end Armd.Location
