import Mathlib.Tactic.Common

/-!
Programs over a mutable world that may abort, and loops with fuel. A run ends
with a value, by aborting in some world, or for lack of fuel (`Outcome`). What
each step leaves alone a run leaves alone (`Preserves`), and a run goes along a
preorder when each step does (`Respects`). An invariant with a variant makes a
loop end (`loop_ends`, `loop_variant`), and an invariant under which the body
always goes on makes it run forever (`loop_forever`).
-/
namespace Armd.Programs

/-- How a run ends. -/
inductive Outcome (W A : Type)
  | done (value : A) (world : W)
  | abort (world : W)
  | exhausted

def Program (W A : Type) := W → Outcome W A

variable {W A B : Type}

namespace Outcome

def andThen (o : Outcome W A) (f : A → Program W B) : Outcome W B :=
  match o with
  | done a w => f a w
  | abort w => abort w
  | exhausted => exhausted

@[simp] theorem andThen_done (a : A) (w : W) (f : A → Program W B) : (done a w).andThen f = f a w := rfl
@[simp] theorem andThen_abort (w : W) (f : A → Program W B) : (abort w : Outcome W A).andThen f = abort w := rfl
@[simp] theorem andThen_exhausted (f : A → Program W B) : (exhausted : Outcome W A).andThen f = exhausted := rfl

theorem andThen_eq_done {o : Outcome W A} {f : A → Program W B} {b : B} {w : W} :
    o.andThen f = done b w ↔ ∃ a w', o = done a w' ∧ f a w' = done b w := by
  cases o <;> simp [andThen]

end Outcome

instance : Monad (Program W) where
  pure a := fun w => .done a w
  bind p f := fun w => (p w).andThen f

instance : LawfulMonad (Program W) := LawfulMonad.mk' (Program W)
  (fun p => funext fun w => show (p w).andThen _ = p w by cases p w <;> rfl)
  (fun _ _ => rfl)
  (fun p f g => funext fun w => show ((p w).andThen f).andThen g = (p w).andThen _ by cases p w <;> rfl)

namespace Program

@[simp] theorem pure_run (a : A) (w : W) : (pure a : Program W A) w = .done a w := rfl
@[simp] theorem bind_run (p : Program W A) (f : A → Program W B) (w : W) : (p >>= f) w = (p w).andThen f := rfl
@[simp] theorem map_run (f : A → B) (p : Program W A) (w : W) :
    (f <$> p) w = (p w).andThen (fun a => pure (f a)) := rfl
@[simp] theorem ite_run (c : Prop) [Decidable c] (p q : Program W A) (w : W) :
    (if c then p else q) w = if c then p w else q w := by split <;> rfl

def get : Program W W := fun w => .done w w
def change (f : W → W) : Program W Unit := fun w => .done () (f w)
def abort : Program W A := fun w => .abort w

@[simp] theorem get_run (w : W) : (get : Program W W) w = .done w w := rfl
@[simp] theorem change_run (f : W → W) (w : W) : change f w = .done () (f w) := rfl
@[simp] theorem abort_run (w : W) : (abort : Program W A) w = .abort w := rfl

/-- A run that ends with a value leads to a related world. -/
def Respects (R : W → W → Prop) (p : Program W A) : Prop := ∀ w a w', p w = .done a w' → R w w'

section
variable {R : W → W → Prop}

theorem respects_pure (refl : ∀ w, R w w) (a : A) : Respects R (pure a : Program W A) := by
  intro w b w' run; cases run; exact refl w

theorem respects_get (refl : ∀ w, R w w) : Respects R (get : Program W W) := by
  intro w b w' run; cases run; exact refl w

theorem respects_abort : Respects R (abort : Program W A) := by
  intro w b w' run; cases run

theorem respects_change {f : W → W} (moves : ∀ w, R w (f w)) : Respects R (change f) := by
  intro w b w' run; cases run; exact moves w

theorem respects_bind (trans : ∀ u v w, R u v → R v w → R u w) {p : Program W A} {f : A → Program W B}
    (first : Respects R p) (second : ∀ a, Respects R (f a)) : Respects R (p >>= f) := by
  intro w b w' run
  obtain ⟨a,v,ran,rest⟩ := Outcome.andThen_eq_done.mp run
  exact trans w v w' (first w a v ran) (second a v b w' rest)

theorem respects_ite {c : Prop} [Decidable c] {p q : Program W A} (left : Respects R p) (right : Respects R q) :
    Respects R (if c then p else q) := by
  split
  · exact left
  · exact right

end

/-- A run that ends with a value leaves a view of the world as it was. -/
def Preserves {X : Type} (view : W → X) (p : Program W A) : Prop := ∀ w a w', p w = .done a w' → view w' = view w

section
variable {X : Type} {view : W → X}

/-- To leave a view alone is to lead to a world with the same view. -/
theorem preserves_iff {p : Program W A} : Preserves view p ↔ Respects (fun w w' => view w' = view w) p := Iff.rfl

theorem preserves_pure (a : A) : Preserves view (pure a : Program W A) := by
  refine preserves_iff.mpr (respects_pure ?_ a)
  exact fun _ => rfl

theorem preserves_get : Preserves view (get : Program W W) := preserves_iff.mpr (respects_get fun _ => rfl)

theorem preserves_abort : Preserves view (abort : Program W A) := preserves_iff.mpr respects_abort

theorem preserves_change {f : W → W} (same : ∀ w, view (f w) = view w) : Preserves view (change f) :=
  preserves_iff.mpr (respects_change same)

theorem preserves_bind {p : Program W A} {f : A → Program W B} (first : Preserves view p)
    (second : ∀ a, Preserves view (f a)) : Preserves view (p >>= f) :=
  preserves_iff.mpr (respects_bind (fun _ _ _ before after => after.trans before) first second)

theorem preserves_ite {c : Prop} [Decidable c] {p q : Program W A} (left : Preserves view p)
    (right : Preserves view q) : Preserves view (if c then p else q) :=
  preserves_iff.mpr (respects_ite left right)

end

/-- `while`: the body goes on with `inl` and ends the loop with `inr`. -/
def loop (body : B → Program W (B ⊕ A)) : ℕ → B → Program W A
  | 0, _ => fun _ => .exhausted
  | n+1, b => do
    match ← body b with
    | .inl next => loop body n next
    | .inr a => pure a

theorem loop_next {body : B → Program W (B ⊕ A)} {b next : B} {w w' : W} (n : ℕ)
    (goesOn : body b w = .done (.inl next) w') : loop body (n+1) b w = loop body n next w' := by
  simp [loop,goesOn]

theorem loop_end {body : B → Program W (B ⊕ A)} {b : B} {a : A} {w w' : W} (n : ℕ)
    (ends : body b w = .done (.inr a) w') : loop body (n+1) b w = .done a w' := by
  simp [loop,ends]

theorem respects_loop {R : W → W → Prop} (refl : ∀ w, R w w) (trans : ∀ u v w, R u v → R v w → R u w)
    {body : B → Program W (B ⊕ A)} (each : ∀ b, Respects R (body b)) (n : ℕ) : ∀ b, Respects R (loop body n b) := by
  induction n with
  | zero => intro b w a w' run; cases run
  | succ n ih =>
    intro b
    refine respects_bind trans (each b) fun next => ?_
    cases next with
    | inl next => exact ih next
    | inr a => exact respects_pure refl a

theorem preserves_loop {X : Type} {view : W → X} {body : B → Program W (B ⊕ A)} (each : ∀ b, Preserves view (body b))
    (n : ℕ) (b : B) : Preserves view (loop body n b) := by
  refine preserves_iff.mpr (respects_loop ?_ ?_ each n b)
  · exact fun _ => rfl
  · exact fun _ _ _ before after => after.trans before

/-- A loop whose body keeps an invariant and lowers a variant comes to an end, be it an abort, and as the last
    round says. -/
theorem loop_ends {body : B → Program W (B ⊕ A)} (I : B → W → Prop) (variant : B → W → ℕ) (Q : Outcome W A → Prop)
    (round : ∀ b w, I b w →
      (∃ next w', body b w = .done (.inl next) w' ∧ I next w' ∧ variant next w' < variant b w) ∨
        (∃ a w', body b w = .done (.inr a) w' ∧ Q (.done a w')) ∨ ∃ w', body b w = .abort w' ∧ Q (.abort w')) :
    ∀ (n : ℕ) (b : B) (w : W), I b w → variant b w < n → Q (loop body n b w) := by
  intro n
  induction n with
  | zero => intro b w _ bound; omega
  | succ n ih =>
    intro b w inv bound
    rcases round b w inv with ⟨next,w',goesOn,inv',lower⟩ | ⟨a,w',ends,post⟩ | ⟨w',aborts,post⟩
    · rw [loop_next n goesOn]
      exact ih next w' inv' (by omega)
    · rw [loop_end n ends]
      exact post
    · simpa [loop,aborts] using post

/-- A loop whose body keeps an invariant and lowers a variant ends, and as the last round says. -/
theorem loop_variant {body : B → Program W (B ⊕ A)} (I : B → W → Prop) (variant : B → W → ℕ) (Q : A → W → Prop)
    (round : ∀ b w, I b w →
      (∃ next w', body b w = .done (.inl next) w' ∧ I next w' ∧ variant next w' < variant b w) ∨
        ∃ a w', body b w = .done (.inr a) w' ∧ Q a w')
    (n : ℕ) (b : B) (w : W) (inv : I b w) (bound : variant b w < n) : ∃ a w', loop body n b w = .done a w' ∧ Q a w' := by
  refine loop_ends I variant (fun o => ∃ a w', o = .done a w' ∧ Q a w') ?_ n b w inv bound
  intro b w inv
  rcases round b w inv with goesOn | ⟨a,w',ends,post⟩
  · exact .inl goesOn
  · exact .inr (.inl ⟨a,w',ends,a,w',rfl,post⟩)

/-- A loop whose body always goes on under an invariant ends with no fuel at all. -/
theorem loop_forever {body : B → Program W (B ⊕ A)} (I : B → W → Prop)
    (round : ∀ b w, I b w → ∃ next w', body b w = .done (.inl next) w' ∧ I next w') :
    ∀ (n : ℕ) (b : B) (w : W), I b w → loop body n b w = .exhausted := by
  intro n
  induction n with
  | zero => intro b w _; rfl
  | succ n ih =>
    intro b w inv
    obtain ⟨next,w',goesOn,inv'⟩ := round b w inv
    rw [loop_next n goesOn]
    exact ih next w' inv'

/-- The run ends in a world as soon as there is enough fuel. -/
def Settles (p : ℕ → Program W Unit) (w w' : W) : Prop := ∃ n, ∀ fuel, n ≤ fuel → p fuel w = .done () w'

theorem settles_unique {p : ℕ → Program W Unit} {w w₁ w₂ : W} (first : Settles p w w₁) (second : Settles p w w₂) :
    w₁ = w₂ := by
  obtain ⟨n,ends₁⟩ := first
  obtain ⟨m,ends₂⟩ := second
  have both := (ends₁ (max n m) (Nat.le_max_left n m)).symm.trans (ends₂ (max n m) (Nat.le_max_right n m))
  exact (Outcome.done.inj both).2

end Program

end Armd.Programs
