import Mathlib.Tactic.Common

/-!
Labelled runs of a transition relation. A run lists the labels of its steps in
order (`Run`); what holds at its start and is kept by every step holds at its
end (`Run.invariant`), a deterministic relation has one run for each list
(`Run.unique`), and a run whose steps all meet a condition is a run of the
restricted relation (`When`). A list may also be judged element by element,
each in view of those before it (`Along`), or searched for a mark that nothing
after it has ended (`Since`).
-/
namespace Armd.Runs
universe u v
variable {S : Type u} {A : Type v}

/-- The runs from `s`: the labels of the steps and the state they lead to. -/
inductive Run (step : S → A → S → Prop) (s : S) : List A → S → Prop
  | nil : Run step s [] s
  | snoc {as : List A} {a : A} {t t' : S} : Run step s as t → step t a t' → Run step s (as ++ [a]) t'

/-- The transitions that meet a condition on the state before the step and the label. -/
def When (step : S → A → S → Prop) (condition : S → A → Prop) (s : S) (a : A) (t : S) : Prop :=
  step s a t ∧ condition s a

variable {step : S → A → S → Prop} {s t u : S} {as bs : List A}

theorem Run.invariant (I : S → Prop) (start : I s) (keep : ∀ t a t', I t → step t a t' → I t')
    (run : Run step s as t) : I t := by
  induction run with
  | nil => exact start
  | snoc _ fires ih => exact keep _ _ _ ih fires

theorem Run.single {a : A} (fires : step s a t) : Run step s [a] t :=
  show Run step s ([] ++ [a]) t from .snoc .nil fires

theorem Run.trans (first : Run step s as t) (second : Run step t bs u) : Run step s (as ++ bs) u := by
  induction second with
  | nil => simpa using first
  | snoc _ fires ih => rw [← List.append_assoc]; exact .snoc ih fires

theorem Run.mono {step' : S → A → S → Prop} (weaker : ∀ s a t, step s a t → step' s a t)
    (run : Run step s as t) : Run step' s as t := by
  induction run with
  | nil => exact .nil
  | snoc _ fires ih => exact .snoc ih (weaker _ _ _ fires)

theorem Run.of_when {condition : S → A → Prop} (run : Run (When step condition) s as t) : Run step s as t :=
  run.mono (fun _ _ _ both => both.1)

theorem Run.when {condition : A → Prop} (run : Run step s as t) (all : ∀ a ∈ as, condition a) :
    Run (When step fun _ a => condition a) s as t := by
  induction run with
  | nil => exact .nil
  | snoc _ fires ih => exact .snoc (ih fun a inside => all a (List.mem_append_left _ inside)) ⟨fires,all _ (by simp)⟩

theorem run_snoc_iff {a : A} : Run step s (as ++ [a]) u ↔ ∃ t, Run step s as t ∧ step t a u := by
  constructor
  · intro run
    generalize labels : as ++ [a] = cs at run
    cases run with
    | nil => simp at labels
    | snoc before fires =>
      obtain ⟨rfl,same⟩ := List.append_inj' labels rfl
      cases same
      exact ⟨_,before,fires⟩
  · rintro ⟨t,before,fires⟩
    exact .snoc before fires

/-- A run along which a number falls is no longer than that number. -/
theorem Run.length_le (work : S → ℕ) (I : S → Prop) (start : I s) (keep : ∀ t a t', I t → step t a t' → I t')
    (less : ∀ t a t', I t → step t a t' → work t' < work t) (run : Run step s as t) : as.length + work t ≤ work s := by
  induction run with
  | nil => simp
  | snoc before fires ih =>
    have falls := less _ _ _ (before.invariant I start keep) fires
    rw [List.length_append,List.length_singleton]
    omega

/-- Every element of a list fits the elements before it. -/
def Along (fits : List A → A → Prop) (as : List A) : Prop := ∀ before a, before ++ [a] <+: as → fits before a

theorem along_nil (fits : List A → A → Prop) : Along fits [] := by
  intro before a prefixed
  simp at prefixed

theorem along_snoc {fits : List A → A → Prop} {a : A} : Along fits (as ++ [a]) ↔ Along fits as ∧ fits as a := by
  constructor
  · intro all
    exact ⟨fun before b prefixed => all before b (prefixed.trans (List.prefix_append _ _)),
      all as a (List.prefix_refl _)⟩
  · rintro ⟨before,last⟩ pre b prefixed
    rcases List.prefix_concat_iff.mp (by simpa using prefixed) with whole | shorter
    · obtain ⟨rfl,same⟩ := List.append_inj' whole rfl
      cases same
      exact last
    · exact before pre b shorter

theorem Along.earlier {fits : List A → A → Prop} (all : Along fits bs) (prefixed : as <+: bs) : Along fits as :=
  fun before a inside => all before a (inside.trans prefixed)

/-- A deterministic relation has one run for each list of labels. -/
theorem Run.unique (deterministic : ∀ s a t t', step s a t → step s a t' → t = t') (first : Run step s as t)
    (second : Run step s as u) : t = u := by
  induction first generalizing u with
  | nil =>
    generalize labels : ([] : List A) = cs at second
    cases second with
    | nil => rfl
    | snoc => simp at labels
  | snoc _ fires ih =>
    obtain ⟨v,before,fires'⟩ := run_snoc_iff.mp second
    cases ih before
    exact deterministic _ _ _ _ fires fires'

/-- The mark stands in the list, and no element after it ends what it began. -/
def Since (mark : A) (ends : A → Prop) (as : List A) : Prop := ∃ before after, as = before ++ mark :: after ∧ ∀ a ∈ after, ¬ ends a

theorem since_nil (mark : A) (ends : A → Prop) : ¬ Since mark ends [] := by
  rintro ⟨before,after,split,_⟩
  simp at split

theorem since_snoc {mark : A} {ends : A → Prop} {a : A} :
    Since mark ends (as ++ [a]) ↔ a = mark ∨ (Since mark ends as ∧ ¬ ends a) := by
  constructor
  · rintro ⟨before,after,split,none⟩
    rcases List.eq_nil_or_concat after with rfl | ⟨after,b,rfl⟩
    · exact .inl (List.cons.inj (List.append_inj' split rfl).2).1
    · rw [List.concat_eq_append,← List.cons_append,← List.append_assoc] at split
      obtain ⟨rfl,same⟩ := List.append_inj' split rfl
      cases same
      exact .inr ⟨⟨before,after,rfl,fun c member => none c (by simp [member])⟩,none a (by simp)⟩
  · rintro (rfl | ⟨⟨before,after,rfl,none⟩,goesOn⟩)
    · exact ⟨as,[],rfl,by simp⟩
    · refine ⟨before,after ++ [a],by simp,fun c member => ?_⟩
      rcases List.mem_append.mp member with inside | last
      · exact none c inside
      · rw [List.mem_singleton.mp last]; exact goesOn

end Armd.Runs
