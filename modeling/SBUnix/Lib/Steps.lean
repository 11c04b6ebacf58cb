import Mathlib

/-
  Runs of a labelled transition system.

  `Run step s as s'` performs the actions `as` in order. A predicate that every step preserves
  holds at the end of a run (`Run.invariant`); a reflexive and transitive relation that holds
  across every step holds across the run (`Run.relation`). Both may use an invariant of the
  states, so the invariant is proved once and the rest of the facts follow step by step. A system
  that is a function of its actions simulates a run step by step (`Run.simulation`).
-/

namespace Steps

variable {S A : Type*} {step : S → A → S → Prop}

/-- `as` leads from `s` to `s'`. -/
inductive Run (step : S → A → S → Prop) : S → List A → S → Prop
  | nil (s : S) : Run step s [] s
  | cons {s s₁ s' : S} {a : A} {as : List A} :
      step s a s₁ → Run step s₁ as s' → Run step s (a :: as) s'

theorem Run.single {s s' : S} {a : A} (h : step s a s') : Run step s [a] s' :=
  .cons h (.nil s')

theorem Run.append {s s₁ s' : S} {as bs : List A} (h : Run step s as s₁)
    (h' : Run step s₁ bs s') : Run step s (as ++ bs) s' := by
  induction h with
  | nil s => exact h'
  | cons hstep _ ih => exact .cons hstep (ih h')

/-- A predicate kept by every step is kept by a run. -/
theorem Run.invariant {I : S → Prop} (hstep : ∀ s a s', I s → step s a s' → I s') {s s' : S}
    {as : List A} (h : Run step s as s') (h₀ : I s) : I s' := by
  induction h with
  | nil s => exact h₀
  | cons ha _ ih => exact ih (hstep _ _ _ h₀ ha)

/-- A relation that composes, and holds across every step from a good state, holds across a run
    from a good state. -/
theorem Run.relation {I : S → Prop} {R : S → S → Prop}
    (hstep : ∀ s a s', I s → step s a s' → I s' ∧ R s s') (hrefl : ∀ s, R s s)
    (htrans : ∀ s₁ s₂ s₃, R s₁ s₂ → R s₂ s₃ → R s₁ s₃) {s s' : S} {as : List A}
    (h : Run step s as s') (h₀ : I s) : I s' ∧ R s s' := by
  induction h with
  | nil s => exact ⟨h₀, hrefl s⟩
  | cons ha _ ih =>
    obtain ⟨h₁, hr⟩ := hstep _ _ _ h₀ ha
    obtain ⟨h₂, hr'⟩ := ih h₁
    exact ⟨h₂, htrans _ _ _ hr hr'⟩

/-- Forward simulation by a system that is a function: what relates the states across every step
    relates them at the end of a run. -/
theorem Run.simulation {T : Type*} {f : T → A → T} {R : S → T → Prop}
    (hstep : ∀ s a s' t, R s t → step s a s' → R s' (f t a)) {s s' : S} {t : T} {as : List A}
    (h : Run step s as s') (h₀ : R s t) : R s' (as.foldl f t) := by
  induction h generalizing t with
  | nil s => exact h₀
  | cons ha _ ih => exact ih (hstep _ _ _ _ h₀ ha)

end Steps
