import Mathlib

/-!
# UdfRead.Lib.Simulation

Runs of a labelled step relation. An invariant of the steps is one of the runs (`Run.invariant`),
and a simulation of the steps of one system by the steps of another with the same labels carries
over to their runs (`Run.simulates`).
-/

namespace CModel

variable {S A E : Type} {step : S → E → S → Prop} {abstractStep : A → E → A → Prop}

/-- A finite run, with the labels of its steps. -/
inductive Run (step : S → E → S → Prop) : S → List E → S → Prop where
  | nil (s : S) : Run step s [] s
  | cons {s s' s'' : S} {e : E} {es : List E} :
      step s e s' → Run step s' es s'' → Run step s (e :: es) s''

namespace Run

variable {s s' s'' : S} {e : E} {es : List E} {a : A}

theorem invariant {P : S → Prop} (hstep : ∀ s e s', P s → step s e s' → P s')
    (h : Run step s es s') (hs : P s) : P s' := by
  induction h with
  | nil s => exact hs
  | cons hse _ ih => exact ih (hstep _ _ _ hs hse)

theorem append {es' : List E} (h : Run step s es s') (h' : Run step s' es' s'') :
    Run step s (es ++ es') s'' := by
  induction h with
  | nil s => exact h'
  | cons hse _ ih => exact .cons hse (ih h')

theorem split {es' : List E} (h : Run step s (es ++ es') s'') :
    ∃ s', Run step s es s' ∧ Run step s' es' s'' := by
  induction es generalizing s with
  | nil => exact ⟨s, .nil s, h⟩
  | cons e es ih =>
    cases h with
    | cons hse hrest =>
      obtain ⟨s', h₁, h₂⟩ := ih hrest
      exact ⟨s', .cons hse h₁, h₂⟩

/-- Forward simulation: the abstract system has a run with the same labels. -/
theorem simulates {R : S → A → Prop}
    (hstep : ∀ s a e s', R s a → step s e s' → ∃ a', abstractStep a e a' ∧ R s' a')
    (h : Run step s es s') (hs : R s a) : ∃ a', Run abstractStep a es a' ∧ R s' a' := by
  induction h generalizing a with
  | nil s => exact ⟨a, .nil a, hs⟩
  | cons hse _ ih =>
    obtain ⟨a', ha, hR⟩ := hstep _ _ _ _ hs hse
    obtain ⟨a'', hrun, hR'⟩ := ih hR
    exact ⟨a'', .cons ha hrun, hR'⟩

end Run

end CModel
