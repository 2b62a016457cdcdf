import Mathlib.Tactic

/-!
# Runs of a deterministic system

A system has states, inputs and a step for each input.  `Steps step P s s'` says
that some finite sequence of inputs leads from `s` to `s'`, where every input
meets `P` in the state it is taken in.  `Steps.invariant` is the induction over
such a run.
-/

variable {σ α : Type*}

/-- Runs whose inputs all meet `P`. -/
inductive Steps (step : σ → α → σ) (P : σ → α → Prop) (s : σ) : σ → Prop where
  | refl : Steps step P s s
  | tail {s' : σ} (a : α) : Steps step P s s' → P s' a → Steps step P s (step s' a)

namespace Steps

variable {step : σ → α → σ} {P Q : σ → α → Prop} {s s' s'' : σ} {I : σ → Prop}

/-- What one step keeps, a run keeps. -/
theorem invariant (h : Steps step P s s') (hstep : ∀ t a, I t → P t a → I (step t a))
    (hs : I s) : I s' := by
  induction h with
  | refl => exact hs
  | tail a _ hP ih => exact hstep _ a ih hP

/-- A run stays a run under a weaker condition. -/
theorem mono (h : Steps step P s s') (hPQ : ∀ t a, P t a → Q t a) : Steps step Q s s' := by
  induction h with
  | refl => exact .refl
  | tail a _ hP ih => exact .tail a ih (hPQ _ a hP)

/-- A run goes on from where it has come to. -/
theorem trans (h : Steps step P s s') (h' : Steps step P s' s'') : Steps step P s s'' := by
  induction h' with
  | refl => exact h
  | tail a _ hP ih => exact .tail a ih hP

/-- Every input of a list meets `P` in the state it is taken in. -/
def Allowed (step : σ → α → σ) (P : σ → α → Prop) : List α → σ → Prop
  | [], _ => True
  | a :: as, s => P s a ∧ Allowed step P as (step s a)

instance Allowed.decidable [∀ s a, Decidable (P s a)] :
    ∀ (as : List α) (s : σ), Decidable (Allowed step P as s)
  | [], _ => inferInstanceAs (Decidable True)
  | a :: as, s =>
      have := Allowed.decidable as (step s a)
      inferInstanceAs (Decidable (P s a ∧ Allowed step P as (step s a)))

/-- An allowed list of inputs is a run. -/
theorem ofAllowed (as : List α) (s : σ) (h : Allowed step P as s) :
    Steps step P s (as.foldl step s) := by
  induction as generalizing s with
  | nil => exact .refl
  | cons a as ih => exact (Steps.tail a .refl h.1).trans (ih (step s a) h.2)

end Steps
