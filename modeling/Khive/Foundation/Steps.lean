import Mathlib

/-!
# Runs of a step function

A run applies one action after another to a state. `Sometime` says that some action of a run is
taken in a state that stands in a relation to it; what a run brings about or loses, one of its
actions does.
-/

namespace Khive

variable {σ α : Type*} {step : σ → α → σ} {s : σ} {as : List α} {P Q : σ → α → Prop}

/-- The state behind a run. -/
def runFrom (step : σ → α → σ) (s : σ) (as : List α) : σ := as.foldl step s

/-- Some action of the run is taken in a state related to it. -/
def Sometime (step : σ → α → σ) (P : σ → α → Prop) : σ → List α → Prop
  | _, [] => False
  | s, a :: as => P s a ∨ Sometime step P (step s a) as

theorem runFrom_append (step : σ → α → σ) (s : σ) (as bs : List α) :
    runFrom step s (as ++ bs) = runFrom step (runFrom step s as) bs := List.foldl_append

theorem runFrom_concat (step : σ → α → σ) (s : σ) (as : List α) (a : α) :
    runFrom step s (as ++ [a]) = step (runFrom step s as) a := runFrom_append step s as [a]

/-- What every step keeps, a run keeps. -/
theorem runFrom_invariant {I : σ → Prop} (hstep : ∀ s a, I s → I (step s a)) (h : I s)
    (as : List α) : I (runFrom step s as) := by
  induction as generalizing s with
  | nil => exact h
  | cons a as ih => exact ih (hstep s a h)

theorem sometime_append {bs : List α} :
    Sometime step P s (as ++ bs) ↔
      Sometime step P s as ∨ Sometime step P (runFrom step s as) bs := by
  induction as generalizing s with
  | nil => exact (or_iff_right id).symm
  | cons a as ih =>
    rw [List.cons_append, Sometime, Sometime, ih, or_assoc]
    rfl

theorem sometime_concat {a : α} :
    Sometime step P s (as ++ [a]) ↔ Sometime step P s as ∨ P (runFrom step s as) a := by
  rw [sometime_append, Sometime, Sometime, or_false]

/-- The action and the run in front of it. -/
theorem sometime_iff :
    Sometime step P s as ↔ ∃ before a after, as = before ++ a :: after ∧
      P (runFrom step s before) a := by
  constructor
  · intro h
    induction as generalizing s with
    | nil => exact h.elim
    | cons a as ih =>
      rcases h with h | h
      · exact ⟨[], a, as, rfl, h⟩
      · obtain ⟨before, b, after, rfl, hb⟩ := ih h
        exact ⟨a :: before, b, after, rfl, hb⟩
  · rintro ⟨before, a, after, rfl, h⟩
    exact sometime_append.mpr (Or.inr (Or.inl h))

/-- What holds before a run that keeps an invariant, and not behind it, one of its actions
loses. -/
theorem sometime_of_loss {I R : σ → Prop} (hstep : ∀ s a, I s → I (step s a)) (hI : I s)
    (hbefore : R s) (hafter : ¬R (runFrom step s as)) :
    Sometime step (fun s a ↦ I s ∧ R s ∧ ¬R (step s a)) s as := by
  induction as generalizing s with
  | nil => exact absurd hbefore hafter
  | cons a as ih =>
    by_cases h : R (step s a)
    · exact Or.inr (ih (hstep s a hI) h hafter)
    · exact Or.inl ⟨hI, hbefore, h⟩

theorem Sometime.imp (h : Sometime step P s as) (himp : ∀ s a, P s a → Q s a) :
    Sometime step Q s as := by
  obtain ⟨before, a, after, rfl, ha⟩ := sometime_iff.mp h
  exact sometime_iff.mpr ⟨before, a, after, rfl, himp _ _ ha⟩

end Khive
