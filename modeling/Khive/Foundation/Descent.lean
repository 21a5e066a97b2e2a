import Mathlib.Data.List.Chain
import Mathlib.Data.List.Nodup

/-!
# Following pointers

A partial function gives each point at most one next point. A list follows it when each element
points to the one behind it, and it is complete when the last element points nowhere. From a point
there is at most one complete list, so none of them comes back to a point it has passed.
-/

namespace Khive

variable {α : Type*} (next : α → Option α) {a b : α} {l : List α}

/-- Each element points to the one behind it and the last one nowhere. -/
def Descends : List α → Prop
  | [] => False
  | [a] => next a = none
  | a :: b :: l => next a = some b ∧ Descends (b :: l)

namespace Descends

variable {next}

theorem of_append {s : List α} (h : Descends next (s ++ a :: l)) : Descends next (a :: l) := by
  induction s with
  | nil => exact h
  | cons c s ih =>
    apply ih
    cases s with
    | nil => exact h.2
    | cons d s => exact h.2

/-- What a point leads to is determined. -/
theorem unique {l₁ l₂ : List α} (h₁ : Descends next (a :: l₁)) (h₂ : Descends next (a :: l₂)) :
    l₁ = l₂ := by
  induction l₁ generalizing a l₂ with
  | nil =>
    cases l₂ with
    | nil => rfl
    | cons b l₂ => exact absurd (h₁.symm.trans h₂.1) (Option.some_ne_none b).symm
  | cons b l₁ ih =>
    cases l₂ with
    | nil => exact absurd (h₂.symm.trans h₁.1) (Option.some_ne_none b).symm
    | cons c l₂ =>
      obtain rfl : b = c := Option.some.inj (h₁.1.symm.trans h₂.1)
      rw [ih h₁.2 h₂.2]

/-- A point that came back would lead to a shorter rest than before. -/
theorem nodup (h : Descends next l) : l.Nodup := by
  induction l with
  | nil => exact List.nodup_nil
  | cons a l ih =>
    cases l with
    | nil => exact List.nodup_singleton a
    | cons b l =>
      refine List.nodup_cons.mpr ⟨fun hmem ↦ ?_, ih h.2⟩
      obtain ⟨s, t, hst⟩ := List.append_of_mem hmem
      have hback : Descends next (a :: t) := of_append (hst ▸ h.2)
      have hlen := congrArg List.length (h.unique hback)
      rw [hst, List.length_append, List.length_cons] at hlen
      omega

end Descends

end Khive
