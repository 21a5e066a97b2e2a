import Mathlib

/-!
# Lists that cover lists

Authority is often held as a list of parts, and a list of wanted parts is covered when every part of
it is covered by a part held. What the relation between parts has, the relation between lists has as
well: it is reflexive or transitive with it, and if a covered part admits no more than the part that
covers it, the same is true of the lists. Along a chain of covered lists nothing is gained.
-/

namespace Khive

variable {α σ : Type} {R : α → α → Prop} {as bs cs : List α}

/-- Every wanted part is covered by a part held. -/
def Covering (R : α → α → Prop) (as bs : List α) : Prop := ∀ b ∈ bs, ∃ a ∈ as, R a b

theorem covering_all_any {covers : α → α → Bool} :
    (bs.all fun b ↦ as.any fun a ↦ covers a b) = true ↔
      Covering (fun a b ↦ covers a b = true) as bs := by
  simp only [List.all_eq_true, List.any_eq_true, Covering]

namespace Covering

theorem refl (h : ∀ b ∈ bs, R b b) : Covering R bs bs := fun b hb ↦ ⟨b, hb, h b hb⟩

theorem trans (hR : ∀ a b c, R a b → R b c → R a c) (h₁ : Covering R as bs)
    (h₂ : Covering R bs cs) : Covering R as cs := by
  intro c hc
  obtain ⟨b, hb, hbc⟩ := h₂ c hc
  obtain ⟨a, ha, hab⟩ := h₁ b hb
  exact ⟨a, ha, hR a b c hab hbc⟩

/-- What a part of the covered list admits, a part of the covering list admits. -/
theorem admits {Admits : α → σ → Prop} {s : σ} (hR : ∀ a b, R a b → Admits b s → Admits a s)
    (h : Covering R as bs) (hs : ∃ b ∈ bs, Admits b s) : ∃ a ∈ as, Admits a s := by
  obtain ⟨b, hb, hs⟩ := hs
  obtain ⟨a, ha, hab⟩ := h b hb
  exact ⟨a, ha, hR a b hab hs⟩

end Covering

/-- A property of the first member of a chain that no step loses is a property of the last. -/
theorem chain_induction {step : α → α → Prop} {P : α → Prop} {a b : α}
    (h : Relation.ReflTransGen step a b) (ha : P a) (hstep : ∀ a b, step a b → P a → P b) : P b := by
  induction h with
  | refl => exact ha
  | tail _ hbc ih => exact hstep _ _ hbc ih

end Khive
