import Mathlib

/-!
# Equality that need not be reflexive

Rust's derived `PartialEq` follows the equality of the fields, and one floating-point field is
enough to lose reflexivity: a NaN differs from itself, while the two zeros are equal without
being identical. What survives is symmetry and transitivity, which is the core class
`PartialEquivBEq`.

Two values are *indistinguishable* when they are identical or compare equal. That is the
reflexive closure of `==`, hence an equivalence relation, and every comparison reads the same on
both sides of it: `Indist.beq_left` and `Indist.beq_right` are the two rewriting rules.
-/

namespace Khive

variable {α β : Type}

/-! ## Containers inherit the partial equivalence -/

instance instPartialEquivBEqOption [BEq α] [PartialEquivBEq α] :
    PartialEquivBEq (Option α) where
  symm {a b} h := by
    cases a <;> cases b <;> simp_all [PartialEquivBEq.symm]
  trans {a b c} h₁ h₂ := by
    cases a <;> cases b <;> cases c <;> simp_all
    exact PartialEquivBEq.trans h₁ h₂

instance instPartialEquivBEqProd [BEq α] [BEq β] [PartialEquivBEq α] [PartialEquivBEq β] :
    PartialEquivBEq (α × β) where
  symm {a b} h := by
    simp only [BEq.beq, Bool.and_eq_true] at h ⊢
    exact ⟨PartialEquivBEq.symm h.1, PartialEquivBEq.symm h.2⟩
  trans {a b c} h₁ h₂ := by
    simp only [BEq.beq, Bool.and_eq_true] at h₁ h₂ ⊢
    exact ⟨PartialEquivBEq.trans h₁.1 h₂.1, PartialEquivBEq.trans h₁.2 h₂.2⟩

private theorem listBeq_symm [BEq α] [PartialEquivBEq α] :
    ∀ {xs ys : List α}, (xs == ys) = true → (ys == xs) = true
  | [], ys, h => by cases ys <;> simp_all
  | x :: xs, [], h => by simp at h
  | x :: xs, y :: ys, h => by
    simp only [List.cons_beq_cons, Bool.and_eq_true] at h ⊢
    exact ⟨PartialEquivBEq.symm h.1, listBeq_symm h.2⟩

private theorem listBeq_trans [BEq α] [PartialEquivBEq α] :
    ∀ {xs ys zs : List α}, (xs == ys) = true → (ys == zs) = true → (xs == zs) = true
  | [], [], zs, _, h => h
  | [], y :: ys, zs, h, _ => by simp at h
  | x :: xs, [], zs, h, _ => by simp at h
  | x :: xs, y :: ys, [], _, h => by simp at h
  | x :: xs, y :: ys, z :: zs, h₁, h₂ => by
    simp only [List.cons_beq_cons, Bool.and_eq_true] at h₁ h₂ ⊢
    exact ⟨PartialEquivBEq.trans h₁.1 h₂.1, listBeq_trans h₁.2 h₂.2⟩

instance instPartialEquivBEqList [BEq α] [PartialEquivBEq α] : PartialEquivBEq (List α) where
  symm := listBeq_symm
  trans := listBeq_trans

/-! ## Indistinguishable values -/

/-- `a` and `b` are identical, or compare equal: the reflexive closure of `==`. -/
def Indist [BEq α] (a b : α) : Prop := a = b ∨ (a == b) = true

namespace Indist

variable [BEq α]

@[refl] theorem refl (a : α) : Indist a a := Or.inl rfl

theorem of_beq {a b : α} (h : (a == b) = true) : Indist a b := Or.inr h

theorem eq [LawfulBEq α] {a b : α} (h : Indist a b) : a = b := by
  rcases h with h | h
  · exact h
  · exact eq_of_beq h

variable [PartialEquivBEq α]

theorem symm {a b : α} (h : Indist a b) : Indist b a := by
  rcases h with rfl | h
  · exact refl _
  · exact Or.inr (PartialEquivBEq.symm h)

theorem trans {a b c : α} (h₁ : Indist a b) (h₂ : Indist b c) : Indist a c := by
  rcases h₁ with rfl | h₁
  · exact h₂
  · rcases h₂ with rfl | h₂
    · exact Or.inr h₁
    · exact Or.inr (PartialEquivBEq.trans h₁ h₂)

/-- A comparison does not tell indistinguishable left operands apart. -/
theorem beq_left {a b c : α} (h : Indist a b) (hc : (a == c) = true) : (b == c) = true := by
  rcases h with rfl | h
  · exact hc
  · exact PartialEquivBEq.trans (PartialEquivBEq.symm h) hc

/-- A comparison does not tell indistinguishable right operands apart. -/
theorem beq_right {a b c : α} (h : Indist a b) (hc : (c == a) = true) : (c == b) = true := by
  rcases h with rfl | h
  · exact hc
  · exact PartialEquivBEq.trans hc h

end Indist

end Khive
