import Khive.Foundation.PartialEq

/-!
# JSON trees

JSON values over an arbitrary type of numbers. An object is the list of its members in the order
its map iterates over them; for a map sorted by key that is the key order.

Equality compares member lists in order, and inherits from the numbers whether it is reflexive:
it is always a partial equivalence, and reflexive exactly as far as the numbers are. Recursion
through the nested lists is written as three mutual functions, and each fact about them as three
mutual theorems.
-/

namespace Khive

/-- A JSON value with numbers in `ν`. -/
inductive Json (ν : Type) where
  | null
  | bool (b : Bool)
  | number (n : ν)
  | string (s : String)
  | array (items : List (Json ν))
  | object (members : List (String × Json ν))

namespace Json

variable {ν : Type}

/-! ## Equality -/

-- the mutual blocks use the instances through one another
set_option linter.unusedSectionVars false

section Equality

variable [BEq ν]

mutual

/-- Derived equality, following the numbers' own. -/
def beq : Json ν → Json ν → Bool
  | .null, .null => true
  | .bool a, .bool b => a == b
  | .number a, .number b => a == b
  | .string a, .string b => a == b
  | .array xs, .array ys => beqItems xs ys
  | .object xs, .object ys => beqMembers xs ys
  | _, _ => false

def beqItems : List (Json ν) → List (Json ν) → Bool
  | [], [] => true
  | x :: xs, y :: ys => beq x y && beqItems xs ys
  | _, _ => false

def beqMembers : List (String × Json ν) → List (String × Json ν) → Bool
  | [], [] => true
  | (k, x) :: xs, (l, y) :: ys => k == l && beq x y && beqMembers xs ys
  | _, _ => false

end

instance : BEq (Json ν) := ⟨beq⟩

section Partial

variable [PartialEquivBEq ν]

mutual

private theorem beq_symm : ∀ x y : Json ν, beq x y = true → beq y x = true
  | .null, y, h => by cases y <;> simp_all [beq]
  | .bool a, y, h => by cases y <;> simp_all [beq]
  | .number a, y, h => by
    cases y <;> simp only [beq, Bool.false_eq_true] at h ⊢
    exact PartialEquivBEq.symm h
  | .string a, y, h => by cases y <;> simp_all [beq]
  | .array xs, y, h => by
    cases y <;> simp only [beq, Bool.false_eq_true] at h ⊢
    exact beqItems_symm _ _ h
  | .object xs, y, h => by
    cases y <;> simp only [beq, Bool.false_eq_true] at h ⊢
    exact beqMembers_symm _ _ h

private theorem beqItems_symm : ∀ xs ys : List (Json ν), beqItems xs ys = true →
    beqItems ys xs = true
  | [], ys, h => by cases ys <;> simp_all [beqItems]
  | x :: xs, [], h => by simp [beqItems] at h
  | x :: xs, y :: ys, h => by
    simp only [beqItems, Bool.and_eq_true] at h ⊢
    exact ⟨beq_symm _ _ h.1, beqItems_symm _ _ h.2⟩

private theorem beqMembers_symm : ∀ xs ys : List (String × Json ν), beqMembers xs ys = true →
    beqMembers ys xs = true
  | [], ys, h => by cases ys <;> simp_all [beqMembers]
  | (k, x) :: xs, [], h => by simp [beqMembers] at h
  | (k, x) :: xs, (l, y) :: ys, h => by
    simp only [beqMembers, Bool.and_eq_true, beq_iff_eq] at h ⊢
    exact ⟨⟨h.1.1.symm, beq_symm _ _ h.1.2⟩, beqMembers_symm _ _ h.2⟩

end

mutual

private theorem beq_trans : ∀ x y z : Json ν, beq x y = true → beq y z = true → beq x z = true
  | .null, y, z, h₁, h₂ => by cases y <;> cases z <;> simp_all [beq]
  | .bool a, y, z, h₁, h₂ => by cases y <;> cases z <;> simp_all [beq]
  | .number a, y, z, h₁, h₂ => by
    cases y <;> cases z <;> simp only [beq, Bool.false_eq_true] at h₁ h₂ ⊢
    exact PartialEquivBEq.trans h₁ h₂
  | .string a, y, z, h₁, h₂ => by cases y <;> cases z <;> simp_all [beq]
  | .array xs, y, z, h₁, h₂ => by
    cases y <;> cases z <;> simp only [beq, Bool.false_eq_true] at h₁ h₂ ⊢
    exact beqItems_trans _ _ _ h₁ h₂
  | .object xs, y, z, h₁, h₂ => by
    cases y <;> cases z <;> simp only [beq, Bool.false_eq_true] at h₁ h₂ ⊢
    exact beqMembers_trans _ _ _ h₁ h₂

private theorem beqItems_trans : ∀ xs ys zs : List (Json ν), beqItems xs ys = true →
    beqItems ys zs = true → beqItems xs zs = true
  | [], ys, zs, h₁, h₂ => by cases ys <;> cases zs <;> simp_all [beqItems]
  | x :: xs, [], zs, h₁, h₂ => by simp [beqItems] at h₁
  | x :: xs, y :: ys, [], h₁, h₂ => by simp [beqItems] at h₂
  | x :: xs, y :: ys, z :: zs, h₁, h₂ => by
    simp only [beqItems, Bool.and_eq_true] at h₁ h₂ ⊢
    exact ⟨beq_trans _ _ _ h₁.1 h₂.1, beqItems_trans _ _ _ h₁.2 h₂.2⟩

private theorem beqMembers_trans : ∀ xs ys zs : List (String × Json ν), beqMembers xs ys = true →
    beqMembers ys zs = true → beqMembers xs zs = true
  | [], ys, zs, h₁, h₂ => by cases ys <;> cases zs <;> simp_all [beqMembers]
  | (k, x) :: xs, [], zs, h₁, h₂ => by simp [beqMembers] at h₁
  | (k, x) :: xs, (l, y) :: ys, [], h₁, h₂ => by simp [beqMembers] at h₂
  | (k, x) :: xs, (l, y) :: ys, (m, z) :: zs, h₁, h₂ => by
    simp only [beqMembers, Bool.and_eq_true, beq_iff_eq] at h₁ h₂ ⊢
    exact ⟨⟨h₁.1.1.trans h₂.1.1, beq_trans _ _ _ h₁.1.2 h₂.1.2⟩, beqMembers_trans _ _ _ h₁.2 h₂.2⟩

end

instance : PartialEquivBEq (Json ν) where
  symm h := beq_symm _ _ h
  trans h₁ h₂ := beq_trans _ _ _ h₁ h₂

end Partial

section Reflexive

variable [ReflBEq ν]

mutual

private theorem beq_refl : ∀ x : Json ν, beq x x = true
  | .null => rfl
  | .bool b => by simp [beq]
  | .number n => by simp [beq]
  | .string s => by simp [beq]
  | .array xs => by simp only [beq]; exact beqItems_refl xs
  | .object xs => by simp only [beq]; exact beqMembers_refl xs

private theorem beqItems_refl : ∀ xs : List (Json ν), beqItems xs xs = true
  | [] => rfl
  | x :: xs => by simp only [beqItems, Bool.and_eq_true]; exact ⟨beq_refl x, beqItems_refl xs⟩

private theorem beqMembers_refl : ∀ xs : List (String × Json ν), beqMembers xs xs = true
  | [] => rfl
  | (k, x) :: xs => by
    simp only [beqMembers, Bool.and_eq_true, beq_self_eq_true, true_and]
    exact ⟨beq_refl x, beqMembers_refl xs⟩

end

instance : ReflBEq (Json ν) where
  rfl := beq_refl _

end Reflexive

end Equality

end Json

end Khive
