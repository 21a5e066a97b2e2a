import Mathlib

/-!
# Three-way reconciliation

One record under one key, seen in a common base and in two branches. Each branch is classified
against the base, and the pair of classifications decides what the merge keeps: the record of the
branch that changed it, a join of both when both did, nothing when one deleted it.

What joins produce is left open (`Join`), and so is the conflict type. The decision itself has a
specification with no classification in it, `reconcile_classify`, and a set-level one: the keys
that come through are `survivors`, provided no conflict was raised.
-/

namespace Khive

/-- A branch's change to a record of the base. -/
inductive Change (α : Type) where
  | unchanged
  | added (branch : α)
  | deleted
  | modified (base branch : α)

/-- The two sides of a merge. -/
inductive BranchSide where
  | ours | theirs
deriving DecidableEq, Repr

/-! ## Survivors -/

/-- The keys a merge keeps: those of both branches, and the additions of either. -/
def survivors {κ : Type} (base ours theirs : Set κ) : Set κ :=
  {k | (k ∈ ours ∧ k ∈ theirs) ∨ (k ∈ ours ∧ k ∉ theirs ∧ k ∉ base) ∨
    (k ∉ ours ∧ k ∈ theirs ∧ k ∉ base)}

/-! ## Classification and decision -/

variable {α β χ : Type}

/-- Classify a branch against the base, `same` telling whether the record is unchanged. -/
def classify (same : α → α → Bool) : Option α → Option α → Option (Change α)
  | none, some branch => some (.added branch)
  | some _, none => some .deleted
  | some base, some branch => some (if same base branch then .unchanged else .modified base branch)
  | none, none => none

/-- What the decision leaves open. -/
structure Join (α β χ : Type) where
  /-- Unchanged on both sides. -/
  keep : α → β
  /-- Added on one side. -/
  takeAdded : α → β
  /-- Modified on one side; the base record comes first. -/
  takeModified : α → α → β
  /-- Added on both sides. -/
  joinAdded : α → α → β × List χ
  /-- Modified on both sides. -/
  joinModified : α → α → α → β × List χ
  /-- Modified on this side and deleted on the other. -/
  clash : BranchSide → χ

/-- The decision table. -/
def reconcile (j : Join α β χ) (base : Option α) :
    Option (Change α) → Option (Change α) → Option β × List χ
  | some .unchanged, some .unchanged => (base.map j.keep, [])
  | some (.added e), none => (some (j.takeAdded e), [])
  | some (.added e), some .unchanged => (some (j.takeAdded e), [])
  | none, some (.added e) => (some (j.takeAdded e), [])
  | some .unchanged, some (.added e) => (some (j.takeAdded e), [])
  | some (.added ours), some (.added theirs) =>
    (some (j.joinAdded ours theirs).1, (j.joinAdded ours theirs).2)
  | some .deleted, some .deleted => (none, [])
  | some .deleted, some .unchanged => (none, [])
  | some .deleted, none => (none, [])
  | some .unchanged, some .deleted => (none, [])
  | none, some .deleted => (none, [])
  | some (.modified b ours), some .unchanged => (some (j.takeModified b ours), [])
  | some (.modified b ours), none => (some (j.takeModified b ours), [])
  | some .unchanged, some (.modified b theirs) => (some (j.takeModified b theirs), [])
  | none, some (.modified b theirs) => (some (j.takeModified b theirs), [])
  | some (.modified b ours), some (.modified _ theirs) =>
    (some (j.joinModified b ours theirs).1, (j.joinModified b ours theirs).2)
  | some .deleted, some (.modified _ _) => (none, [j.clash .theirs])
  | some (.modified _ _), some .deleted => (none, [j.clash .ours])
  | _, _ => (none, [])

/-- The decision on a key of the base that both branches still have. -/
def reconcileKept (j : Join α β χ) (same : α → α → Bool) (b o t : α) : β × List χ :=
  if same b o then
    if same b t then (j.keep b, []) else (j.takeModified b t, [])
  else if same b t then (j.takeModified b o, []) else j.joinModified b o t

/-- **The decision by presence**: what a key becomes, read off the three records directly. -/
theorem reconcile_classify (j : Join α β χ) (same : α → α → Bool) (b o t : Option α) :
    reconcile j b (classify same b o) (classify same b t) =
      match b, o, t with
      | none, none, none => (none, [])
      | none, some o, none => (some (j.takeAdded o), [])
      | none, none, some t => (some (j.takeAdded t), [])
      | none, some o, some t => (some (j.joinAdded o t).1, (j.joinAdded o t).2)
      | some _, none, none => (none, [])
      | some b, some o, none => (none, if same b o then [] else [j.clash .ours])
      | some b, none, some t => (none, if same b t then [] else [j.clash .theirs])
      | some b, some o, some t =>
        (some (reconcileKept j same b o t).1, (reconcileKept j same b o t).2) := by
  cases b with
  | none => cases o <;> cases t <;> rfl
  | some b =>
    cases o with
    | none =>
      cases t with
      | none => rfl
      | some t => cases h : same b t <;> simp [classify, h, reconcile]
    | some o =>
      cases t with
      | none => cases h : same b o <;> simp [classify, h, reconcile]
      | some t =>
        cases h : same b o <;> cases h' : same b t <;>
          simp [classify, h, h', reconcile, reconcileKept]

/-- Without a conflict, the key comes through exactly when it is a survivor. -/
theorem reconcile_isSome {j : Join α β χ} {same : α → α → Bool} {b o t : Option α} :
    ((reconcile j b (classify same b o) (classify same b t)).1.isSome = true) ↔
      (o.isSome = true ∧ t.isSome = true) ∨
        (o.isSome = true ∧ ¬t.isSome = true ∧ ¬b.isSome = true) ∨
          (¬o.isSome = true ∧ t.isSome = true ∧ ¬b.isSome = true) := by
  rw [reconcile_classify]
  cases b <;> cases o <;> cases t <;> simp

/-- What holds of everything the joins produce holds of the outcome. -/
theorem reconcile_forall {j : Join α β χ} {same : α → α → Bool} {b o t : Option α} {r : β}
    {P : β → Prop} (h : (reconcile j b (classify same b o) (classify same b t)).1 = some r)
    (hkeep : ∀ x, b = some x → P (j.keep x))
    (hadded : ∀ x, o = some x ∨ t = some x → P (j.takeAdded x))
    (hmodified : ∀ x y, b = some x → o = some y ∨ t = some y → P (j.takeModified x y))
    (hjoinAdded : ∀ x y, o = some x → t = some y → P (j.joinAdded x y).1)
    (hjoin : ∀ x y z, b = some x → o = some y → t = some z → P (j.joinModified x y z).1) :
    P r := by
  rw [reconcile_classify] at h
  cases b with
  | none =>
    cases o with
    | none =>
      cases t with
      | none => cases h
      | some t =>
        cases h
        exact hadded t (Or.inr rfl)
    | some o =>
      cases t with
      | none =>
        cases h
        exact hadded o (Or.inl rfl)
      | some t =>
        cases h
        exact hjoinAdded o t rfl rfl
  | some b =>
    cases o with
    | none => cases t <;> cases h
    | some o =>
      cases t with
      | none => cases h
      | some t =>
        cases h
        unfold reconcileKept
        split
        · split
          · exact hkeep b rfl
          · exact hmodified b t rfl (Or.inr rfl)
        · split
          · exact hmodified b o rfl (Or.inl rfl)
          · exact hjoin b o t rfl rfl rfl

/-! ## Unit laws

A branch reconciled with the base, or with itself, comes through as it is, as far as the joins let
it: `R r x` says that the outcome `r` stands for the record `x`. -/

section Unit

variable {j : Join α β χ} {same : α → α → Bool} {R : β → α → Prop} {b x : Option α}
  (hkeep : ∀ c y, b = some c → x = some y → same c y = true → R (j.keep c) y)

include hkeep

theorem reconcile_right (hrefl : ∀ c, b = some c → same c c = true)
    (hadded : ∀ y, x = some y → R (j.takeAdded y) y)
    (hmodified : ∀ c y, b = some c → x = some y → R (j.takeModified c y) y) :
    (reconcile j b (classify same b x) (classify same b b)).2 = [] ∧
      Option.Rel R (reconcile j b (classify same b x) (classify same b b)).1 x := by
  rw [reconcile_classify]
  cases b with
  | none =>
    cases x with
    | none => exact ⟨rfl, .none⟩
    | some y => exact ⟨rfl, .some (hadded y rfl)⟩
  | some c =>
    have hc : same c c = true := hrefl c rfl
    cases x with
    | none => exact ⟨by simp [hc], .none⟩
    | some y =>
      simp only [reconcileKept, hc, if_true]
      split
      · next h => exact ⟨rfl, .some (hkeep c y rfl rfl h)⟩
      · exact ⟨rfl, .some (hmodified c y rfl rfl)⟩

theorem reconcile_left (hrefl : ∀ c, b = some c → same c c = true)
    (hadded : ∀ y, x = some y → R (j.takeAdded y) y)
    (hmodified : ∀ c y, b = some c → x = some y → R (j.takeModified c y) y) :
    (reconcile j b (classify same b b) (classify same b x)).2 = [] ∧
      Option.Rel R (reconcile j b (classify same b b) (classify same b x)).1 x := by
  rw [reconcile_classify]
  cases b with
  | none =>
    cases x with
    | none => exact ⟨rfl, .none⟩
    | some y => exact ⟨rfl, .some (hadded y rfl)⟩
  | some c =>
    have hc : same c c = true := hrefl c rfl
    cases x with
    | none => exact ⟨by simp [hc], .none⟩
    | some y =>
      simp only [reconcileKept, hc, if_true]
      split
      · next h => exact ⟨rfl, .some (hkeep c y rfl rfl h)⟩
      · exact ⟨rfl, .some (hmodified c y rfl rfl)⟩

theorem reconcile_self
    (hadded : ∀ y, x = some y → (j.joinAdded y y).2 = [] ∧ R (j.joinAdded y y).1 y)
    (hmodified : ∀ c y, b = some c → x = some y → same c y = false →
      (j.joinModified c y y).2 = [] ∧ R (j.joinModified c y y).1 y) :
    (reconcile j b (classify same b x) (classify same b x)).2 = [] ∧
      Option.Rel R (reconcile j b (classify same b x) (classify same b x)).1 x := by
  rw [reconcile_classify]
  cases b with
  | none =>
    cases x with
    | none => exact ⟨rfl, .none⟩
    | some y => exact ⟨(hadded y rfl).1, .some (hadded y rfl).2⟩
  | some c =>
    cases x with
    | none => exact ⟨rfl, .none⟩
    | some y =>
      simp only [reconcileKept]
      split
      · next h => exact ⟨rfl, .some (hkeep c y rfl rfl h)⟩
      · next h =>
        obtain ⟨hnil, hR⟩ := hmodified c y rfl rfl (by simpa using h)
        exact ⟨hnil, .some hR⟩

end Unit

end Khive
