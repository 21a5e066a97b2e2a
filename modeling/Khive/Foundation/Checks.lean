import Mathlib

/-!
# Sequences of checks

Fallible code is written in `Except`, most of it as a run of checks of which the first to fail
decides the error. The lemmas here take such a run apart: a bind succeeds when both halves do, and
a guard succeeds when its condition holds.
-/

namespace Khive

variable {ε α β : Type}

theorem bind_eq_ok {x : Except ε α} {f : α → Except ε β} {b : β} :
    (x >>= f) = .ok b ↔ ∃ a, x = .ok a ∧ f a = .ok b := by
  cases x with
  | error e => simp [bind, Except.bind]
  | ok a => simp [bind, Except.bind]

/-- A check followed by more work. -/
theorem seq_eq_ok {x : Except ε Unit} {y : Except ε β} {b : β} :
    (x >>= fun _ ↦ y) = .ok b ↔ x = .ok () ∧ y = .ok b := by
  rw [bind_eq_ok]
  exact ⟨fun ⟨_, hx, hy⟩ ↦ ⟨hx, hy⟩, fun ⟨hx, hy⟩ ↦ ⟨(), hx, hy⟩⟩

theorem exists_check {p : Unit → Prop} : (∃ u, p u) ↔ p () :=
  ⟨fun ⟨_, h⟩ ↦ h, fun h ↦ ⟨(), h⟩⟩

theorem pure_eq_ok {a b : α} : (pure a : Except ε α) = .ok b ↔ a = b := by
  simp [pure, Except.pure]

theorem throw_ne_ok {e : ε} {a : α} : (throw e : Except ε α) ≠ .ok a := by
  simp [throw, throwThe, MonadExceptOf.throw]

/-- A check that passes, before more work. -/
theorem guard_eq_ok {condition : Prop} [Decidable condition] {e : ε} {k : Unit → Except ε α}
    {a : α} :
    (if condition then throw e >>= k else k ()) = .ok a ↔ ¬condition ∧ k () = .ok a := by
  by_cases h : condition
  · simp only [h, if_true, not_true_eq_false, false_and, iff_false]
    intro hrun
    obtain ⟨_, hthrow, -⟩ := bind_eq_ok.mp hrun
    exact throw_ne_ok hthrow
  · simp only [h, if_false, not_false_eq_true, true_and]

theorem ok_bind (a : α) (f : α → Except ε β) : (Except.ok a >>= f) = f a := rfl

theorem map_eq_ok {f : α → β} {x : Except ε α} {b : β} :
    x.map f = .ok b ↔ ∃ a, x = .ok a ∧ f a = b := by
  cases x <;> simp [Except.map]

theorem mapError_eq_ok {ε' : Type} {f : ε → ε'} {x : Except ε β} {b : β} :
    x.mapError f = .ok b ↔ x = .ok b := by
  cases x <;> simp [Except.mapError]

/-- A check of every element. -/
theorem forM_eq_ok {f : α → Except ε PUnit} {as : List α} :
    as.forM f = .ok () ↔ ∀ a ∈ as, f a = .ok () := by
  induction as with
  | nil => exact iff_of_true rfl fun a ha ↦ absurd ha List.not_mem_nil
  | cons a as ih =>
    have hcons : (a :: as).forM f = f a >>= fun _ ↦ as.forM f := rfl
    rw [hcons, seq_eq_ok, ih, List.forall_mem_cons]

/-- A fallible function applied to every element. -/
theorem mapM_eq_ok {f : α → Except ε β} {as : List α} {bs : List β} :
    as.mapM f = .ok bs ↔ List.Forall₂ (fun a b ↦ f a = .ok b) as bs := by
  induction as generalizing bs with
  | nil =>
    rw [List.mapM_nil, pure_eq_ok, List.forall₂_nil_left_iff]
    exact eq_comm
  | cons a as ih =>
    rw [List.mapM_cons, List.forall₂_cons_left_iff]
    simp only [bind_eq_ok, pure_eq_ok, ih]
    constructor
    · rintro ⟨b, hb, bs, hbs, rfl⟩
      exact ⟨b, bs, hb, hbs, rfl⟩
    · rintro ⟨b, bs, hb, hbs, rfl⟩
      exact ⟨b, hb, bs, hbs, rfl⟩

theorem length_of_mapM {f : α → Except ε β} {as : List α} {bs : List β} (h : as.mapM f = .ok bs) :
    as.length = bs.length :=
  (mapM_eq_ok.mp h).length_eq

theorem exists_of_mem_forall₂ {R : α → β → Prop} {as : List α} {bs : List β}
    (h : List.Forall₂ R as bs) {b : β} (hb : b ∈ bs) : ∃ a ∈ as, R a b := by
  induction h with
  | nil => simp at hb
  | @cons a b' as bs hab _ ih =>
    rcases List.mem_cons.mp hb with rfl | hb
    · exact ⟨a, List.mem_cons_self, hab⟩
    · obtain ⟨a', ha', h⟩ := ih hb
      exact ⟨a', List.mem_cons_of_mem _ ha', h⟩

theorem exists_of_mem_mapM {f : α → Except ε β} {as : List α} {bs : List β}
    (h : as.mapM f = .ok bs) {b : β} (hb : b ∈ bs) : ∃ a ∈ as, f a = .ok b :=
  exists_of_mem_forall₂ (mapM_eq_ok.mp h) hb

/-- Every element of a fold that succeeds has had its step. -/
theorem exists_of_mem_foldlM {f : β → α → Except ε β} {as : List α} {b b' : β}
    (h : as.foldlM f b = .ok b') {a : α} (ha : a ∈ as) : ∃ b₁ b₂, f b₁ a = .ok b₂ := by
  induction as generalizing b with
  | nil => exact absurd ha List.not_mem_nil
  | cons a' as ih =>
    rw [List.foldlM_cons] at h
    obtain ⟨b₁, hb₁, h⟩ := bind_eq_ok.mp h
    rcases List.mem_cons.mp ha with rfl | ha
    · exact ⟨b, b₁, hb₁⟩
    · exact ih h ha

/-- Fail with `e` when there is no value. -/
def okOr (e : ε) : Option α → Except ε α
  | some a => .ok a
  | none => .error e

@[simp] theorem okOr_eq_ok {e : ε} {o : Option α} {a : α} : okOr e o = .ok a ↔ o = some a := by
  cases o <;> simp [okOr]

/-- Fail with `e` unless the condition holds. -/
def guardOr (e : ε) (condition : Bool) : Except ε Unit :=
  if condition then .ok () else .error e

@[simp] theorem guardOr_eq_ok {e : ε} {condition : Bool} :
    guardOr e condition = .ok () ↔ condition = true := by
  cases condition <;> simp [guardOr]

end Khive
