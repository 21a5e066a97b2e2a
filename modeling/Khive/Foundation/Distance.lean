import Mathlib

/-!
# Distances along a relation

`Steps R k u v` is a chain of exactly `k` steps, and the distance is the least such `k`. A search
by levels keeps the points up to a distance and the points at it. `Explored.next` is the one step
of such a search: the points that a step leads to from the last level, less those already seen,
are the next level.
-/

namespace Khive

variable {α : Type*} {R : α → α → Prop} {u v w : α} {j k : ℕ}

/-- A chain of exactly `k` steps. -/
def Steps (R : α → α → Prop) : ℕ → α → α → Prop
  | 0, u, v => u = v
  | k + 1, u, v => ∃ w, Steps R k u w ∧ R w v

/-- The least number of steps. -/
def IsDistance (R : α → α → Prop) (k : ℕ) (u v : α) : Prop :=
  Steps R k u v ∧ ∀ j < k, ¬Steps R j u v

@[simp] theorem steps_zero : Steps R 0 u v ↔ u = v := Iff.rfl

theorem steps_add : Steps R (j + k) u v ↔ ∃ w, Steps R j u w ∧ Steps R k w v := by
  induction k generalizing v with
  | zero => simp
  | succ k ih =>
    constructor
    · rintro ⟨x, hx, hstep⟩
      obtain ⟨w, hj, hk⟩ := ih.mp hx
      exact ⟨w, hj, x, hk, hstep⟩
    · rintro ⟨w, hj, x, hk, hstep⟩
      exact ⟨x, ih.mpr ⟨w, hj, hk⟩, hstep⟩

/-- The steps taken backwards. -/
theorem steps_swap : Steps (fun a b ↦ R b a) k u v ↔ Steps R k v u := by
  induction k generalizing v with
  | zero => exact eq_comm
  | succ k ih =>
    constructor
    · rintro ⟨w, hw, hstep⟩
      rw [Nat.add_comm, steps_add]
      exact ⟨w, ⟨v, rfl, hstep⟩, ih.mp hw⟩
    · intro h
      rw [Nat.add_comm, steps_add] at h
      obtain ⟨w, ⟨_, rfl, hstep⟩, hw⟩ := h
      exact ⟨w, ih.mpr hw, hstep⟩

theorem IsDistance.unique (hj : IsDistance R j u v) (hk : IsDistance R k u v) : j = k := by
  rcases lt_trichotomy j k with hlt | heq | hlt
  · exact absurd hj.1 (hk.2 j hlt)
  · exact heq
  · exact absurd hk.1 (hj.2 k hlt)

@[simp] theorem isDistance_zero : IsDistance R 0 u v ↔ u = v :=
  ⟨fun h ↦ h.1, fun h ↦ ⟨h, fun _ hlt ↦ absurd hlt (Nat.not_lt_zero _)⟩⟩

theorem exists_isDistance_of_steps (h : Steps R k u v) : ∃ j ≤ k, IsDistance R j u v := by
  classical
  have hex : ∃ j, Steps R j u v := ⟨k, h⟩
  exact ⟨Nat.find hex, Nat.find_le h, Nat.find_spec hex, fun j hlt ↦ Nat.find_min hex hlt⟩

theorem isDistance_swap : IsDistance (fun a b ↦ R b a) k u v ↔ IsDistance R k v u := by
  simp only [IsDistance, steps_swap]

/-- Every point between the ends of a shortest chain is at its own distance from both. -/
theorem IsDistance.split (h : IsDistance R (j + k) u v) :
    ∃ w, IsDistance R j u w ∧ IsDistance R k w v := by
  obtain ⟨w, hj, hk⟩ := steps_add.mp h.1
  refine ⟨w, ⟨hj, fun i hi hsteps ↦ ?_⟩, hk, fun i hi hsteps ↦ ?_⟩
  · exact h.2 (i + k) (by omega) (steps_add.mpr ⟨w, hsteps, hk⟩)
  · exact h.2 (j + i) (by omega) (steps_add.mpr ⟨w, hj, hsteps⟩)

/-- One step further is at most one more. -/
theorem IsDistance.step (h : IsDistance R k u w) (hstep : R w v) :
    ∃ j ≤ k + 1, IsDistance R j u v :=
  exists_isDistance_of_steps ⟨w, h.1, hstep⟩

theorem isDistance_succ : IsDistance R (k + 1) u v ↔
    (∀ j ≤ k, ¬IsDistance R j u v) ∧ ∃ w, IsDistance R k u w ∧ R w v := by
  constructor
  · intro h
    refine ⟨fun j hj hdist ↦ absurd (h.unique hdist) (by omega), ?_⟩
    obtain ⟨w, hw, hone⟩ := h.split
    obtain ⟨_, rfl, hstep⟩ := hone.1
    exact ⟨w, hw, hstep⟩
  · rintro ⟨hnot, w, hw, hstep⟩
    obtain ⟨j, hj, hdist⟩ := hw.step hstep
    obtain rfl | hle : j = k + 1 ∨ j ≤ k := by omega
    · exact hdist
    · exact absurd hdist (hnot j hle)

/-! ## Searching by levels -/

/-- The points up to distance `k`, and those at it. -/
structure Explored (R : α → α → Prop) (u : α) (k : ℕ) (seen frontier : α → Prop) : Prop where
  seen : ∀ v, seen v ↔ ∃ j ≤ k, IsDistance R j u v
  frontier : ∀ v, frontier v ↔ IsDistance R k u v

theorem explored_zero (R : α → α → Prop) (u : α) : Explored R u 0 (· = u) (· = u) where
  seen v := by simp [eq_comm]
  frontier v := by simp [eq_comm]

namespace Explored

variable {seen frontier seen' level : α → Prop}

theorem congr (h : Explored R u k seen frontier) (hseen : ∀ v, seen' v ↔ seen v)
    (hlevel : ∀ v, level v ↔ frontier v) : Explored R u k seen' level where
  seen v := (hseen v).trans (h.seen v)
  frontier v := (hlevel v).trans (h.frontier v)

/-- One level more. -/
theorem next (h : Explored R u k seen frontier)
    (hlevel : ∀ v, level v ↔ ¬seen v ∧ ∃ w, frontier w ∧ R w v)
    (hseen : ∀ v, seen' v ↔ seen v ∨ level v) : Explored R u (k + 1) seen' level := by
  have hdistance : ∀ v, level v ↔ IsDistance R (k + 1) u v := by
    intro v
    rw [hlevel, h.seen, isDistance_succ]
    simp only [h.frontier, not_exists, not_and]
  refine ⟨fun v ↦ ?_, hdistance⟩
  rw [hseen, h.seen, hdistance]
  constructor
  · rintro (⟨j, hj, hdist⟩ | hdist)
    · exact ⟨j, Nat.le_succ_of_le hj, hdist⟩
    · exact ⟨k + 1, le_rfl, hdist⟩
  · rintro ⟨j, hj, hdist⟩
    rcases Nat.le_succ_iff.mp hj with hle | rfl
    · exact Or.inl ⟨j, hle, hdist⟩
    · exact Or.inr hdist

/-- After an empty level nothing new is found. -/
theorem of_empty (h : Explored R u k seen frontier) (hempty : ∀ v, ¬frontier v) :
    Explored R u (k + 1) seen frontier := by
  refine h.next (fun v ↦ ?_) fun v ↦ ?_
  · exact ⟨fun hv ↦ absurd hv (hempty v), fun ⟨_, w, hw, _⟩ ↦ absurd hw (hempty w)⟩
  · exact ⟨Or.inl, fun hv ↦ hv.resolve_right (hempty v)⟩

theorem of_empty_le (h : Explored R u k seen frontier) (hempty : ∀ v, ¬frontier v)
    (hle : k ≤ j) : Explored R u j seen frontier := by
  induction hle with
  | refl => exact h
  | step _ ih => exact ih.of_empty hempty

end Explored

end Khive
