import Mathlib

/-!
# Bisection

A bisection keeps a bracket: an upper end that has passed the boundary, and a lower end that has
not. Looking between the ends gives a tighter bracket, and a bracket with nothing between its ends
stands at the boundary. The number of halvings is the number of binary digits of the width.
-/

namespace Khive

variable {α : Type} [LinearOrder α] {below : α → Prop} {lo hi mid : α}

/-- The boundary of `below` lies above `lo` and not above `hi`. -/
structure Bracket (below : α → Prop) (lo hi : α) : Prop where
  lt : lo < hi
  below_lo : below lo
  not_below_hi : ¬below hi

namespace Bracket

theorem raise (h : Bracket below lo hi) (hmid : mid < hi) (hb : below mid) :
    Bracket below mid hi := ⟨hmid, hb, h.not_below_hi⟩

theorem lower (h : Bracket below lo hi) (hmid : lo < mid) (hb : ¬below mid) :
    Bracket below lo mid := ⟨hmid, h.below_lo, hb⟩

/-- With nothing between the ends, everything under the upper end is below the boundary. -/
theorem below_iff_lt (h : Bracket below lo hi) (hnone : ∀ u, lo < u → hi ≤ u) {S : Set α}
    (hlo : lo ∈ S) (hhi : hi ∈ S) (hdown : ∀ u ∈ S, ∀ v ∈ S, u ≤ v → below v → below u) {u : α}
    (hu : u ∈ S) : below u ↔ u < hi := by
  constructor
  · intro hb
    by_contra hle
    exact h.not_below_hi (hdown hi hhi u hu (not_lt.mp hle) hb)
  · intro hlt
    refine hdown u hu lo hlo ?_ h.below_lo
    by_contra hgt
    exact absurd (hnone u (not_le.mp hgt)) (not_le.mpr hlt)

end Bracket

/-- Halving takes a binary digit away. -/
theorem size_half_lt {n : ℕ} (h : 0 < n) : (n / 2).size < n.size := by
  obtain ⟨k, hk⟩ := Nat.exists_eq_succ_of_ne_zero (Nat.size_pos.mpr h).ne'
  have hn : n < 2 ^ (k + 1) := Nat.size_le.mp hk.le
  rw [hk, Nat.lt_succ_iff, Nat.size_le]
  rw [pow_succ] at hn
  exact Nat.div_lt_of_lt_mul (by rwa [mul_comm] at hn)

end Khive
