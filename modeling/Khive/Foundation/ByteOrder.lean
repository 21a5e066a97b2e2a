import Khive.Foundation.BinaryCodec

/-!
# The order of bytes

Byte strings compare element by element. Big-endian numbers of one width compare as their values,
and what stands behind parts of one length decides only where these are equal. Flipping the sign bit
moves the signed numbers onto the unsigned ones in their order.
-/

namespace Khive

/-- The lexicographic order of byte strings. -/
def compareBytes (b c : Bytes) : Ordering := compare (b.map UInt8.toNat) (c.map UInt8.toNat)

theorem compareBytes_cons (x y : UInt8) (b c : Bytes) :
    compareBytes (x :: b) (y :: c) = (compare x.toNat y.toNat).then (compareBytes b c) :=
  List.compareLex_cons_cons

theorem compareBytes_append {b c : Bytes} (h : b.length = c.length) (b' c' : Bytes) :
    compareBytes (b ++ b') (c ++ c') = (compareBytes b c).then (compareBytes b' c') := by
  induction b generalizing c with
  | nil =>
    obtain rfl := List.length_eq_zero_iff.mp h.symm
    rfl
  | cons x b ih =>
    obtain ⟨y, c, rfl⟩ := List.exists_cons_of_length_eq_add_one h.symm
    rw [List.cons_append, List.cons_append, compareBytes_cons, compareBytes_cons,
      ih (Nat.succ.inj h), Ordering.then_assoc]

/-- Two numbers compare by their high parts first. -/
theorem compare_mul_add {k a b r s : ℕ} (hr : r < k) (hs : s < k) :
    compare (a * k + r) (b * k + s) = (compare a b).then (compare r s) := by
  have hle : ∀ {a b r s : ℕ}, r < k → a < b → a * k + r < b * k + s := by
    intro a b r s hr hab
    calc
      a * k + r < a * k + k := Nat.add_lt_add_left hr _
      _ = (a + 1) * k := (Nat.succ_mul a k).symm
      _ ≤ b * k := Nat.mul_le_mul_right k hab
      _ ≤ b * k + s := Nat.le_add_right _ _
  rcases lt_trichotomy a b with hab | rfl | hab
  · rw [compare_lt_iff_lt.mpr hab, compare_lt_iff_lt.mpr (hle hr hab)]
    rfl
  · rw [compare_eq_iff_eq.mpr rfl, Ordering.eq_then]
    rcases lt_trichotomy r s with hrs | rfl | hrs
    · rw [compare_lt_iff_lt.mpr hrs, compare_lt_iff_lt.mpr (Nat.add_lt_add_left hrs _)]
    · rw [compare_eq_iff_eq.mpr rfl, compare_eq_iff_eq.mpr rfl]
    · rw [compare_gt_iff_gt.mpr hrs, compare_gt_iff_gt.mpr (Nat.add_lt_add_left hrs _)]
  · rw [compare_gt_iff_gt.mpr hab, compare_gt_iff_gt.mpr (hle hs hab)]
    rfl

/-- Byte strings of one length compare as the numbers they are in base 256. -/
theorem compareBytes_eq {b c : Bytes} (h : b.length = c.length) :
    compareBytes b c = compare (bigEndianValue b) (bigEndianValue c) := by
  induction b using List.reverseRecOn generalizing c with
  | nil =>
    obtain rfl := List.length_eq_zero_iff.mp h.symm
    rfl
  | append_singleton b x ih =>
    obtain ⟨c, y, rfl⟩ : ∃ c' y, c = c' ++ [y] := by
      refine ⟨c.dropLast, c.getLast ?_, (List.dropLast_append_getLast _).symm⟩
      rintro rfl
      simp at h
    have hlength : b.length = c.length := by simpa using h
    have hlast : compareBytes [x] [y] = compare x.toNat y.toNat := by
      rw [compareBytes_cons]
      exact Ordering.then_eq
    rw [compareBytes_append hlength, ih hlength, hlast, bigEndianValue_append,
      bigEndianValue_append, compare_mul_add x.toNat_lt y.toNat_lt]

theorem compareBytes_bigEndian {width m n : ℕ} (hm : m < 256 ^ width) (hn : n < 256 ^ width) :
    compareBytes (bigEndian width m) (bigEndian width n) = compare m n := by
  rw [compareBytes_eq (by rw [length_bigEndian, length_bigEndian]), bigEndianValue_bigEndian hm,
    bigEndianValue_bigEndian hn]

/-! ## The sign bit -/

theorem xor_two_pow_63 {n : ℕ} (h : n < 2 ^ 64) : n ^^^ 2 ^ 63 = (n + 2 ^ 63) % 2 ^ 64 := by
  have hlow : (n ^^^ 2 ^ 63) % 2 ^ 63 = n % 2 ^ 63 := by
    rw [Nat.xor_mod_two_pow, Nat.mod_self, Nat.xor_zero]
  have hhigh : (n ^^^ 2 ^ 63) / 2 ^ 63 = n / 2 ^ 63 ^^^ 1 := by
    rw [Nat.xor_div_two_pow, Nat.div_self (by decide)]
  -- the bit itself is 0 or 1
  have hbit : n / 2 ^ 63 = 0 ∨ n / 2 ^ 63 = 1 := by omega
  rcases hbit with hbit | hbit
  · rw [hbit] at hhigh
    have hone : (0 ^^^ 1 : ℕ) = 1 := rfl
    omega
  · rw [hbit] at hhigh
    have hzero : (1 ^^^ 1 : ℕ) = 0 := rfl
    omega

/-- Flipping the sign bit adds `2⁶³` to the signed value. -/
theorem toNat_flipSign (t : Int64) :
    ((t.toUInt64 ^^^ ((1 : UInt64) <<< (63 : UInt64))).toNat : ℤ) = t.toInt + 2 ^ 63 := by
  have hbits : (t.toUInt64 ^^^ ((1 : UInt64) <<< (63 : UInt64))).toNat =
      t.toUInt64.toNat ^^^ 2 ^ 63 := rfl
  have hlt : t.toUInt64.toNat < 2 ^ 64 := t.toUInt64.toNat_lt
  have hint : t.toInt = if 2 * t.toUInt64.toNat < 2 ^ 64 then (t.toUInt64.toNat : ℤ)
      else (t.toUInt64.toNat : ℤ) - 2 ^ 64 := BitVec.toInt_eq_toNat_cond _
  rw [hbits, xor_two_pow_63 hlt, hint]
  split_ifs with h <;> omega

end Khive
