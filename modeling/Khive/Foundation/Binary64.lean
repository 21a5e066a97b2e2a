import Mathlib

/-!
# IEEE 754 binary64

A double is its three fields: sign, biased exponent and trailing fraction. Every finite double is
an integer multiple of `2⁻¹⁰⁷⁴`, the least positive subnormal, so its exact value is the integer
`units`. The two infinities get the integer the field formula gives them, which lies beyond every
finite one; comparisons then need no case distinction except for NaN.

Comparison follows the standard: a NaN is unordered and differs from itself, and the two zeros are
equal. Subtraction computes the exact difference in units and rounds it to nearest, ties to even.
Reading a magnitude `q · 2ˢ` with `q < 2⁵³` as the bit pattern `s · 2⁵² + q` makes the carry out
of the rounding land in the exponent field by itself.
-/

namespace Khive

/-- An IEEE 754 double, by its fields. -/
@[ext] structure Binary64 where
  /-- Set for negative numbers and for the negative zero. -/
  sign : Bool
  /-- The biased exponent; `2047` marks the infinities and the NaNs. -/
  exponent : Fin 2048
  /-- The trailing fraction. -/
  fraction : Fin (2 ^ 52)
deriving DecidableEq

namespace Binary64

/-- `f64::is_nan`. -/
def isNan (a : Binary64) : Bool := a.exponent.val == 2047 && a.fraction.val != 0

/-- `f64::is_finite`. -/
def isFinite (a : Binary64) : Bool := a.exponent.val != 2047

/-- The magnitude in multiples of `2⁻¹⁰⁷⁴`. -/
def magnitude (a : Binary64) : ℕ :=
  if a.exponent.val = 0 then a.fraction.val
  else (2 ^ 52 + a.fraction.val) * 2 ^ (a.exponent.val - 1)

/-- The value in multiples of `2⁻¹⁰⁷⁴`. -/
def units (a : Binary64) : ℤ := if a.sign then -(a.magnitude : ℤ) else a.magnitude

/-! ## Comparison -/

/-- IEEE equality: no NaN equals anything, and the zeros are equal. -/
def eq (a b : Binary64) : Bool := !a.isNan && !b.isNan && a.units == b.units

/-- IEEE `<`. -/
def lt (a b : Binary64) : Bool := !a.isNan && !b.isNan && decide (a.units < b.units)

/-- IEEE `≤`. -/
def le (a b : Binary64) : Bool := !a.isNan && !b.isNan && decide (a.units ≤ b.units)

instance : BEq Binary64 := ⟨eq⟩

theorem beq_iff {a b : Binary64} :
    (a == b) = true ↔ a.isNan = false ∧ b.isNan = false ∧ a.units = b.units := by
  change eq a b = true ↔ _
  simp [eq, and_assoc]

instance : PartialEquivBEq Binary64 where
  symm h := by
    rw [beq_iff] at h ⊢
    exact ⟨h.2.1, h.1, h.2.2.symm⟩
  trans h₁ h₂ := by
    rw [beq_iff] at h₁ h₂ ⊢
    exact ⟨h₁.1, h₂.2.1, h₁.2.2.trans h₂.2.2⟩

theorem isNan_of_isFinite {a : Binary64} (h : a.isFinite = true) : a.isNan = false := by
  simp_all [isFinite, isNan]

/-- A finite double equals itself. -/
theorem beq_self_of_isFinite {a : Binary64} (h : a.isFinite = true) : (a == a) = true := by
  rw [beq_iff]
  exact ⟨isNan_of_isFinite h, isNan_of_isFinite h, rfl⟩

/-- Only numbers equal themselves. -/
theorem lt_irrefl (a : Binary64) : lt a a = false := by
  simp [lt]

/-! ## Constants -/

/-- `0.0`. -/
def zero : Binary64 := ⟨false, 0, 0⟩

/-- `1.0`. -/
def one : Binary64 := ⟨false, 1023, 0⟩

/-- `f64::EPSILON`, that is `2⁻⁵²`. -/
def epsilon : Binary64 := ⟨false, 971, 0⟩

/-- The quiet NaN an invalid operation returns. -/
def nan : Binary64 := ⟨false, 2047, 2 ^ 51⟩

/-- The infinity of the given sign. -/
def infinity (sign : Bool) : Binary64 := ⟨sign, 2047, 0⟩

/-! ## Arithmetic -/

/-- Round-half-to-even division by `2ˢ`. -/
def roundShift (m s : ℕ) : ℕ :=
  let q := m / 2 ^ s
  let r := m % 2 ^ s
  if 2 * r < 2 ^ s then q
  else if 2 ^ s < 2 * r then q + 1
  else q + q % 2

/-- The bit pattern, sign cleared, of the double nearest to `m · 2⁻¹⁰⁷⁴`. -/
def roundBits (m : ℕ) : ℕ :=
  let s := Nat.log 2 m - 52
  s * 2 ^ 52 + roundShift m s

/-- The double nearest to `d · 2⁻¹⁰⁷⁴`, overflowing to an infinity. -/
def ofUnits (d : ℤ) : Binary64 :=
  let n := roundBits d.natAbs
  let sign := decide (d < 0)
  if h : n / 2 ^ 52 < 2047 then
    ⟨sign, ⟨n / 2 ^ 52, Nat.lt_succ_of_lt h⟩, ⟨n % 2 ^ 52, Nat.mod_lt _ (Nat.two_pow_pos 52)⟩⟩
  else infinity sign

/-- `a - b`. -/
def sub (a b : Binary64) : Binary64 :=
  if a.isNan || b.isNan then nan
  else if a.isFinite && b.isFinite then
    -- an exact zero is positive, except `-0 - +0`
    if a.units = b.units then { zero with sign := a.sign && !b.sign }
    else ofUnits (a.units - b.units)
  else if b.isFinite then a
  else if a.isFinite then infinity (!b.sign)
  else if a.sign = b.sign then nan else a

/-- `f64::abs`. -/
def abs (a : Binary64) : Binary64 := { a with sign := false }

/-- `f64::max`: a NaN operand is ignored. -/
def max (a b : Binary64) : Binary64 :=
  if a.isNan then b else if b.isNan then a else if lt a b then b else a

theorem sub_self {a : Binary64} (h : a.isFinite = true) : sub a a = zero := by
  rw [sub, if_neg (by simp [isNan_of_isFinite h]), if_pos (by simp [h]), if_pos rfl,
    Bool.and_not_self]
  rfl

theorem abs_zero_lt_epsilon : lt (abs zero) epsilon = true := by
  decide +kernel

theorem max_self (a : Binary64) : max a a = a := by
  simp [max, lt_irrefl]

theorem max_eq_or (a b : Binary64) : max a b = a ∨ max a b = b := by
  unfold max
  split
  · exact Or.inr rfl
  · split
    · exact Or.inl rfl
    · split
      · exact Or.inr rfl
      · exact Or.inl rfl

theorem isFinite_max {a b : Binary64} (ha : a.isFinite = true) (hb : b.isFinite = true) :
    (max a b).isFinite = true := by
  rcases max_eq_or a b with h | h <;> rw [h] <;> assumption

end Binary64

end Khive
