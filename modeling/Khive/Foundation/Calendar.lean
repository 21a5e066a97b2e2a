import Mathlib

/-!
# The Gregorian calendar

Days are counted from 1970-01-01 and months from January of the year zero, both in either
direction. The first days of the months increase, so that every day lies in exactly one month. The
day count takes the year from March to February, which puts the leap day at its end.
-/

namespace Khive

namespace Calendar

def isLeapYear (year : ℤ) : Bool := year % 4 = 0 && (year % 100 ≠ 0 || year % 400 = 0)

/-- The number of days of a month. -/
def daysInMonth (k : ℤ) : ℤ :=
  if k % 12 = 1 then if isLeapYear (k / 12) then 29 else 28
  else if k % 12 = 3 ∨ k % 12 = 5 ∨ k % 12 = 8 ∨ k % 12 = 10 then 30
  else 31

/-- The first day of a month. -/
def monthStart (k : ℤ) : ℤ :=
  365 * ((k - 2) / 12) + (k - 2) / 12 / 4 - (k - 2) / 12 / 100 + (k - 2) / 12 / 400 +
    (153 * ((k - 2) % 12) + 2) / 5 - 719468

/-- The month of a day, found next to the quotient by the mean length of a month. -/
def monthOf (day : ℤ) : ℤ :=
  let k := (day + 719468) * 4800 / 146097 + 2
  if day < monthStart k then k - 1
  else if monthStart (k + 1) ≤ day then k + 1
  else k

theorem isLeapYear_iff {year : ℤ} :
    isLeapYear year = true ↔ year % 4 = 0 ∧ (year % 100 ≠ 0 ∨ year % 400 = 0) := by
  rw [isLeapYear, Bool.and_eq_true, Bool.or_eq_true, decide_eq_true_eq, decide_eq_true_eq,
    decide_eq_true_eq]

/-- The days before a month in a year that starts in March. -/
theorem marchDays_succ {m : ℤ} (hm : 0 ≤ m) (hlt : m < 11) : (153 * (m + 1) + 2) / 5 =
    (153 * m + 2) / 5 + if m = 1 ∨ m = 3 ∨ m = 6 ∨ m = 8 then 30 else 31 := by
  interval_cases m <;> rfl

/-- How many leap years there are up to a year. -/
theorem leapDays_eq (y : ℤ) : y / 4 - y / 100 + y / 400 =
    (y - 1) / 4 - (y - 1) / 100 + (y - 1) / 400 + if isLeapYear y then 1 else 0 := by
  have h₄ : y / 4 = (y - 1) / 4 + if y % 4 = 0 then 1 else 0 := by split_ifs <;> omega
  have h₁₀₀ : y / 100 = (y - 1) / 100 + if y % 100 = 0 then 1 else 0 := by split_ifs <;> omega
  have h₄₀₀ : y / 400 = (y - 1) / 400 + if y % 400 = 0 then 1 else 0 := by split_ifs <;> omega
  have hleap := @isLeapYear_iff y
  rw [h₄, h₁₀₀, h₄₀₀]
  clear h₄ h₁₀₀ h₄₀₀
  generalize (y - 1) / 4 = a, (y - 1) / 100 = b, (y - 1) / 400 = c
  by_cases hyear : isLeapYear y
  · obtain ⟨hfour, hhundred⟩ := hleap.mp hyear
    rw [if_pos hyear, if_pos hfour]
    split_ifs <;> omega
  · rw [if_neg hyear]
    have hnot := mt hleap.mpr hyear
    split_ifs <;> omega

/-- A month ends where the next one starts. -/
theorem monthStart_succ (k : ℤ) : monthStart (k + 1) = monthStart k + daysInMonth k := by
  rw [monthStart, monthStart, daysInMonth]
  split_ifs with hfebruary hyear hshort
  · have hdays := leapDays_eq (k / 12)
    rw [if_pos hyear] at hdays
    rw [show (k + 1 - 2) / 12 = k / 12 by omega, show (k - 2) / 12 = k / 12 - 1 by omega,
      show (k + 1 - 2) % 12 = 0 by omega, show (k - 2) % 12 = 11 by omega,
      show ((153 : ℤ) * 0 + 2) / 5 = 0 from rfl, show ((153 : ℤ) * 11 + 2) / 5 = 337 from rfl]
    linarith
  · have hdays := leapDays_eq (k / 12)
    rw [if_neg hyear] at hdays
    rw [show (k + 1 - 2) / 12 = k / 12 by omega, show (k - 2) / 12 = k / 12 - 1 by omega,
      show (k + 1 - 2) % 12 = 0 by omega, show (k - 2) % 12 = 11 by omega,
      show ((153 : ℤ) * 0 + 2) / 5 = 0 from rfl, show ((153 : ℤ) * 11 + 2) / 5 = 337 from rfl]
    linarith
  · rw [show (k + 1 - 2) / 12 = (k - 2) / 12 by omega]
    have hcount := marchDays_succ (m := (k - 2) % 12) (by omega) (by omega)
    rw [if_pos (by omega)] at hcount
    rw [show (k + 1 - 2) % 12 = (k - 2) % 12 + 1 by omega, hcount]
    linarith
  · rw [show (k + 1 - 2) / 12 = (k - 2) / 12 by omega]
    have hcount := marchDays_succ (m := (k - 2) % 12) (by omega) (by omega)
    rw [if_neg (by omega)] at hcount
    rw [show (k + 1 - 2) % 12 = (k - 2) % 12 + 1 by omega, hcount]
    linarith

theorem le_daysInMonth (k : ℤ) : 28 ≤ daysInMonth k := by
  rw [daysInMonth]
  split_ifs <;> decide

theorem monthStart_lt_succ (k : ℤ) : monthStart k < monthStart (k + 1) := by
  have hdays := le_daysInMonth k
  rw [monthStart_succ]
  omega

theorem monthStart_strictMono : StrictMono monthStart :=
  strictMono_int_of_lt_succ monthStart_lt_succ

/-- The first days lie close to multiples of the mean length. -/
theorem monthStart_bounds (k : ℤ) : 146097 * (k - 2) - 11000 ≤ 4800 * (monthStart k + 719468) ∧
    4800 * (monthStart k + 719468) ≤ 146097 * (k - 2) + 16000 := by
  have hyear : k - 2 = 12 * ((k - 2) / 12) + (k - 2) % 12 := by omega
  have hmonth : 0 ≤ (k - 2) % 12 ∧ (k - 2) % 12 ≤ 11 := by omega
  rw [monthStart]
  generalize (k - 2) / 12 = y at hyear ⊢
  generalize (k - 2) % 12 = m at hyear hmonth ⊢
  -- what the divisions cut off
  have h₄ : y - 3 ≤ 4 * (y / 4) ∧ 4 * (y / 4) ≤ y := by omega
  have h₁₀₀ : y - 99 ≤ 100 * (y / 100) ∧ 100 * (y / 100) ≤ y := by omega
  have h₄₀₀ : y - 399 ≤ 400 * (y / 400) ∧ 400 * (y / 400) ≤ y := by omega
  have h₅ : 153 * m - 2 ≤ 5 * ((153 * m + 2) / 5) ∧ 5 * ((153 * m + 2) / 5) ≤ 153 * m + 2 := by
    omega
  obtain ⟨h₄, h₄'⟩ := h₄
  obtain ⟨h₁₀₀, h₁₀₀'⟩ := h₁₀₀
  obtain ⟨h₄₀₀, h₄₀₀'⟩ := h₄₀₀
  obtain ⟨h₅, h₅'⟩ := h₅
  rw [hyear]
  constructor <;> linarith

/-- A day lies in its month. -/
theorem monthOf_spec (day : ℤ) :
    monthStart (monthOf day) ≤ day ∧ day < monthStart (monthOf day + 1) := by
  rw [monthOf]
  split_ifs with hbefore hafter
  · obtain ⟨-, hle⟩ := monthStart_bounds ((day + 719468) * 4800 / 146097 + 2 - 1)
    rw [Int.sub_add_cancel]
    exact ⟨by omega, hbefore⟩
  · obtain ⟨hle, -⟩ := monthStart_bounds ((day + 719468) * 4800 / 146097 + 2 + 1 + 1)
    exact ⟨hafter, by omega⟩
  · exact ⟨not_lt.mp hbefore, not_le.mp hafter⟩

theorem monthOf_eq {day k : ℤ} (hle : monthStart k ≤ day) (hlt : day < monthStart (k + 1)) :
    monthOf day = k := by
  obtain ⟨hle', hlt'⟩ := monthOf_spec day
  have h₁ := monthStart_strictMono.lt_iff_lt.mp (lt_of_le_of_lt hle hlt')
  have h₂ := monthStart_strictMono.lt_iff_lt.mp (lt_of_le_of_lt hle' hlt)
  omega

/-- A day before a month lies in an earlier month. -/
theorem lt_monthStart_iff {day k : ℤ} : day < monthStart k ↔ monthOf day < k := by
  obtain ⟨hle, hlt⟩ := monthOf_spec day
  constructor
  · intro h
    exact monthStart_strictMono.lt_iff_lt.mp (lt_of_le_of_lt hle h)
  · intro h
    exact hlt.trans_le (monthStart_strictMono.monotone (Int.add_one_le_iff.mpr h))

theorem monthOf_mono : Monotone monthOf := by
  intro day day' hle
  have h := monthStart_strictMono.lt_iff_lt.mp
    (lt_of_le_of_lt ((monthOf_spec day).1.trans hle) (monthOf_spec day').2)
  omega

theorem monthStart_add_le {k k' : ℤ} (h : k ≤ k') : monthStart k + (k' - k) ≤ monthStart k' := by
  induction k', h using Int.leInduction with
  | base => omega
  | succ k' _ ih =>
    have hlt := monthStart_lt_succ k'
    omega

/-- Fewer months pass than days. -/
theorem monthOf_sub_le {day day' : ℤ} (h : day ≤ day') :
    monthOf day' - monthOf day ≤ day' - day := by
  have hlt := (monthOf_spec day).2
  have hle := (monthOf_spec day').1
  rcases (monthOf_mono h).lt_or_eq with hmonth | hmonth
  · have hadd := monthStart_add_le (Int.add_one_le_iff.mpr hmonth)
    omega
  · omega

/-- The day so many months later, at most the last of its month. -/
def addMonths (day : ℤ) (months : ℕ) : ℤ :=
  let k := monthOf day + months
  monthStart k + min (day - monthStart (monthOf day)) (daysInMonth k - 1)

theorem monthOf_addMonths (day : ℤ) (months : ℕ) :
    monthOf (addMonths day months) = monthOf day + months := by
  have hday := (monthOf_spec day).1
  have hpos := le_daysInMonth (monthOf day + months)
  have hsucc := monthStart_succ (monthOf day + months)
  refine monthOf_eq ?_ ?_
  · rw [addMonths]
    omega
  · rw [addMonths]
    omega

@[simp] theorem addMonths_zero (day : ℤ) : addMonths day 0 = day := by
  have hlt := (monthOf_spec day).2
  rw [monthStart_succ] at hlt
  rw [addMonths]
  simp only [Nat.cast_zero, add_zero]
  omega

theorem addMonths_strictMono (day : ℤ) : StrictMono (addMonths day) := by
  intro m n hmn
  by_contra hle
  have hmonth := monthOf_mono (not_lt.mp hle)
  rw [monthOf_addMonths, monthOf_addMonths] at hmonth
  omega

end Calendar

end Khive
