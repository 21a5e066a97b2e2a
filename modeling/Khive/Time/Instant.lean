import Mathlib

/-!
# Dates and times without a zone

`chrono`'s naive dates and times, counted from the epoch. Both have a first and a last value, and
the checked operations give nothing outside of them.
-/

namespace Khive

namespace Chrono

def nanosPerSecond : ℤ := 1000000000

def nanosPerDay : ℤ := 86400 * nanosPerSecond

/-- The day of -262143-01-01. -/
def minDay : ℤ := -96465292

/-- The day of 262142-12-31. -/
def maxDay : ℤ := 95026236

/-- `chrono::NaiveDate`, as days since 1970-01-01. -/
@[ext] structure NaiveDate where
  day : ℤ
  min_le : minDay ≤ day
  le_max : day ≤ maxDay
deriving DecidableEq

/-- `chrono::NaiveDateTime`, as nanoseconds since 1970-01-01T00:00:00. -/
@[ext] structure NaiveDateTime where
  nanos : ℤ
  min_le : minDay * nanosPerDay ≤ nanos
  le_max : nanos < (maxDay + 1) * nanosPerDay
deriving DecidableEq

instance : LinearOrder NaiveDateTime :=
  LinearOrder.lift' NaiveDateTime.nanos fun _ _ ↦ NaiveDateTime.ext

/-- `and_hms_opt(0, 0, 0)`, which every date has. -/
def NaiveDate.midnight (date : NaiveDate) : NaiveDateTime where
  nanos := date.day * nanosPerDay
  min_le := Int.mul_le_mul_of_nonneg_right date.min_le (by decide)
  le_max := Int.mul_lt_mul_of_pos_right (Int.lt_add_one_of_le date.le_max) (by decide)

namespace NaiveDateTime

theorem le_iff {t u : NaiveDateTime} : t ≤ u ↔ t.nanos ≤ u.nanos := Iff.rfl

theorem lt_iff {t u : NaiveDateTime} : t < u ↔ t.nanos < u.nanos := Iff.rfl

/-- The first instant, `NaiveDateTime::MIN`. -/
def MIN : NaiveDateTime := ⟨minDay * nanosPerDay, le_refl _, by decide⟩

/-- The last instant, `NaiveDateTime::MAX`. -/
def MAX : NaiveDateTime := ⟨(maxDay + 1) * nanosPerDay - 1, by decide, by decide⟩

def date (t : NaiveDateTime) : NaiveDate where
  day := t.nanos / nanosPerDay
  min_le := (Int.le_ediv_iff_mul_le (by decide)).mpr t.min_le
  le_max := Int.le_of_lt_add_one ((Int.ediv_lt_iff_lt_mul (by decide)).mpr t.le_max)

def ofNanos? (nanos : ℤ) : Option NaiveDateTime :=
  if h : minDay * nanosPerDay ≤ nanos ∧ nanos < (maxDay + 1) * nanosPerDay then
    some ⟨nanos, h.1, h.2⟩
  else none

/-- A duration is its nanoseconds. -/
def checkedAddSigned (t : NaiveDateTime) (duration : ℤ) : Option NaiveDateTime :=
  ofNanos? (t.nanos + duration)

def checkedSubSigned (t : NaiveDateTime) (duration : ℤ) : Option NaiveDateTime :=
  ofNanos? (t.nanos - duration)

theorem ofNanos?_eq_some {n : ℤ} {t : NaiveDateTime} : ofNanos? n = some t ↔ t.nanos = n := by
  rw [ofNanos?]
  split_ifs with h
  · rw [Option.some.injEq, NaiveDateTime.ext_iff, eq_comm]
  · refine iff_of_false not_false ?_
    rintro rfl
    exact h ⟨t.min_le, t.le_max⟩

theorem ofNanos?_eq_none {n : ℤ} :
    ofNanos? n = none ↔ n < minDay * nanosPerDay ∨ (maxDay + 1) * nanosPerDay ≤ n := by
  rw [ofNanos?]
  split_ifs with h
  · refine iff_of_false not_false ?_
    rintro (hlt | hle)
    · exact absurd h.1 (not_le.mpr hlt)
    · exact absurd h.2 (not_lt.mpr hle)
  · refine iff_of_true rfl ?_
    by_contra hnot
    exact h ⟨not_lt.mp fun hlt ↦ hnot (.inl hlt), not_le.mp fun hle ↦ hnot (.inr hle)⟩

end NaiveDateTime

end Chrono

end Khive
