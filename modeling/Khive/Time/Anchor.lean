import Khive.Foundation.Bisection
import Khive.Foundation.Returns
import Khive.Time.Instant

/-!
# Anchoring a date

A date stands for the earliest instant that belongs to it in the configured zone. Where local
midnight exists its earliest instant is the answer; where the clock jumps over midnight, the answer
is the boundary between the previous date and the date, found by bisection on the UTC axis.
-/

namespace Khive

namespace TimeAnchor

open Chrono

/-- `chrono::LocalResult`. -/
inductive LocalResult where
  | none
  | single (dt : NaiveDateTime)
  | ambiguous (earliest latest : NaiveDateTime)

/-- `chrono_tz::Tz`: the offset in force at an instant, in seconds east, and the instants a local
time stands for. An instant of a zone is its UTC time. -/
structure Tz where
  offsetFromUtcDatetime : NaiveDateTime → ℤ
  fromLocalDatetime : NaiveDateTime → LocalResult

def ANCHOR_SEARCH_RADIUS_HOURS : ℤ := 48

def hours (n : ℤ) : ℤ := n * 3600 * nanosPerSecond

def seconds (n : ℤ) : ℤ := n * nanosPerSecond

def anchorSearchWindow (date : NaiveDate) : NaiveDateTime × NaiveDateTime :=
  let midnight := date.midnight
  let radius := hours ANCHOR_SEARCH_RADIUS_HOURS
  ((midnight.checkedSubSigned radius).getD .MIN, (midnight.checkedAddSigned radius).getD .MAX)

/-- The order of the local date at an instant against `date`. Past the ends of the range the sign of
the offset decides. -/
def localDateCmp (tz : Tz) (utc : NaiveDateTime) (date : NaiveDate) : Ordering :=
  let offsetSeconds := tz.offsetFromUtcDatetime utc
  match utc.checkedAddSigned (seconds offsetSeconds) with
  | some localTime => compare localTime.date.day date.day
  | none => if 0 < offsetSeconds then .gt else .lt

/-- A pass of the bisection. The sum panics where it overflows. -/
def bisect (tz : Tz) (date : NaiveDate) :
    NaiveDateTime × NaiveDateTime → Option (Pass (NaiveDateTime × NaiveDateTime) NaiveDateTime)
  | (lo, hi) =>
    if 1 < hi.nanos - lo.nanos then do
      let mid ← lo.checkedAddSigned ((hi.nanos - lo.nanos) / 2)
      if localDateCmp tz mid date = .lt then
        pure (.again (mid, hi))
      else
        pure (.again (lo, mid))
    else
      pure (.leave hi)

def anchorDateToEarliestInstant (passes : ℕ) (date : NaiveDate) (tz : Tz) :
    Option (Option NaiveDateTime) :=
  match tz.fromLocalDatetime date.midnight with
  | .single dt => pure (some dt)
  | .ambiguous earliest _ => pure (some earliest)
  | .none =>
    let (lo, hi) := anchorSearchWindow date
    if localDateCmp tz lo date = .eq then
      pure (some lo)
    else if localDateCmp tz lo date = .gt ∨ localDateCmp tz hi date = .lt then
      pure none
    else do
      let hi ← loop (bisect tz date) passes (lo, hi)
      pure (if localDateCmp tz hi date = .eq then some hi else none)

/-! ## The local calendar -/

namespace Tz

variable (tz : Tz)

/-- The local clock at an instant, which may stand outside of the range. -/
def clock (u : NaiveDateTime) : ℤ := u.nanos + seconds (tz.offsetFromUtcDatetime u)

/-- The day on the local clock. -/
def localDay (u : NaiveDateTime) : ℤ := tz.clock u / nanosPerDay

/-- The instants whose local date is `date`. -/
def instantsOf (date : NaiveDate) : Set NaiveDateTime := {u | tz.localDay u = date.day}

/-- The instants at which the clock reads midnight of `date`. -/
def midnightsOf (date : NaiveDate) : Set NaiveDateTime := {u | tz.clock u = date.midnight.nanos}

/-- `from_local_datetime` answers for midnight as the instants at midnight dictate. -/
def AnswersMidnight (date : NaiveDate) : Prop :=
  match tz.fromLocalDatetime date.midnight with
  | .none => tz.midnightsOf date = ∅
  | .single dt => tz.midnightsOf date = {dt}
  | .ambiguous earliest latest => earliest < latest ∧
      IsLeast (tz.midnightsOf date) earliest ∧ IsGreatest (tz.midnightsOf date) latest

/-- The clock reads midnight of the date for the first time when it has read the date before. -/
def RewindsToMidnight (date : NaiveDate) : Prop :=
  ∃ t, IsLeast (tz.midnightsOf date) t ∧ ∃ u ∈ tz.instantsOf date, u < t

/-- What the anchoring of a date asks of a zone. -/
structure Supports (date : NaiveDate) : Prop where
  offset_lt : ∀ u, |tz.offsetFromUtcDatetime u| < ANCHOR_SEARCH_RADIUS_HOURS * 3600
  answers : tz.AnswersMidnight date
  mono : MonotoneOn tz.localDay (Set.Icc (anchorSearchWindow date).1 (anchorSearchWindow date).2)

end Tz

section Calendar

variable {tz : Tz} {date : NaiveDate} {u t : NaiveDateTime}

theorem mem_instantsOf : u ∈ tz.instantsOf date ↔ tz.localDay u = date.day := Iff.rfl

/-- The order is that of the local days, also where the local time overflows. -/
theorem localDateCmp_eq : localDateCmp tz u date = compare (tz.localDay u) date.day := by
  have hmin := u.min_le
  have hmax := u.le_max
  have hlo := date.min_le
  have hhi := date.le_max
  rw [localDateCmp]
  rcases hsum : u.checkedAddSigned (seconds (tz.offsetFromUtcDatetime u)) with - | localTime
  · have hout := NaiveDateTime.ofNanos?_eq_none.mp hsum
    rw [seconds] at hout
    simp only [Tz.localDay, Tz.clock, seconds, nanosPerDay, nanosPerSecond, minDay, maxDay] at *
    split_ifs with hpos
    · symm
      rw [compare_gt_iff_gt]
      omega
    · symm
      rw [compare_lt_iff_lt]
      omega
  · have hnanos := NaiveDateTime.ofNanos?_eq_some.mp hsum
    rw [Tz.localDay, Tz.clock, ← hnanos]
    rfl

theorem window_fst : (anchorSearchWindow date).1.nanos =
    max (minDay * nanosPerDay) (date.midnight.nanos - hours ANCHOR_SEARCH_RADIUS_HOURS) := by
  have hmax := date.midnight.le_max
  rw [anchorSearchWindow, NaiveDateTime.checkedSubSigned]
  rcases hsub : NaiveDateTime.ofNanos? (date.midnight.nanos - hours ANCHOR_SEARCH_RADIUS_HOURS)
    with - | lo
  · have hout := NaiveDateTime.ofNanos?_eq_none.mp hsub
    refine (max_eq_left ?_).symm
    change _ ≤ minDay * nanosPerDay
    simp only [hours, ANCHOR_SEARCH_RADIUS_HOURS, nanosPerSecond] at hout ⊢
    omega
  · have hlo := NaiveDateTime.ofNanos?_eq_some.mp hsub
    rw [Option.getD_some, ← hlo]
    exact (max_eq_right lo.min_le).symm

theorem window_snd : (anchorSearchWindow date).2.nanos =
    min ((maxDay + 1) * nanosPerDay - 1)
      (date.midnight.nanos + hours ANCHOR_SEARCH_RADIUS_HOURS) := by
  have hmin := date.midnight.min_le
  rw [anchorSearchWindow, NaiveDateTime.checkedAddSigned]
  rcases hadd : NaiveDateTime.ofNanos? (date.midnight.nanos + hours ANCHOR_SEARCH_RADIUS_HOURS)
    with - | hi
  · have hout := NaiveDateTime.ofNanos?_eq_none.mp hadd
    refine (min_eq_left ?_).symm
    change (maxDay + 1) * nanosPerDay - 1 ≤ _
    simp only [hours, ANCHOR_SEARCH_RADIUS_HOURS, nanosPerSecond] at hout ⊢
    omega
  · have hhi := NaiveDateTime.ofNanos?_eq_some.mp hadd
    rw [Option.getD_some, ← hhi]
    exact (min_eq_right (Int.le_sub_one_of_lt hi.le_max)).symm

/-- An instant of the date is no earlier than the window. -/
theorem window_fst_le (hs : tz.Supports date) (hu : u ∈ tz.instantsOf date) :
    (anchorSearchWindow date).1 ≤ u := by
  have hoffset := abs_lt.mp (hs.offset_lt u)
  have hmin := u.min_le
  rw [NaiveDateTime.le_iff, window_fst]
  refine max_le hmin ?_
  simp only [mem_instantsOf, Tz.localDay, Tz.clock, NaiveDate.midnight, hours,
    seconds, ANCHOR_SEARCH_RADIUS_HOURS, nanosPerDay, nanosPerSecond] at *
  omega

/-- An instant of the date after the window has an offset of more than a day to the west. -/
theorem offset_lt_of_window_snd_lt (hu : u ∈ tz.instantsOf date)
    (hlt : (anchorSearchWindow date).2 < u) : tz.offsetFromUtcDatetime u < -86400 := by
  have hmax := u.le_max
  rw [NaiveDateTime.lt_iff, window_snd] at hlt
  rcases min_lt_iff.mp hlt with hafter | hafter
  · exact absurd hmax (by omega)
  · simp only [mem_instantsOf, Tz.localDay, Tz.clock, NaiveDate.midnight, hours,
      seconds, ANCHOR_SEARCH_RADIUS_HOURS, nanosPerDay, nanosPerSecond] at *
    omega

theorem window_le : (anchorSearchWindow date).1 ≤ (anchorSearchWindow date).2 := by
  have hmin := date.midnight.min_le
  have hmax := date.midnight.le_max
  rw [NaiveDateTime.le_iff, window_fst, window_snd]
  simp only [hours, ANCHOR_SEARCH_RADIUS_HOURS, nanosPerDay, nanosPerSecond, minDay, maxDay] at *
  omega

theorem midnightsOf_subset : tz.midnightsOf date ⊆ tz.instantsOf date := by
  intro u hu
  have hclock : tz.clock u = date.day * nanosPerDay := hu
  rw [mem_instantsOf, Tz.localDay, hclock]
  exact Int.mul_ediv_cancel _ (by decide)

end Calendar

/-! ## The bisection -/

/-- What the bisection keeps: between its ends, which stand in the window, the local date comes to
the date. -/
structure Narrowed (tz : Tz) (date : NaiveDate) (s : NaiveDateTime × NaiveDateTime) : Prop where
  bracket : Bracket (fun u ↦ tz.localDay u < date.day) s.1 s.2
  le_fst : (anchorSearchWindow date).1 ≤ s.1
  snd_le : s.2 ≤ (anchorSearchWindow date).2

/-- How often the interval can still be halved. -/
def halvings (s : NaiveDateTime × NaiveDateTime) : ℕ := (s.2.nanos - s.1.nanos - 1).toNat.size

section Bisecting

variable {tz : Tz} {date : NaiveDate} {s : NaiveDateTime × NaiveDateTime} {lo hi : NaiveDateTime}

/-- The sum of the lower end and half the width does not overflow. -/
theorem exists_mid (hwide : 1 < hi.nanos - lo.nanos) :
    Returns (lo.checkedAddSigned ((hi.nanos - lo.nanos) / 2)) fun mid ↦
      mid.nanos = lo.nanos + (hi.nanos - lo.nanos) / 2 := by
  rcases hsum : lo.checkedAddSigned ((hi.nanos - lo.nanos) / 2) with - | mid
  · have hmin := lo.min_le
    have hmax := hi.le_max
    have hout := NaiveDateTime.ofNanos?_eq_none.mp hsum
    omega
  · exact returns_some.mpr (NaiveDateTime.ofNanos?_eq_some.mp hsum)

theorem returns_bisect (h : Narrowed tz date s) :
    Returns (bisect tz date s) (Pass.Satisfies (Narrowed tz date) halvings
      (fun hi ↦ ∃ lo, Narrowed tz date (lo, hi) ∧ ∀ u, lo < u → hi ≤ u) (halvings s)) := by
  obtain ⟨lo, hi⟩ := s
  rw [bisect]
  split_ifs with hwide
  · refine (exists_mid hwide).bind fun mid hmid ↦ ?_
    have hlo : lo < mid := NaiveDateTime.lt_iff.mpr (by omega)
    have hhi : mid < hi := NaiveDateTime.lt_iff.mpr (by omega)
    have hhalf : (((hi.nanos - lo.nanos - 1).toNat) / 2).size < halvings (lo, hi) :=
      size_half_lt (by omega)
    rw [localDateCmp_eq]
    split_ifs with hcmp
    · refine returns_pure.mpr ⟨⟨h.bracket.raise hhi (compare_lt_iff_lt.mp hcmp),
        h.le_fst.trans hlo.le, h.snd_le⟩, lt_of_le_of_lt (Nat.size_le_size ?_) hhalf⟩
      simp only [hmid]
      omega
    · refine returns_pure.mpr ⟨⟨h.bracket.lower hlo fun hlt ↦ hcmp (compare_lt_iff_lt.mpr hlt),
        h.le_fst, hhi.le.trans h.snd_le⟩, lt_of_le_of_lt (Nat.size_le_size ?_) hhalf⟩
      simp only [hmid]
      omega
  · refine returns_pure.mpr ⟨lo, h, fun u hu ↦ ?_⟩
    rw [NaiveDateTime.lt_iff] at hu
    rw [NaiveDateTime.le_iff]
    omega

/-- The window is halved at most 49 times. -/
theorem halvings_window : halvings (anchorSearchWindow date) < 50 := by
  rw [halvings, window_fst, window_snd, Nat.lt_succ_iff, Nat.size_le]
  simp only [hours, ANCHOR_SEARCH_RADIUS_HOURS, nanosPerSecond]
  omega

end Bisecting

/-! ## The earliest instant -/

/-- How a date may be resolved. -/
def Tz.Resolves (tz : Tz) (date : NaiveDate) : Option NaiveDateTime → Prop
  | some t => t ∈ tz.instantsOf date ∧
      (IsLeast (tz.instantsOf date) t ↔ ¬tz.RewindsToMidnight date)
  | none => ∀ u ∈ tz.instantsOf date,
      (anchorSearchWindow date).2 < u ∧ tz.offsetFromUtcDatetime u < -86400

section Resolution

variable {tz : Tz} {date : NaiveDate} {t : NaiveDateTime}

/-- The first midnight is the earliest instant if the clock does not come to it by going back. -/
theorem resolves_midnight (ht : IsLeast (tz.midnightsOf date) t) : tz.Resolves date (some t) := by
  refine ⟨midnightsOf_subset ht.1, ?_⟩
  constructor
  · rintro hleast ⟨t', ht', u, hu, hlt⟩
    rw [ht'.unique ht] at hlt
    exact absurd (hleast.2 hu) (not_le.mpr hlt)
  · intro hrewinds
    refine ⟨midnightsOf_subset ht.1, fun u hu ↦ ?_⟩
    by_contra hle
    exact hrewinds ⟨t, ht, u, hu, not_le.mp hle⟩

/-- Where no instant is at midnight, the earliest instant resolves the date. -/
theorem resolves_of_isLeast (hnone : tz.midnightsOf date = ∅)
    (ht : IsLeast (tz.instantsOf date) t) : tz.Resolves date (some t) := by
  refine ⟨ht.1, iff_of_true ht ?_⟩
  rintro ⟨t', ht', -⟩
  exact absurd ht'.1 (hnone ▸ Set.notMem_empty t')

/-- Nothing resolves a date that no instant of the window has. -/
theorem resolves_none (h : ∀ u ∈ tz.instantsOf date, ¬u ≤ (anchorSearchWindow date).2) :
    tz.Resolves date none := fun u hu ↦
  ⟨not_le.mp (h u hu), offset_lt_of_window_snd_lt hu (not_le.mp (h u hu))⟩

variable (hs : tz.Supports date)
include hs

/-- Instants of the window in the order of their local dates. -/
theorem localDay_le {u v : NaiveDateTime} (hu : (anchorSearchWindow date).1 ≤ u) (huv : u ≤ v)
    (hv : v ≤ (anchorSearchWindow date).2) : tz.localDay u ≤ tz.localDay v :=
  hs.mono ⟨hu, huv.trans hv⟩ ⟨hu.trans huv, hv⟩ huv

/-- The upper end of a bracket with nothing inside answers for the date. -/
theorem resolves_of_narrowed {lo hi : NaiveDateTime} (hnone : tz.midnightsOf date = ∅)
    (h : Narrowed tz date (lo, hi)) (hnext : ∀ u, lo < u → hi ≤ u) :
    tz.Resolves date (if localDateCmp tz hi date = .eq then some hi else none) := by
  have hbelow : ∀ {u}, (anchorSearchWindow date).1 ≤ u → u ≤ (anchorSearchWindow date).2 →
      (tz.localDay u < date.day ↔ u < hi) := fun hu hu' ↦
    h.bracket.below_iff_lt hnext (S := Set.Icc _ _)
      ⟨h.le_fst, h.bracket.lt.le.trans h.snd_le⟩ ⟨h.le_fst.trans h.bracket.lt.le, h.snd_le⟩
      (fun u hu v hv huv hlt ↦ lt_of_le_of_lt (hs.mono hu hv huv) hlt) ⟨hu, hu'⟩
  rw [localDateCmp_eq]
  split_ifs with hcmp
  · refine resolves_of_isLeast hnone ⟨compare_eq_iff_eq.mp hcmp, fun u hu ↦ ?_⟩
    by_contra hle
    have hlt := not_le.mp hle
    have hday := (hbelow (window_fst_le hs hu) (hlt.le.trans h.snd_le)).mpr hlt
    exact absurd (mem_instantsOf.mp hu) hday.ne
  · refine resolves_none fun u hu hle ↦ hcmp ?_
    have hhi : hi ≤ u := by
      by_contra hlt
      have hday := (hbelow (window_fst_le hs hu) hle).mpr (not_le.mp hlt)
      exact absurd (mem_instantsOf.mp hu) hday.ne
    -- the date is reached at `hi` and not passed there
    have hday := localDay_le hs (h.le_fst.trans h.bracket.lt.le) hhi hle
    rw [mem_instantsOf.mp hu] at hday
    exact compare_eq_iff_eq.mpr (le_antisymm hday (not_lt.mp h.bracket.not_below_hi))

end Resolution

/-- Anchoring a date answers with an instant of the date, which is the earliest one unless the clock
goes back to a midnight it had not read before, and it answers with nothing only where no instant up
to the end of the window has the date, and a later one only more than a day west of UTC. -/
theorem anchorDateToEarliestInstant_spec {tz : Tz} {date : NaiveDate} (hs : tz.Supports date)
    {passes : ℕ} (hpasses : 50 ≤ passes) :
    Returns (anchorDateToEarliestInstant passes date tz) (tz.Resolves date) := by
  have hanswers := hs.answers
  rw [Tz.AnswersMidnight] at hanswers
  rw [anchorDateToEarliestInstant]
  rcases hlocal : tz.fromLocalDatetime date.midnight with - | dt | ⟨earliest, latest⟩
  · rw [hlocal] at hanswers
    simp only [localDateCmp_eq, compare_eq_iff_eq, compare_gt_iff_gt, compare_lt_iff_lt]
    split_ifs with hlo hguard
    · exact returns_pure.mpr (resolves_of_isLeast hanswers ⟨hlo, fun u hu ↦ window_fst_le hs hu⟩)
    · refine returns_pure.mpr (resolves_none fun u hu hle ↦ ?_)
      have hday := mem_instantsOf.mp hu
      rcases hguard with hpast | hearly
      · exact absurd (localDay_le hs le_rfl (window_fst_le hs hu) hle) (by omega)
      · exact absurd (localDay_le hs (window_fst_le hs hu) hle le_rfl) (by omega)
    · have hbelow := lt_of_le_of_ne (not_lt.mp (not_or.mp hguard).1) hlo
      have hnot := (not_or.mp hguard).2
      have hlt : (anchorSearchWindow date).1 < (anchorSearchWindow date).2 := by
        refine lt_of_le_of_ne window_le fun heq ↦ hnot ?_
        rwa [← heq]
      have hstart : Narrowed tz date (anchorSearchWindow date) :=
        ⟨⟨hlt, hbelow, hnot⟩, le_rfl, le_rfl⟩
      refine (returns_loop (fun s hs' ↦ returns_bisect hs') hstart
        (halvings_window.trans_le hpasses)).bind fun hi ⟨lo, hnarrowed, hnext⟩ ↦ ?_
      have hresolves := resolves_of_narrowed hs hanswers hnarrowed hnext
      rw [localDateCmp_eq] at hresolves
      simp only [compare_eq_iff_eq] at hresolves
      exact returns_pure.mpr hresolves
  · rw [hlocal] at hanswers
    refine returns_pure.mpr (resolves_midnight ?_)
    rw [hanswers]
    exact isLeast_singleton
  · rw [hlocal] at hanswers
    exact returns_pure.mpr (resolves_midnight hanswers.2.1)

/-! ## Three zones -/

/-- 1970-01-01. -/
def epochDay : NaiveDate := ⟨0, by decide, by decide⟩

/-- The first date of the calendar. -/
def firstDay : NaiveDate := ⟨minDay, by decide, by decide⟩

/-- A clock that jumps forward an hour at 23:30 before the date. -/
def skippingMidnight : Tz where
  offsetFromUtcDatetime u := if u.nanos < seconds 16200 then -18000 else -14400
  fromLocalDatetime _ := .none

/-- A clock that jumps forward an hour at 23:30 before the date, and an hour later back to
midnight. -/
def rewinding : Tz where
  offsetFromUtcDatetime u :=
    if u.nanos < seconds (-1800) then 0 else if u.nanos < seconds 1800 then 3600 else -1800
  fromLocalDatetime _ := .single ⟨seconds 1800, by decide, by decide⟩

/-- A clock 25 hours to the east, and 47 hours to the west from two days after the first date on. -/
def farWestward : Tz where
  offsetFromUtcDatetime u :=
    if u.nanos ≤ minDay * nanosPerDay + hours 48 then 90000 else -169200
  fromLocalDatetime _ := .none

theorem skippingMidnight_supports : skippingMidnight.Supports epochDay where
  offset_lt u := by
    simp only [skippingMidnight, ANCHOR_SEARCH_RADIUS_HOURS]
    split_ifs
    · decide
    · decide
  answers := by
    refine Set.eq_empty_of_forall_notMem fun u hu ↦ ?_
    have hclock : skippingMidnight.clock u = 0 := hu
    simp only [Tz.clock, skippingMidnight, seconds, nanosPerSecond] at hclock
    split_ifs at hclock <;> omega
  mono u _ v _ huv := by
    rw [NaiveDateTime.le_iff] at huv
    simp only [Tz.localDay, Tz.clock, skippingMidnight, seconds, nanosPerSecond, nanosPerDay]
    split_ifs <;> omega

theorem anchorDateToEarliestInstant_skippingMidnight :
    skippingMidnight.Supports epochDay ∧
      Returns (anchorDateToEarliestInstant 50 epochDay skippingMidnight)
        (skippingMidnight.Resolves epochDay) :=
  ⟨skippingMidnight_supports,
    anchorDateToEarliestInstant_spec skippingMidnight_supports le_rfl⟩

theorem rewinding_supports : rewinding.Supports epochDay where
  offset_lt u := by
    simp only [rewinding, ANCHOR_SEARCH_RADIUS_HOURS]
    split_ifs
    · decide
    · decide
    · decide
  answers := by
    refine Set.eq_singleton_iff_unique_mem.mpr ⟨rfl, fun u hu ↦ NaiveDateTime.ext ?_⟩
    have hclock : rewinding.clock u = 0 := hu
    simp only [Tz.clock, rewinding, seconds, nanosPerSecond] at hclock ⊢
    split_ifs at hclock <;> omega
  mono u _ v _ huv := by
    rw [NaiveDateTime.le_iff] at huv
    simp only [Tz.localDay, Tz.clock, rewinding, seconds, nanosPerSecond, nanosPerDay]
    split_ifs <;> omega

theorem farWestward_supports : farWestward.Supports firstDay where
  offset_lt u := by
    simp only [farWestward, ANCHOR_SEARCH_RADIUS_HOURS]
    split_ifs
    · decide
    · decide
  answers := by
    refine Set.eq_empty_of_forall_notMem fun u hu ↦ ?_
    have hclock : farWestward.clock u = minDay * nanosPerDay := hu
    have hmin := u.min_le
    simp only [Tz.clock, farWestward, hours, seconds, nanosPerSecond] at hclock
    split_ifs at hclock <;> omega
  mono u _ v hv huv := by
    have hsnd : (anchorSearchWindow firstDay).2.nanos = minDay * nanosPerDay + hours 48 := by decide
    have hvle : v.nanos ≤ minDay * nanosPerDay + hours 48 := hsnd ▸ NaiveDateTime.le_iff.mp hv.2
    rw [NaiveDateTime.le_iff] at huv
    simp only [Tz.localDay, Tz.clock, farWestward, if_pos hvle, if_pos (huv.trans hvle)]
    exact Int.ediv_le_ediv (by decide) (by omega)

/-- The midnight the clock goes back to is not the earliest instant of its date, and a date that the
window skips may come after the window, more than a day to the west. -/
theorem anchorDateToEarliestInstant_not_earliest :
    (∃ t, rewinding.Supports epochDay ∧
      anchorDateToEarliestInstant 50 epochDay rewinding = some (some t) ∧
        ¬IsLeast (rewinding.instantsOf epochDay) t) ∧
    farWestward.Supports firstDay ∧
      anchorDateToEarliestInstant 50 firstDay farWestward = some none ∧
        (farWestward.instantsOf firstDay).Nonempty := by
  refine ⟨⟨⟨seconds 1800, by decide, by decide⟩, rewinding_supports, rfl, fun hleast ↦ ?_⟩,
    farWestward_supports, ?_, ?_⟩
  · have hearlier : (⟨seconds 0, by decide, by decide⟩ : NaiveDateTime) ∈
        rewinding.instantsOf epochDay := mem_instantsOf.mpr (by decide)
    exact absurd (hleast.2 hearlier) (by decide)
  · decide
  · exact ⟨⟨minDay * nanosPerDay + hours 49, by decide, by decide⟩, mem_instantsOf.mpr (by decide)⟩

end TimeAnchor

end Khive
