import Khive.Time.Repeat

/-!
# Series

The occurrences of a recurrence form a series: the anchor plus so many intervals, or plus so many
months. Both ways of advancing find their place in it. The one gives the last element that is not
after an instant, and the other the next one, wherever it can be represented.
-/

namespace Khive

namespace Schedule

open Chrono

variable {Cron : Type} {lib : Libraries Cron}

namespace Repeat

/-- The interval of the forms that have one. -/
def interval : Repeat Cron → Option ℤ
  | .daily => some nanosPerDay
  | .weekly => some (7 * nanosPerDay)
  | .every interval => some interval
  | .monthly => none
  | .cron _ => none

/-- The occurrences, in nanoseconds, wherever they lie. -/
def series (r : Repeat Cron) (anchor : NaiveDateTime) (n : ℕ) : ℤ :=
  match r.interval with
  | some interval => anchor.nanos + n * interval
  | none => addMonths anchor n

/-- Enough passes for the loops between two instants. -/
def passesFor (current now : NaiveDateTime) : ℕ :=
  ((now.nanos - current.nanos) / nanosPerDay).toNat + 3

end Repeat

/-! ## What the parser accepts -/

/-- An interval of a whole number of seconds, of which there is at least one. -/
structure WholeSeconds (interval seconds : ℤ) : Prop where
  eq : interval = seconds * nanosPerSecond
  pos : 1 ≤ seconds
  le : seconds ≤ i64Max / 1000

theorem trySeconds_eq_some {seconds interval : ℤ} (h : trySeconds seconds = some interval) :
    interval = seconds * nanosPerSecond ∧ -(i64Max / 1000) ≤ seconds ∧
      seconds ≤ i64Max / 1000 := by
  rw [trySeconds] at h
  split_ifs at h with hrange
  exact ⟨(Option.some.inj h).symm, hrange⟩

theorem checkedI64_eq_some {n m : ℤ} (h : checkedI64 n = some m) : m = n := by
  rw [checkedI64] at h
  split_ifs at h
  exact (Option.some.inj h).symm

theorem unitSeconds_pos {unit : List Char} {perUnit : ℤ} (h : unitSeconds unit = some perUnit) :
    1 ≤ perUnit := by
  rw [unitSeconds] at h
  split_ifs at h <;> cases h <;> decide

theorem parseEvery_wholeSeconds {spec : List Char} {interval : ℤ}
    (h : parseEvery lib spec = .ok interval) : ∃ seconds, WholeSeconds interval seconds := by
  rw [parseEvery] at h
  split at h
  · cases h
  · rename_i n hn
    split at h
    · cases h
    · rename_i perUnit hunit
      split at h
      · cases h
      · rename_i interval' hinterval
        obtain rfl := Except.ok.inj h
        obtain ⟨seconds, hchecked, htry⟩ := Option.bind_eq_some_iff.mp hinterval
        obtain ⟨heq, -, hle⟩ := trySeconds_eq_some htry
        have hpos : 1 ≤ n := by simpa using (Option.filter_eq_some_iff.mp hn).2
        have hunitPos := unitSeconds_pos hunit
        refine ⟨seconds, heq, ?_, hle⟩
        rw [checkedI64_eq_some hchecked]
        nlinarith

theorem parseCron_eq_ok {text : List Char} {r : Repeat Cron} (h : parseCron lib text = .ok r) :
    ∃ expression, r = .cron expression := by
  rw [parseCron] at h
  split at h
  · cases h
  · rename_i expression _
    split at h
    · cases h
    · cases h
    · exact ⟨expression, (Except.ok.inj h).symm⟩

/-- Every form that is accepted and has an interval has one of whole seconds. -/
theorem parseRepeat_wholeSeconds {text : List Char} {r : Repeat Cron}
    (h : parseRepeat lib text = .ok r) {interval : ℤ} (hinterval : r.interval = some interval) :
    ∃ seconds, WholeSeconds interval seconds := by
  cases r with
  | daily =>
    obtain rfl := Option.some.inj hinterval
    exact ⟨86400, rfl, by decide, by decide⟩
  | weekly =>
    obtain rfl := Option.some.inj hinterval
    exact ⟨604800, by decide, by decide, by decide⟩
  | monthly => cases hinterval
  | cron expression => cases hinterval
  | every interval' =>
    obtain rfl := Option.some.inj hinterval
    rw [parseRepeat] at h
    split_ifs at h with hdaily hweekly hmonthly hevery hcron
    · cases h
    · cases h
    · cases h
    · split at h
      · rename_i interval hspec
        cases h
        exact parseEvery_wholeSeconds hspec
      · cases h
    · obtain ⟨expression, hr⟩ := parseCron_eq_ok h
      cases hr

/-! ## Intervals -/

/-- How many whole intervals pass between two instants. -/
def passed (interval : ℤ) (current now : NaiveDateTime) : ℕ :=
  ((now.nanos - current.nanos) / interval).toNat

section Intervals

variable {interval seconds : ℤ} {current now : NaiveDateTime}

theorem WholeSeconds.interval_pos (h : WholeSeconds interval seconds) : 0 < interval := by
  have hpos := h.pos
  rw [h.eq, nanosPerSecond]
  omega

/-- Two instants are less than the calendar apart. -/
theorem sub_nanos_lt (current now : NaiveDateTime) :
    now.nanos - current.nanos < (maxDay + 1 - minDay) * nanosPerDay := by
  have hmin := current.min_le
  have hmax := now.le_max
  rw [Int.sub_mul]
  omega

theorem coe_passed (hpos : 0 < interval) (hle : current ≤ now) :
    (passed interval current now : ℤ) = (now.nanos - current.nanos) / interval :=
  Int.toNat_of_nonneg (Int.ediv_nonneg (sub_nonneg.mpr hle) hpos.le)

/-- The last interval that has passed ends no later, and the next one later. -/
theorem passed_spec (hpos : 0 < interval) (hle : current ≤ now) :
    current.nanos + passed interval current now * interval ≤ now.nanos ∧
      now.nanos < current.nanos + (passed interval current now + 1) * interval := by
  have hfloor := Int.ediv_mul_le (now.nanos - current.nanos) hpos.ne'
  have hnext := Int.lt_ediv_add_one_mul_self (now.nanos - current.nanos) hpos
  rw [coe_passed hpos hle]
  omega

/-- An instant within the calendar is represented. -/
theorem checkedAddSigned_of_le {duration : ℤ} (hpos : 0 ≤ duration)
    (hle : current.nanos + duration ≤ now.nanos) : ∃ t,
      current.checkedAddSigned duration = some t ∧ t.nanos = current.nanos + duration := by
  have hmin := current.min_le
  have hmax := now.le_max
  rcases hadd : current.checkedAddSigned duration with - | t
  · have hout := NaiveDateTime.ofNanos?_eq_none.mp hadd
    omega
  · exact ⟨t, rfl, NaiveDateTime.ofNanos?_eq_some.mp hadd⟩

/-- Counting in whole seconds, the intervals that have passed. -/
theorem latestInterval_eq (h : WholeSeconds interval seconds) (hle : current ≤ now) : ∃ t,
    Repeat.latestInterval seconds current now = some t ∧
      t.nanos = current.nanos + passed interval current now * interval := by
  have hpos := h.pos
  have helapsed : 0 ≤ now.nanos - current.nanos := sub_nonneg.mpr hle
  have hsteps : (numSeconds (now.nanos - current.nanos)).tdiv seconds =
      passed interval current now := by
    rw [coe_passed h.interval_pos hle, numSeconds, Int.tdiv_eq_ediv_of_nonneg helapsed,
      Int.tdiv_eq_ediv_of_nonneg (Int.ediv_nonneg helapsed (by decide)),
      Int.ediv_ediv_of_nonneg (by decide), h.eq, Int.mul_comm]
  have hspec := (passed_spec h.interval_pos hle).1
  have hbound := sub_nanos_lt current now
  generalize passed interval current now = n at hsteps hspec ⊢
  have hmul : (n : ℤ) * interval = seconds * n * nanosPerSecond := by
    rw [h.eq]
    ring
  have hnonneg : 0 ≤ seconds * n := Int.mul_nonneg (by omega) (by omega)
  rw [hmul] at hspec ⊢
  -- the sum stays before `now`, so no checked operation of the source fails
  have hchecked : checkedI64 (seconds * n) = some (seconds * n) := by
    rw [checkedI64, if_pos]
    simp only [i64Max, nanosPerSecond, nanosPerDay, minDay, maxDay] at *
    omega
  have htry : trySeconds (seconds * n) = some (seconds * n * nanosPerSecond) := by
    rw [trySeconds, if_pos]
    simp only [i64Max, nanosPerSecond, nanosPerDay, minDay, maxDay] at *
    omega
  obtain ⟨t, hadd, ht⟩ := checkedAddSigned_of_le (Int.mul_nonneg hnonneg (by decide)) hspec
  refine ⟨t, ?_, ht⟩
  rw [Repeat.latestInterval, if_neg (by omega), hsteps]
  exact Option.bind_eq_some_iff.mpr ⟨_, hchecked, Option.bind_eq_some_iff.mpr ⟨_, htry, hadd⟩⟩

/-- Counting in whole milliseconds, one interval more than have passed. -/
theorem firstAfterInterval_eq (h : WholeSeconds interval seconds) (hle : current ≤ now)
    (r : Repeat Cron) : Repeat.firstAfterInterval lib r interval current now =
      some (NaiveDateTime.ofNanos?
        (current.nanos + (passed interval current now + 1) * interval)) := by
  have hpos := h.pos
  have helapsed : 0 ≤ now.nanos - current.nanos := sub_nonneg.mpr hle
  have hstep : max (numMilliseconds interval) 1 = seconds * 1000 := by
    rw [numMilliseconds, h.eq, Int.tdiv_eq_ediv_of_nonneg, nanosPerSecond]
    · omega
    · exact Int.mul_nonneg (by omega) (by decide)
  have hmillis : numMilliseconds (now.nanos - current.nanos) =
      (now.nanos - current.nanos) / 1000000 := Int.tdiv_eq_ediv_of_nonneg helapsed
  have hskipped : ((now.nanos - current.nanos) / 1000000).tdiv (seconds * 1000) =
      passed interval current now := by
    rw [coe_passed h.interval_pos hle,
      Int.tdiv_eq_ediv_of_nonneg (Int.ediv_nonneg helapsed (by decide)),
      Int.ediv_ediv_of_nonneg (by decide), h.eq, nanosPerSecond]
    congr 1
    ring
  rw [Repeat.firstAfterInterval, hstep, hmillis]
  dsimp only
  rw [if_neg (not_lt.mpr (Int.ediv_nonneg helapsed (by decide))), hskipped]
  generalize passed interval current now = n
  have hmul : ((n : ℤ) + 1) * interval = seconds * 1000 * (n + 1) * 1000000 := by
    rw [h.eq, nanosPerSecond]
    ring
  have hnonneg : 0 ≤ seconds * 1000 * ((n : ℤ) + 1) := Int.mul_nonneg (by omega) (by omega)
  rw [hmul]
  generalize seconds * 1000 * ((n : ℤ) + 1) = total at hnonneg ⊢
  rw [checkedI64]
  by_cases hrange : -i64Max - 1 ≤ total ∧ total ≤ i64Max
  · rw [if_pos hrange]
    refine Option.bind_eq_some_iff.mpr ⟨total * 1000000, ?_, rfl⟩
    rw [milliseconds, if_pos]
    exact Int.le_trans (by decide) hnonneg
  · -- beyond `i64` the sum is also beyond the calendar
    rw [if_neg hrange]
    have hmin := current.min_le
    refine congrArg some (NaiveDateTime.ofNanos?_eq_none.mpr (.inr ?_)).symm
    simp only [i64Max, nanosPerSecond, nanosPerDay, minDay, maxDay] at *
    omega

/-- Stepping interval by interval. -/
theorem loop_stepPass {r : Repeat Cron}
    (hnext : ∀ t, r.nextAfter lib t = t.checkedAddSigned interval) (hpos : 0 < interval)
    (hle : current ≤ now) {passes : ℕ} (hpasses : passed interval current now < passes) :
    loop (Repeat.stepPass lib r now) passes current = some (NaiveDateTime.ofNanos?
      (current.nanos + (passed interval current now + 1) * interval)) := by
  obtain ⟨hfloor, hlater⟩ := passed_spec hpos hle
  refine @loop_of_run _ _ _ (fun n t ↦ t.nanos = current.nanos + n * interval)
    (passed interval current now) _ ?_ ?_ 0 current (by simp) (Nat.zero_le _) _ hpasses
  · intro n hn t ht
    have hstep : t.nanos + interval = current.nanos + ((n + 1 : ℕ) : ℤ) * interval := by
      rw [ht]
      push_cast
      ring
    have hreach : ((n + 1 : ℕ) : ℤ) * interval ≤ passed interval current now * interval :=
      Int.mul_le_mul_of_nonneg_right (by omega) hpos.le
    obtain ⟨t', hadd, ht'⟩ := checkedAddSigned_of_le hpos.le
      (show t.nanos + interval ≤ now.nanos by omega)
    refine ⟨t', ?_, ht'.trans hstep⟩
    rw [Repeat.stepPass, hnext, hadd]
    refine if_neg (not_lt.mpr ?_)
    rw [NaiveDateTime.le_iff]
    omega
  · -- the pass behind the last instant that has passed leaves the loop
    intro t ht
    have hstep : t.nanos + interval =
        current.nanos + (passed interval current now + 1) * interval := by
      rw [ht]
      ring
    rw [Repeat.stepPass, hnext, NaiveDateTime.checkedAddSigned, hstep]
    rcases hlast : NaiveDateTime.ofNanos?
      (current.nanos + (passed interval current now + 1) * interval) with - | t'
    · rfl
    · have ht' := NaiveDateTime.ofNanos?_eq_some.mp hlast
      refine if_pos (NaiveDateTime.lt_iff.mpr ?_)
      rwa [ht']

end Intervals

/-! ## Months -/

section Months

variable {current now : NaiveDateTime}

theorem addMonths_ediv (t : NaiveDateTime) (n : ℕ) :
    addMonths t n / nanosPerDay = Calendar.addMonths (t.nanos / nanosPerDay) n := by
  rw [addMonths, nanosPerDay, nanosPerSecond]
  omega

@[simp] theorem addMonths_zero (t : NaiveDateTime) : addMonths t 0 = t.nanos := by
  rw [addMonths, Calendar.addMonths_zero]
  exact Int.ediv_mul_add_emod _ _

theorem addMonths_strictMono (t : NaiveDateTime) : StrictMono (addMonths t) := by
  intro m n hmn
  have hday := Calendar.addMonths_strictMono (t.nanos / nanosPerDay) hmn
  exact Int.add_lt_add_right (Int.mul_lt_mul_of_pos_right hday (by decide)) _

/-- Instants in different months are ordered as the months. -/
theorem lt_of_monthOf_lt {x y : ℤ}
    (h : Calendar.monthOf (x / nanosPerDay) < Calendar.monthOf (y / nanosPerDay)) : x < y := by
  by_contra hle
  have hday : y / nanosPerDay ≤ x / nanosPerDay := Int.ediv_le_ediv (by decide) (not_lt.mp hle)
  exact absurd (Calendar.monthOf_mono hday) (not_le.mpr h)

theorem monthIndex_mono (hle : current ≤ now) : monthIndex current ≤ monthIndex now :=
  Calendar.monthOf_mono (Int.ediv_le_ediv (by decide) hle)

/-- The months between the month of an instant and that of another. -/
def monthsBetween (current now : NaiveDateTime) : ℕ := (monthIndex now - monthIndex current).toNat

/-- How many whole months pass between two instants. -/
def passedMonths (current now : NaiveDateTime) : ℕ :=
  if now.nanos < addMonths current (monthsBetween current now) then monthsBetween current now - 1
  else monthsBetween current now

theorem coe_monthsBetween (hle : current ≤ now) :
    (monthsBetween current now : ℤ) = monthIndex now - monthIndex current :=
  Int.toNat_of_nonneg (sub_nonneg.mpr (monthIndex_mono hle))

theorem monthsBetween_le (hle : current ≤ now) : (monthsBetween current now : ℤ) ≤
    now.nanos / nanosPerDay - current.nanos / nanosPerDay := by
  rw [coe_monthsBetween hle]
  exact Calendar.monthOf_sub_le (Int.ediv_le_ediv (by decide) hle)

theorem monthsBetween_lt (hle : current ≤ now) : monthsBetween current now < 2147483647 := by
  have hmin := current.min_le
  have hmax := now.le_max
  have hbound := monthsBetween_le hle
  simp only [nanosPerDay, nanosPerSecond, minDay, maxDay] at *
  omega

theorem passedMonths_le (current now : NaiveDateTime) :
    passedMonths current now ≤ monthsBetween current now := by
  rw [passedMonths]
  split_ifs
  · exact Nat.sub_le _ _
  · exact le_rfl

/-- The last month that has passed ends no later, and the next one later. -/
theorem passedMonths_spec (hle : current ≤ now) :
    addMonths current (passedMonths current now) ≤ now.nanos ∧
      now.nanos < addMonths current (passedMonths current now + 1) := by
  have hmonth : ∀ n, Calendar.monthOf (addMonths current n / nanosPerDay) =
      monthIndex current + n := fun n ↦ by
    rw [addMonths_ediv, Calendar.monthOf_addMonths]
    rfl
  have hcount := coe_monthsBetween hle
  have hnow : Calendar.monthOf (now.nanos / nanosPerDay) = monthIndex now := rfl
  rw [passedMonths]
  split_ifs with hafter
  · have hpos : 0 < monthsBetween current now := by
      rcases Nat.eq_zero_or_pos (monthsBetween current now) with hzero | hpos
      · rw [hzero, addMonths_zero] at hafter
        exact absurd hafter (not_lt.mpr hle)
      · exact hpos
    rw [Nat.sub_add_cancel hpos]
    refine ⟨(lt_of_monthOf_lt ?_).le, hafter⟩
    rw [hmonth, hnow]
    omega
  · refine ⟨not_lt.mp hafter, lt_of_monthOf_lt ?_⟩
    rw [hmonth, hnow]
    omega

theorem checkedAddMonths_eq {n : ℕ} (hn : n ≤ 2147483647) :
    checkedAddMonths current n = NaiveDateTime.ofNanos? (addMonths current n) := by
  rw [checkedAddMonths, if_pos hn]

/-- A month within the calendar is represented. -/
theorem checkedAddMonths_of_le {n : ℕ} (hle : current ≤ now) (hn : n ≤ monthsBetween current now) :
    ∃ t, checkedAddMonths current n = some t ∧ t.nanos = addMonths current n := by
  have hmin := current.min_le
  have hmax := now.le_max
  have hcount := coe_monthsBetween hle
  rw [checkedAddMonths_eq (hn.trans (monthsBetween_lt hle).le)]
  rcases hadd : NaiveDateTime.ofNanos? (addMonths current n) with - | t
  · exfalso
    rcases NaiveDateTime.ofNanos?_eq_none.mp hadd with hbefore | hafter
    · have hmono := (addMonths_strictMono current).monotone (Nat.zero_le n)
      rw [addMonths_zero] at hmono
      omega
    · -- the calendar ends with a month
      have hend : Calendar.monthStart (262143 * 12) = maxDay + 1 := by decide
      have hlast : Calendar.monthOf (now.nanos / nanosPerDay) <
          Calendar.monthOf (addMonths current n / nanosPerDay) := by
        refine lt_of_lt_of_le (@Calendar.lt_monthStart_iff _ (262143 * 12) |>.mp ?_)
          (not_lt.mp (mt Calendar.lt_monthStart_iff.mpr (not_lt.mpr ?_)))
        · rw [hend]
          exact (Int.ediv_lt_iff_lt_mul (by decide)).mpr hmax
        · rw [hend]
          exact (Int.le_ediv_iff_mul_le (by decide)).mpr hafter
      rw [addMonths_ediv, Calendar.monthOf_addMonths] at hlast
      have hnow : Calendar.monthOf (now.nanos / nanosPerDay) = monthIndex now := rfl
      have hcurrent : Calendar.monthOf (current.nanos / nanosPerDay) = monthIndex current := rfl
      omega
  · exact ⟨t, rfl, NaiveDateTime.ofNanos?_eq_some.mp hadd⟩

/-- The monthly loop. -/
theorem loop_monthlyPass (hle : current ≤ now) {passes : ℕ}
    (hpasses : monthsBetween current now < passes) :
    loop (Repeat.monthlyPass current now) passes 1 =
      some (NaiveDateTime.ofNanos? (addMonths current (passedMonths current now + 1))) := by
  obtain ⟨hfloor, hlater⟩ := passedMonths_spec hle
  have hcount := passedMonths_le current now
  have hbound := monthsBetween_lt hle
  refine @loop_of_run _ _ _ (fun n months ↦ months = n + 1) (passedMonths current now) _ ?_ ?_ 0 1
    rfl (Nat.zero_le _) _ (lt_of_le_of_lt hcount hpasses)
  · rintro n hn _ rfl
    have hwithin : n + 1 ≤ monthsBetween current now := by omega
    obtain ⟨t, hadd, ht⟩ := checkedAddMonths_of_le hle hwithin
    refine ⟨n + 1 + 1, ?_, rfl⟩
    have hreach := (addMonths_strictMono current).monotone (Nat.succ_le_of_lt hn)
    rw [Repeat.monthlyPass, hadd]
    dsimp only
    rw [if_neg, if_pos (by omega)]
    · rfl
    · rw [NaiveDateTime.lt_iff, ht]
      exact not_lt.mpr (hreach.trans hfloor)
  · -- the pass behind the last month that has passed leaves the loop
    rintro _ rfl
    rw [Repeat.monthlyPass, checkedAddMonths_eq (by omega)]
    rcases hlast : NaiveDateTime.ofNanos? (addMonths current (passedMonths current now + 1))
      with - | t
    · rfl
    · have ht := NaiveDateTime.ofNanos?_eq_some.mp hlast
      refine if_pos (NaiveDateTime.lt_iff.mpr ?_)
      rwa [ht]

theorem year_month_sub (current now : NaiveDateTime) : (year now - year current) * 12 + month now -
    month current = monthIndex now - monthIndex current := by
  rw [year, year, month, month]
  omega

/-- The month of the later instant, or the one before. -/
theorem latestMonthly_eq (hle : current ≤ now) : ∃ t,
    Repeat.latestMonthly current current now = some t ∧
      t.nanos = addMonths current (passedMonths current now) := by
  have hmonths : Repeat.u32TryFrom (monthIndex now - monthIndex current) =
      some (monthsBetween current now) := by
    have hbound := monthsBetween_lt hle
    have hcount := coe_monthsBetween hle
    rw [Repeat.u32TryFrom, if_pos (by omega)]
    rfl
  obtain ⟨candidate, hcandidate, heq⟩ := checkedAddMonths_of_le hle le_rfl
  have hstart : ∀ {t : NaiveDateTime} {n : ℕ}, t.nanos = addMonths current n → max t current = t :=
    fun {t n} ht ↦ max_eq_left (NaiveDateTime.le_iff.mpr (by
      rw [ht, ← addMonths_zero current]
      exact (addMonths_strictMono current).monotone (Nat.zero_le n)))
  rw [Repeat.latestMonthly, if_neg (lt_irrefl _), year_month_sub, hmonths, passedMonths]
  by_cases hafter : now.nanos < addMonths current (monthsBetween current now)
  · -- the month of `now` has not come to its day yet, so the one before is the latest
    have hpos : 1 ≤ monthsBetween current now := by
      by_contra hzero
      rw [Nat.lt_one_iff.mp (not_le.mp hzero), addMonths_zero] at hafter
      exact absurd hafter (not_lt.mpr hle)
    obtain ⟨t, ht, hnanos⟩ := checkedAddMonths_of_le hle (Nat.sub_le (monthsBetween current now) 1)
    refine ⟨t, ?_, by rw [if_pos hafter, hnanos]⟩
    refine Option.bind_eq_some_iff.mpr ⟨_, rfl, Option.bind_eq_some_iff.mpr ⟨_, hcandidate, ?_⟩⟩
    rw [if_pos (NaiveDateTime.lt_iff.mpr (heq ▸ hafter)), guard, if_pos hpos]
    exact Option.bind_eq_some_iff.mpr ⟨(), rfl,
      Option.bind_eq_some_iff.mpr ⟨t, ht, congrArg some (hstart hnanos)⟩⟩
  · refine ⟨candidate, ?_, by rw [if_neg hafter, heq]⟩
    refine Option.bind_eq_some_iff.mpr ⟨_, rfl, Option.bind_eq_some_iff.mpr ⟨_, hcandidate, ?_⟩⟩
    rw [if_neg (mt NaiveDateTime.lt_iff.mp (heq ▸ hafter))]
    exact Option.bind_eq_some_iff.mpr ⟨candidate, rfl, congrArg some (hstart heq)⟩

end Months

/-! ## Both ways of advancing -/

namespace Repeat

section Advancing

variable {r : Repeat Cron} {current now : NaiveDateTime}

/-- What the parser guarantees of the forms other than cron. -/
structure Advances (r : Repeat Cron) : Prop where
  wholeSeconds : ∀ interval, r.interval = some interval → ∃ seconds, WholeSeconds interval seconds
  not_cron : ∀ expression, r ≠ .cron expression

/-- The place of the last element that is not after `now`. -/
def place (r : Repeat Cron) (current now : NaiveDateTime) : ℕ :=
  match r.interval with
  | some interval => passed interval current now
  | none => passedMonths current now

theorem series_of_interval {interval : ℤ} (h : r.interval = some interval) (n : ℕ) :
    r.series current n = current.nanos + n * interval := by
  rw [series, h]

theorem series_strictMono (h : r.Advances) : StrictMono (r.series current) := by
  rcases hinterval : r.interval with - | interval
  · have hseries : r.series current = addMonths current := funext fun n ↦ by rw [series, hinterval]
    rw [hseries]
    exact addMonths_strictMono current
  · obtain ⟨seconds, hwhole⟩ := h.wholeSeconds interval hinterval
    intro m n hmn
    rw [series_of_interval hinterval, series_of_interval hinterval]
    exact Int.add_lt_add_left
      (Int.mul_lt_mul_of_pos_right (Int.ofNat_lt.mpr hmn) hwhole.interval_pos) _

theorem place_spec (h : r.Advances) (hle : current ≤ now) :
    r.series current (r.place current now) ≤ now.nanos ∧
      now.nanos < r.series current (r.place current now + 1) := by
  rcases hinterval : r.interval with - | interval
  · rw [series, series, place, hinterval]
    exact passedMonths_spec hle
  · obtain ⟨seconds, hwhole⟩ := h.wholeSeconds interval hinterval
    rw [series_of_interval hinterval, series_of_interval hinterval, place, hinterval]
    exact passed_spec hwhole.interval_pos hle

theorem latestAtOrBefore_eq (h : r.Advances) (hle : current ≤ now) : ∃ t,
    r.latestAtOrBefore lib current now (some current) = some t ∧
      t.nanos = r.series current (r.place current now) := by
  unfold latestAtOrBefore
  rw [if_neg (not_lt.mpr hle)]
  cases r with
  | daily => exact latestInterval_eq ⟨rfl, by decide, by decide⟩ hle
  | weekly => exact latestInterval_eq ⟨by decide, by decide, by decide⟩ hle
  | monthly => exact latestMonthly_eq hle
  | every interval =>
    obtain ⟨seconds, hwhole⟩ := h.wholeSeconds interval rfl
    have hnum : numSeconds interval = seconds := by
      rw [numSeconds, hwhole.eq]
      exact Int.mul_tdiv_cancel _ (by decide)
    have htry : trySeconds seconds = some interval := by
      have hpos := hwhole.pos
      rw [trySeconds, if_pos ⟨by rw [i64Max]; omega, hwhole.le⟩, hwhole.eq]
    dsimp only
    rw [hnum, if_neg (not_not.mpr htry)]
    exact latestInterval_eq hwhole hle
  | cron expression => exact absurd rfl (h.not_cron expression)

/-- Within the passes that are enough, the element behind the place is found. -/
theorem firstAfter_eq (h : r.Advances) (hle : current ≤ now) {passes : ℕ}
    (hpasses : passesFor current now ≤ passes) : r.firstAfter lib passes current now =
      some (NaiveDateTime.ofNanos? (r.series current (r.place current now + 1))) := by
  have hnonneg : 0 ≤ now.nanos - current.nanos := sub_nonneg.mpr hle
  rw [passesFor] at hpasses
  unfold firstAfter
  cases r with
  | daily =>
    refine loop_stepPass (fun _ ↦ rfl) (by decide) hle ?_
    rw [passed]
    omega
  | weekly =>
    refine loop_stepPass (fun _ ↦ rfl) (by decide) hle ?_
    rw [passed]
    simp only [nanosPerDay, nanosPerSecond] at hpasses ⊢
    omega
  | monthly =>
    refine loop_monthlyPass hle ?_
    have hbetween := monthsBetween_le hle
    simp only [nanosPerDay, nanosPerSecond] at hpasses hbetween
    omega
  | every interval =>
    obtain ⟨seconds, hwhole⟩ := h.wholeSeconds interval rfl
    exact firstAfterInterval_eq hwhole hle _
  | cron expression => exact absurd rfl (h.not_cron expression)

/-- An element of the series that is not after `now` has the same element to advance to. -/
theorem series_of_mem {interval seconds : ℤ} (hinterval : r.interval = some interval)
    (hwhole : WholeSeconds interval seconds) {element : NaiveDateTime} {n : ℕ}
    (helement : r.series current n = element.nanos) (hle : element ≤ now) (hstart : current ≤ now) :
    r.series element (r.place element now + 1) = r.series current (r.place current now + 1) := by
  have hpos := hwhole.interval_pos
  have hplace : ∀ t : NaiveDateTime, r.place t now = passed interval t now := fun t ↦ by
    rw [place, hinterval]
  rw [series_of_interval hinterval] at helement
  rw [hplace, hplace, series_of_interval hinterval, series_of_interval hinterval, Nat.cast_succ,
    Nat.cast_succ, coe_passed hpos hle, coe_passed hpos hstart, ← helement, ← Int.sub_sub,
    Int.sub_mul_ediv_right _ _ hpos.ne']
  ring

end Advancing

end Repeat

/-- No cron at all. -/
def noCron : Libraries Unit where
  unprintable _ := false
  cronFromStr _ := .error "no cron"
  hourMatch _ _ := .error "no cron"
  minuteMatch _ _ := .error "no cron"
  secondMatch _ _ := .error "no cron"
  yearMatch _ _ := .error "no cron"
  monthMatch _ _ := .error "no cron"
  isTimeMatching _ _ := .error "no cron"
  findNextOccurrence _ _ _ := none
  findPreviousOccurrence _ _ _ := none

/-- 2024-01-31T00:00:00. -/
def january : NaiveDateTime := ⟨19753 * nanosPerDay, by decide, by decide⟩

/-- 2024-03-15T00:00:00. -/
def march : NaiveDateTime := ⟨19797 * nanosPerDay, by decide, by decide⟩

-- 2024-02-29 and 2024-03-31
example : (Repeat.monthly.latestAtOrBefore noCron january march (some january)).map (·.nanos) =
      some (19782 * nanosPerDay) ∧
    (Repeat.monthly.firstAfter noCron 47 january march).map (·.map (·.nanos)) =
      some (some (19813 * nanosPerDay)) := by
  decide

end Schedule

end Khive
