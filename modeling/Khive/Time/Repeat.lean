import Khive.Foundation.Bytes
import Khive.Foundation.Calendar
import Khive.Foundation.Returns
import Khive.Request.Scan
import Khive.Time.Instant

/-!
# Recurrences

A recurrence is parsed once and advanced in two ways: to the first occurrence after an instant, and
to the latest one not after it. Days and weeks are stepped one by one, an interval is stepped in
whole milliseconds at once, and months are counted from the anchor. Cron expressions are matched by
their library; parsing asks it for the dates of one Gregorian cycle.
-/

namespace Khive

namespace Schedule

open Chrono

/-! ## Instants of a calendar -/

section Calendar

/-- `i64::MAX`. -/
def i64Max : ℤ := 9223372036854775807

/-- The results within `i64`. -/
def checkedI64 (n : ℤ) : Option ℤ := if -i64Max - 1 ≤ n ∧ n ≤ i64Max then some n else none

/-- `Duration::try_seconds`: the milliseconds have to be within `i64`. -/
def trySeconds (seconds : ℤ) : Option ℤ :=
  if -(i64Max / 1000) ≤ seconds ∧ seconds ≤ i64Max / 1000 then some (seconds * nanosPerSecond)
  else none

/-- `Duration::milliseconds`, which panics for `i64::MIN`. -/
def milliseconds (n : ℤ) : Option ℤ := if -i64Max ≤ n then some (n * 1000000) else none

/-- `num_seconds`: whole seconds, rounded toward zero. -/
def numSeconds (duration : ℤ) : ℤ := duration.tdiv nanosPerSecond

def numMilliseconds (duration : ℤ) : ℤ := duration.tdiv 1000000

/-- The month of an instant, counted from January of the year zero. -/
def monthIndex (t : NaiveDateTime) : ℤ := Calendar.monthOf (t.nanos / nanosPerDay)

def year (t : NaiveDateTime) : ℤ := monthIndex t / 12

def month (t : NaiveDateTime) : ℤ := monthIndex t % 12 + 1

/-- The instant so many months later, wherever it lies. -/
def addMonths (t : NaiveDateTime) (months : ℕ) : ℤ :=
  Calendar.addMonths (t.nanos / nanosPerDay) months * nanosPerDay + t.nanos % nanosPerDay

def checkedAddMonths (t : NaiveDateTime) (months : ℕ) : Option NaiveDateTime :=
  if months ≤ 2147483647 then NaiveDateTime.ofNanos? (addMonths t months) else none

/-- `from_ymd_opt`: the date, where the month has the day. -/
def fromYmdOpt (year month day : ℕ) : Option NaiveDate :=
  let k : ℤ := 12 * year + month - 1
  let date := Calendar.monthStart k + day - 1
  if h : (1 ≤ month ∧ month ≤ 12 ∧ 1 ≤ day ∧ day ≤ Calendar.daysInMonth k) ∧
      minDay ≤ date ∧ date ≤ maxDay then
    some ⟨date, h.2.1, h.2.2⟩
  else none

/-- `and_hms_opt` with fields in their ranges. -/
def andHms (date : NaiveDate) (hour : Fin 24) (minute second : Fin 60) : NaiveDateTime where
  nanos := date.day * nanosPerDay + ((hour * 60 + minute) * 60 + second : ℕ) * nanosPerSecond
  min_le := by
    have hle := date.min_le
    simp only [nanosPerDay, nanosPerSecond]
    omega
  le_max := by
    have hle := date.le_max
    have hhour := hour.isLt
    have hminute := minute.isLt
    have hsecond := second.isLt
    simp only [nanosPerDay, nanosPerSecond]
    omega

end Calendar

/-! ## Parsing -/

/-- What is left to `croner` and to the standard library. The pattern of an expression is asked for
each field of a time, and the expression for a whole one. -/
structure Libraries (Cron : Type) where
  unprintable : Char → Bool
  cronFromStr : List Char → Except String Cron
  hourMatch : Cron → ℕ → Except String Bool
  minuteMatch : Cron → ℕ → Except String Bool
  secondMatch : Cron → ℕ → Except String Bool
  yearMatch : Cron → ℕ → Except String Bool
  monthMatch : Cron → ℕ → Except String Bool
  isTimeMatching : Cron → NaiveDateTime → Except String Bool
  findNextOccurrence : Cron → NaiveDateTime → Bool → Option NaiveDateTime
  findPreviousOccurrence : Cron → NaiveDateTime → Bool → Option NaiveDateTime

inductive Repeat (Cron : Type) where
  | daily
  | weekly
  | monthly
  | every (interval : ℤ)
  | cron (expression : Cron)

def REPEAT_FORMS : String :=
  "\"daily\", \"weekly\", \"monthly\", \"every:<N><s|m|h|d>\" (an interval from the previous " ++
    "trigger, N >= 1, e.g. \"every:15m\"), or a five-field cron expression in UTC (e.g. " ++
      "\"0 9 * * 1\")"

/-- `str::parse::<i64>`. -/
def parseI64 (s : List Char) : Option ℤ :=
  let (negative, digits) := match s with
    | '-' :: digits => (true, digits)
    | '+' :: digits => (false, digits)
    | digits => (false, digits)
  if digits.isEmpty || !digits.all Char.isDigit then none
  else
    let value : ℤ := digits.foldl (fun n c ↦ 10 * n + (c.toNat - 48)) 0
    checkedI64 (if negative then -value else value)

section Parsing

variable {Cron : Type} (lib : Libraries Cron)

def quote (text : List Char) : String := debugText lib.unprintable text

def unitSeconds (unit : List Char) : Option ℤ :=
  if unit = ['s'] then some 1
  else if unit = ['m'] then some 60
  else if unit = ['h'] then some 3600
  else if unit = ['d'] then some 86400
  else none

def parseEvery (spec : List Char) : Except String ℤ :=
  let digits := spec.rdropWhile Char.isAlpha
  let unit := spec.drop digits.length
  match (parseI64 digits).filter (fun n ↦ 1 ≤ n) with
  | none => .error ("an interval is <N><s|m|h|d> with N >= 1, e.g. \"every:15m\"; got " ++
      quote lib spec)
  | some n =>
    match unitSeconds unit with
    | none => .error ("unknown interval unit " ++ quote lib unit ++ "; use s, m, h or d (got " ++
        quote lib spec ++ ")")
    | some perUnit =>
      match (checkedI64 (n * perUnit)).bind trySeconds with
      | none => .error ("interval " ++ quote lib spec ++ " is out of range")
      | some interval => .ok interval

/-- The first number below the limit that matches, unless an error comes before it. -/
def firstMatching (limit : ℕ) (matching : ℕ → Except String Bool) :
    Except String (Option (Fin limit)) :=
  (List.finRange limit).findM? fun value ↦ matching value

/-- The dates of a month, up to the first day that it does not have. -/
def datesOf (year month : ℕ) : List NaiveDate :=
  (((List.range' 1 31).map (fromYmdOpt year month)).takeWhile Option.isSome).reduceOption

/-- Whether a date of one Gregorian cycle matches, at the first time of day that does. -/
def cronHasOccurrence (cron : Cron) : Except String Bool := do
  let some hour ← firstMatching 24 (lib.hourMatch cron) | return false
  let some minute ← firstMatching 60 (lib.minuteMatch cron) | return false
  let some second ← firstMatching 60 (lib.secondMatch cron) | return false
  (List.range' 2000 400).anyM fun year ↦ do
    if !(← lib.yearMatch cron year) then return false
    (List.range' 1 12).anyM fun month ↦ do
      if !(← lib.monthMatch cron month) then return false
      (datesOf year month).anyM fun date ↦ lib.isTimeMatching cron (andHms date hour minute second)

def parseCron (text : List Char) : Except String (Repeat Cron) :=
  match lib.cronFromStr text with
  | .error e => .error ("invalid repeat expression " ++ quote lib text ++
      ": cron did not parse (" ++ e ++ ")")
  | .ok cron =>
    match cronHasOccurrence lib cron with
    | .error e => .error ("invalid repeat expression " ++ quote lib text ++
        ": cron could not be evaluated (" ++ e ++ ")")
    | .ok false => .error ("invalid repeat expression " ++ quote lib text ++
        ": cron has no occurrence in a Gregorian 400-year cycle")
    | .ok true => .ok (.cron cron)

/-- `split_whitespace`. -/
def splitWhitespace (text : List Char) : List (List Char) :=
  (text.splitOnP isWhitespace).filter fun word ↦ !word.isEmpty

def parseRepeat (text : List Char) : Except String (Repeat Cron) :=
  let text := trim text
  if text = "daily".toList then .ok .daily
  else if text = "weekly".toList then .ok .weekly
  else if text = "monthly".toList then .ok .monthly
  else if "every:".toList.isPrefixOf text then
    match parseEvery lib (text.drop 6) with
    | .ok interval => .ok (.every interval)
    | .error why => .error ("invalid repeat expression " ++ quote lib text ++ ": " ++ why)
  else if (splitWhitespace text).length = 5 then parseCron lib text
  else .error ("invalid repeat expression " ++ quote lib text ++ ": supported forms are " ++
    REPEAT_FORMS)

end Parsing

/-! ## Advancing -/

namespace Repeat

variable {Cron : Type} (lib : Libraries Cron)

/-- The fixed forms of `latest_at_or_before`. -/
def latestInterval (seconds : ℤ) (current now : NaiveDateTime) : Option NaiveDateTime :=
  if seconds ≤ 0 then none
  else do
    let steps := (numSeconds (now.nanos - current.nanos)).tdiv seconds
    let total ← checkedI64 (seconds * steps)
    let advance ← trySeconds total
    current.checkedAddSigned advance

/-- `u32::try_from`. -/
def u32TryFrom (n : ℤ) : Option ℕ := if 0 ≤ n ∧ n < 4294967296 then some n.toNat else none

def latestMonthly (anchor current now : NaiveDateTime) : Option NaiveDateTime :=
  if current < anchor then none
  else do
    let months ← u32TryFrom ((year now - year anchor) * 12 + month now - month anchor)
    let candidate ← checkedAddMonths anchor months
    let latest ←
      if now < candidate then do
        guard (1 ≤ months)
        checkedAddMonths anchor (months - 1)
      else pure candidate
    pure (max latest current)

def latestAtOrBefore (r : Repeat Cron) (current now : NaiveDateTime)
    (monthlyAnchor : Option NaiveDateTime) : Option NaiveDateTime :=
  if now < current then none
  else match r with
    | .daily => latestInterval 86400 current now
    | .weekly => latestInterval 604800 current now
    | .every interval =>
      if trySeconds (numSeconds interval) ≠ some interval then none
      else latestInterval (numSeconds interval) current now
    | .monthly => latestMonthly (monthlyAnchor.getD current) current now
    | .cron expression => (lib.findPreviousOccurrence expression now true).map (max · current)

def nextAfter (r : Repeat Cron) (current : NaiveDateTime) : Option NaiveDateTime :=
  match r with
  | .daily => current.checkedAddSigned nanosPerDay
  | .weekly => current.checkedAddSigned (7 * nanosPerDay)
  | .monthly => checkedAddMonths current 1
  | .every interval => current.checkedAddSigned interval
  | .cron expression => lib.findNextOccurrence expression current false

/-- The interval form of `first_after`. -/
def firstAfterInterval (r : Repeat Cron) (interval : ℤ) (current now : NaiveDateTime) :
    Option (Option NaiveDateTime) :=
  let step := max (numMilliseconds interval) 1
  let elapsed := numMilliseconds (now.nanos - current.nanos)
  if elapsed < 0 then pure (r.nextAfter lib current)
  else
    let skipped := elapsed.tdiv step + 1
    match checkedI64 (step * skipped) with
    | none => pure none
    | some total => do
      let advance ← milliseconds total
      pure (current.checkedAddSigned advance)

/-- A pass of the monthly loop of `first_after`. -/
def monthlyPass (current now : NaiveDateTime) (months : ℕ) :
    Option (Pass ℕ (Option NaiveDateTime)) :=
  match checkedAddMonths current months with
  | none => pure (.leave none)
  | some next =>
    if now < next then pure (.leave (some next))
    else if months + 1 < 4294967296 then pure (.again (months + 1))
    else pure (.leave none)

/-- A pass of the daily and weekly loop of `first_after`. -/
def stepPass (r : Repeat Cron) (now current : NaiveDateTime) :
    Option (Pass NaiveDateTime (Option NaiveDateTime)) :=
  match r.nextAfter lib current with
  | none => pure (.leave none)
  | some next => if now < next then pure (.leave (some next)) else pure (.again next)

def firstAfter (passes : ℕ) (r : Repeat Cron) (current now : NaiveDateTime) :
    Option (Option NaiveDateTime) :=
  match r with
  | .every interval => firstAfterInterval lib (.every interval) interval current now
  | .cron expression => pure (lib.findNextOccurrence expression now false)
  | .monthly => loop (monthlyPass current now) passes 1
  | .daily => loop (stepPass lib .daily now) passes current
  | .weekly => loop (stepPass lib .weekly now) passes current

end Repeat

end Schedule

end Khive
