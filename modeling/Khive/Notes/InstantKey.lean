import Khive.Foundation.ByteOrder
import Khive.Foundation.Sql

/-!
# Keys of instants

A timestamp filter compares keys instead of texts. The key of an instant is its seconds with the
sign bit flipped and its nanoseconds, both big-endian, so that the database, which compares blobs
byte by byte, orders keys as the instants are ordered. A row whose text is no timestamp has no key.
-/

namespace Khive

namespace InstantKey

open Sql

/-- `chrono::DateTime<Utc>`: seconds since the epoch in the range of its calendar, and nanoseconds,
which go on behind the second in a leap second. -/
structure Instant where
  timestamp : Int64
  subsecNanos : UInt32
  inRange : -8334601228800 ≤ timestamp.toInt ∧ timestamp.toInt ≤ 8210266876799
  nanos_lt : subsecNanos.toNat < 2000000000

/-- The order of instants, which the leap second extends. -/
def Instant.compare (x y : Instant) : Ordering :=
  (Ord.compare x.timestamp.toInt y.timestamp.toInt).then
    (Ord.compare x.subsecNanos.toNat y.subsecNanos.toNat)

/-- `chrono::DateTime<FixedOffset>`: an instant, and the offset it is written with. -/
structure OffsetDateTime where
  utc : Instant
  offsetSeconds : ℤ

/-- `with_timezone(&Utc)`. -/
def OffsetDateTime.withTimezoneUtc (t : OffsetDateTime) : Instant := t.utc

def rfc3339InstantKey (instant : Instant) : Bytes :=
  bigEndian 8 (instant.timestamp.toUInt64 ^^^ ((1 : UInt64) <<< (63 : UInt64))).toNat ++
    bigEndian 4 instant.subsecNanos.toNat

section Parsers

-- `DateTime::parse_from_rfc3339`, and the relaxed `parse::<DateTime<Utc>>`
variable (parseFromRfc3339 : String → Option OffsetDateTime)
  (parseRelaxed : String → Option Instant)

def strictRfc3339Key (text : String) : Option Bytes :=
  (parseFromRfc3339 text).map fun instant ↦ rfc3339InstantKey instant.withTimezoneUtc

/-- A key as a value. -/
def blobOf : Option Bytes → Value
  | some key => .blob key
  | none => .null

/-- The function `khive_rfc3339_key`. -/
def rfc3339Key : Value → Value
  | .text text => blobOf ((parseRelaxed text).map rfc3339InstantKey)
  | _ => .null

/-- The function `khive_rfc3339_strict_key`. -/
def rfc3339StrictKey : Value → Value
  | .text text => blobOf (strictRfc3339Key parseFromRfc3339 text)
  | _ => .null

/-- `khive_rfc3339_key(…) op ?`. -/
def selects (op : Comparison) (bound : Instant) (v : Value) : Bool :=
  (compareValues false (rfc3339Key parseRelaxed v) (.blob (rfc3339InstantKey bound))).any op.holds

/-- `ifnull(…, x'')`. -/
def ifnullEmpty : Value → Value
  | .null => .blob []
  | v => v

/-- `Rfc3339LteOrInvalid`: the stored key of an unchanged text, and the key computed again. -/
def selectsLteOrInvalid (bound : Instant) (dueSource strictDueKey v : Value) : Bool :=
  let stored := if compareValues false dueSource v = some .eq then ifnullEmpty strictDueKey
    else .blob []
  (compareValues false stored (.blob (rfc3339InstantKey bound))).any Comparison.le.holds &&
    (compareValues false (ifnullEmpty (rfc3339StrictKey parseFromRfc3339 v))
      (.blob (rfc3339InstantKey bound))).any Comparison.le.holds

/-- The instant of a value in the relaxed grammar. -/
def instantOf : Value → Option Instant
  | .text text => parseRelaxed text
  | _ => none

/-- The instant of a value in the strict grammar. -/
def strictInstantOf : Value → Option Instant
  | .text text => (parseFromRfc3339 text).map OffsetDateTime.withTimezoneUtc
  | _ => none

end Parsers

/-! ## Order -/

theorem compareBytes_rfc3339InstantKey (x y : Instant) :
    compareBytes (rfc3339InstantKey x) (rfc3339InstantKey y) = x.compare y := by
  have hseconds : ∀ t : Instant,
      (t.timestamp.toUInt64 ^^^ ((1 : UInt64) <<< (63 : UInt64))).toNat < 256 ^ 8 :=
    fun t ↦ UInt64.toNat_lt _
  have hnanos : ∀ t : Instant, t.subsecNanos.toNat < 256 ^ 4 := fun t ↦ UInt32.toNat_lt _
  have hshift : Ord.compare (x.timestamp.toUInt64 ^^^ ((1 : UInt64) <<< (63 : UInt64))).toNat
      (y.timestamp.toUInt64 ^^^ ((1 : UInt64) <<< (63 : UInt64))).toNat =
        Ord.compare x.timestamp.toInt y.timestamp.toInt := by
    have hx := toNat_flipSign x.timestamp
    have hy := toNat_flipSign y.timestamp
    rcases lt_trichotomy x.timestamp.toInt y.timestamp.toInt with h | h | h
    · rw [compare_lt_iff_lt.mpr h, compare_lt_iff_lt]
      omega
    · rw [compare_eq_iff_eq.mpr h, compare_eq_iff_eq]
      omega
    · rw [compare_gt_iff_gt.mpr h, compare_gt_iff_gt]
      omega
  rw [rfc3339InstantKey, rfc3339InstantKey,
    compareBytes_append (by rw [length_bigEndian, length_bigEndian]),
    compareBytes_bigEndian (hseconds x) (hseconds y), compareBytes_bigEndian (hnanos x) (hnanos y),
    hshift, Instant.compare]

theorem Instant.eq_of_compare {x y : Instant} (h : x.compare y = .eq) : x = y := by
  obtain ⟨htimestamp, hnanos⟩ := Ordering.then_eq_eq.mp h
  have hseconds := Int64.toInt_inj.mp (compare_eq_iff_eq.mp htimestamp)
  have hsubsec := UInt32.toNat_inj.mp (compare_eq_iff_eq.mp hnanos)
  obtain ⟨t, n, ht, hn⟩ := x
  obtain ⟨t', n', ht', hn'⟩ := y
  obtain rfl : t = t' := hseconds
  obtain rfl : n = n' := hsubsec
  rfl

theorem compareBytes_self (b : Bytes) : compareBytes b b = .eq := by
  rw [compareBytes_eq rfl]
  exact compare_eq_iff_eq.mpr rfl

theorem rfc3339InstantKey_injective : Function.Injective rfc3339InstantKey := by
  intro x y h
  apply Instant.eq_of_compare
  rw [← compareBytes_rfc3339InstantKey, h, compareBytes_self]

/-! ## Predicates -/

section Predicates

variable {parseFromRfc3339 : String → Option OffsetDateTime}
  {parseRelaxed : String → Option Instant} {bound : Instant}

theorem compareValues_key (x : Instant) :
    compareValues false (.blob (rfc3339InstantKey x)) (.blob (rfc3339InstantKey bound)) =
      some (x.compare bound) :=
  congrArg some (compareBytes_rfc3339InstantKey x bound)

/-- A predicate over keys is the predicate over instants; without an instant it fails. -/
theorem selects_eq (op : Comparison) (v : Value) : selects parseRelaxed op bound v =
    (instantOf parseRelaxed v).any fun x ↦ op.holds (x.compare bound) := by
  rcases v with - | n | x | text | bytes
  · rfl
  · rfl
  · rfl
  · rcases hparse : parseRelaxed text with - | x
    · simp only [selects, rfc3339Key, instantOf, hparse]
      rfl
    · simp only [selects, rfc3339Key, instantOf, hparse, Option.map_some, blobOf,
        compareValues_key, Option.any_some]
  · rfl

theorem rfc3339StrictKey_eq (v : Value) : rfc3339StrictKey parseFromRfc3339 v =
    blobOf ((strictInstantOf parseFromRfc3339 v).map rfc3339InstantKey) := by
  rcases v with - | n | x | text | bytes
  · rfl
  · rfl
  · rfl
  · rw [rfc3339StrictKey, strictRfc3339Key, strictInstantOf, Option.map_map]
    rfl
  · rfl

/-- Texts without an instant have the empty key, which is before all others. -/
theorem le_ifnullEmpty (x : Option Instant) :
    (compareValues false (ifnullEmpty (blobOf (x.map rfc3339InstantKey)))
      (.blob (rfc3339InstantKey bound))).any Comparison.le.holds =
        x.all fun x ↦ Comparison.le.holds (x.compare bound) := by
  rcases x with - | x
  · rw [Option.map_none, blobOf, ifnullEmpty, Option.all_none]
    rcases hkey : rfc3339InstantKey bound with - | ⟨b, key⟩
    · rfl
    · rfl
  · rw [Option.map_some, blobOf, ifnullEmpty, compareValues_key]
    · rfl
    · rintro ⟨⟩

/-- Values that compare equal have one instant. -/
theorem strictInstantOf_of_eq {v w : Value} (h : compareValues false v w = some .eq) :
    strictInstantOf parseFromRfc3339 v = strictInstantOf parseFromRfc3339 w := by
  rcases v with - | n | x | text | bytes <;> rcases w with - | m | y | text' | bytes' <;>
    first
      | rfl
      | cases h
      | exact congrArg _ (by simpa [compareValues] using h)

/-- The predicate over stored keys takes what is due, and what is no timestamp. -/
theorem selectsLteOrInvalid_eq (dueSource v : Value) :
    selectsLteOrInvalid parseFromRfc3339 bound dueSource
      (rfc3339StrictKey parseFromRfc3339 dueSource) v =
        (strictInstantOf parseFromRfc3339 v).all fun x ↦ Comparison.le.holds (x.compare bound) := by
  rw [selectsLteOrInvalid, rfc3339StrictKey_eq v, le_ifnullEmpty]
  split_ifs with hsource
  · rw [rfc3339StrictKey_eq, le_ifnullEmpty, strictInstantOf_of_eq hsource, Bool.and_self]
  · -- a changed text is left to the key computed again
    have hempty := @le_ifnullEmpty bound none
    rw [Option.map_none, blobOf, ifnullEmpty] at hempty
    rw [hempty]
    rfl

end Predicates

/-- Keys compare as the instants they stand for and are different for different instants, a key is
that of the instant whatever the offset, and predicates over keys select what the same predicates
over instants select. -/
theorem rfc3339InstantKey_order (parseFromRfc3339 : String → Option OffsetDateTime)
    (parseRelaxed : String → Option Instant) :
    (∀ x y : Instant, compareBytes (rfc3339InstantKey x) (rfc3339InstantKey y) = x.compare y) ∧
      Function.Injective rfc3339InstantKey ∧
      (∀ s t d e, parseFromRfc3339 s = some d → parseFromRfc3339 t = some e →
        (strictRfc3339Key parseFromRfc3339 s = strictRfc3339Key parseFromRfc3339 t ↔
          d.withTimezoneUtc = e.withTimezoneUtc)) ∧
      (∀ op bound (rows : List Value), rows.filter (selects parseRelaxed op bound) =
        rows.filter fun v ↦
          (instantOf parseRelaxed v).any fun x ↦ op.holds (x.compare bound)) ∧
      ∀ bound (rows : List (Value × Value)),
        (rows.filter fun row ↦ selectsLteOrInvalid parseFromRfc3339 bound row.1
          (rfc3339StrictKey parseFromRfc3339 row.1) row.2) =
        rows.filter fun row ↦ (strictInstantOf parseFromRfc3339 row.2).all fun x ↦
          Comparison.le.holds (x.compare bound) := by
  refine ⟨compareBytes_rfc3339InstantKey, rfc3339InstantKey_injective, ?_, ?_, ?_⟩
  · intro s t d e hs ht
    rw [strictRfc3339Key, strictRfc3339Key, hs, ht, Option.map_some, Option.map_some,
      Option.some_inj, rfc3339InstantKey_injective.eq_iff]
  · intro op bound rows
    exact List.filter_congr fun v _ ↦ selects_eq op v
  · intro bound rows
    exact List.filter_congr fun row _ ↦ selectsLteOrInvalid_eq row.1 row.2

end InstantKey

end Khive
