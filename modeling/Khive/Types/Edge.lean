import Mathlib

/-!
# Identifiers and edge relations

Identifiers are 16 bytes compared in byte order, which is the numeric order of the big-endian
number they spell. The edge ontology is closed: twenty relations, two of them symmetric. For a
symmetric relation the direction carries no meaning, and `canonicalEndpoints` picks the one stored
form, the smaller endpoint first.
-/

namespace Khive

/-- `Id128` (and `Uuid`, which carries the same 16 bytes), as its big-endian number. -/
abbrev Id128 := Fin (2 ^ 128)

instance instNeZeroId128 : NeZero (2 ^ 128) := ⟨by decide⟩

/-! ## Texts of identifiers -/

/-- The hexadecimal digit of a number below 16. -/
def hexChar (n : Nat) : Char := Nat.digitChar n

/-- The lowest digits of a number in base 16, the highest of them first. -/
def hexDigits (digits n : Nat) : String :=
  String.ofList ((List.range digits).reverse.map fun i ↦ hexChar (n / 16 ^ i % 16))

/-- `Uuid`'s `Display`: five groups of digits. -/
def uuidText (id : Id128) : String :=
  let group := fun digits shift ↦ hexDigits digits (id.val / 16 ^ shift)
  "-".intercalate [group 8 24, group 4 20, group 4 16, group 4 12, group 12 0]

/-! ## Relations -/

/-- The closed set of canonical edge relations, in ontology-table order. -/
inductive EdgeRelation where
  | contains | partOf | instanceOf | linksTo | locatedIn
  | extends | variantOf | introducedBy | supersedes
  | derivedFrom
  | precedes
  | dependsOn | enables
  | implements
  | competesWith | composedWith
  | annotates
  | supports | refutes
  | owns
deriving DecidableEq, Repr

namespace EdgeRelation

/-- `true` for symmetric relations: edge direction has no semantic meaning. -/
def isSymmetric : EdgeRelation → Bool
  | .competesWith | .composedWith => true
  | _ => false

/-- Canonical snake_case name as stored in the database. -/
def asStr : EdgeRelation → String
  | .contains => "contains"
  | .partOf => "part_of"
  | .instanceOf => "instance_of"
  | .linksTo => "links_to"
  | .locatedIn => "located_in"
  | .extends => "extends"
  | .variantOf => "variant_of"
  | .introducedBy => "introduced_by"
  | .supersedes => "supersedes"
  | .derivedFrom => "derived_from"
  | .precedes => "precedes"
  | .dependsOn => "depends_on"
  | .enables => "enables"
  | .implements => "implements"
  | .competesWith => "competes_with"
  | .composedWith => "composed_with"
  | .annotates => "annotates"
  | .supports => "supports"
  | .refutes => "refutes"
  | .owns => "owns"

variable {α : Type} [LinearOrder α]

/-- Order the endpoints so that a symmetric relation has one stored form: the smaller endpoint
comes first. Every other relation keeps its endpoints as given. -/
def canonicalEndpoints (r : EdgeRelation) (source target : α) : α × α :=
  if r.isSymmetric && decide (target < source) then (target, source) else (source, target)

variable {r : EdgeRelation} {s t : α}

/-- Endpoints stay put unless the relation is symmetric and they are reversed. -/
theorem canonicalEndpoints_of_le (h : r.isSymmetric = false ∨ s ≤ t) :
    r.canonicalEndpoints s t = (s, t) := by
  rw [canonicalEndpoints, if_neg]
  rcases h with h | h
  · simp [h]
  · simp [not_lt.mpr h]

theorem canonicalEndpoints_of_lt (hr : r.isSymmetric = true) (h : t < s) :
    r.canonicalEndpoints s t = (t, s) := by
  rw [canonicalEndpoints, if_pos (by simp [hr, h])]

/-- **The storage endpoint invariant**: what comes out is ordered when direction is meaningless. -/
theorem canonicalEndpoints_le (hr : r.isSymmetric = true) :
    (r.canonicalEndpoints s t).1 ≤ (r.canonicalEndpoints s t).2 := by
  rcases lt_or_ge t s with h | h
  · rw [canonicalEndpoints_of_lt hr h]
    exact h.le
  · rw [canonicalEndpoints_of_le (Or.inr h)]
    exact h

/-- Reordering brings in no new endpoint. -/
theorem canonicalEndpoints_mem :
    ((r.canonicalEndpoints s t).1 = s ∨ (r.canonicalEndpoints s t).1 = t) ∧
      ((r.canonicalEndpoints s t).2 = s ∨ (r.canonicalEndpoints s t).2 = t) := by
  unfold canonicalEndpoints
  split
  · exact ⟨Or.inr rfl, Or.inl rfl⟩
  · exact ⟨Or.inl rfl, Or.inr rfl⟩

/-- Reordering twice is reordering once. -/
@[simp] theorem canonicalEndpoints_idem :
    r.canonicalEndpoints (r.canonicalEndpoints s t).1 (r.canonicalEndpoints s t).2
      = r.canonicalEndpoints s t := by
  by_cases hr : r.isSymmetric = true
  · rw [canonicalEndpoints_of_le (Or.inr (canonicalEndpoints_le hr))]
  · rw [canonicalEndpoints_of_le (s := s) (t := t) (Or.inl (by simpa using hr)),
      canonicalEndpoints_of_le (Or.inl (by simpa using hr))]

end EdgeRelation

end Khive
