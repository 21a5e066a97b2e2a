import Khive.Foundation.Binary64
import Khive.Foundation.Json
import Khive.Types.Edge

/-!
# Substrate records

Entities, notes and links as the change-set format carries them. Lifecycle lives in two places: a
tombstone is a present `deletedAt`, and a note additionally carries a `status` that soft deletion
moves to `deleted`.

Free-form properties are JSON objects whose numbers are 64-bit integers or doubles; a property map
is the list of its entries in key order. Doubles bring their own equality along, so property maps,
saliences and weights compare by `==` and not by identity.
-/

namespace Khive

/-- Microseconds since the Unix epoch. -/
abbrev Timestamp := UInt64

/-- A validated namespace token. -/
structure Namespace where
  asStr : String
deriving DecidableEq, Repr

/-- Fields shared by every substrate record. -/
structure Header where
  id : Id128
  «namespace» : Namespace
  createdAt : Timestamp
  updatedAt : Timestamp

/-- The closed base kinds for graph-node classification. -/
inductive EntityKind where
  | concept | document | dataset | project | person | org | artifact | service
deriving DecidableEq, Repr

/-- The numbers a property value may hold: `Integer(i64)` or `Float(f64)`. -/
inductive PropertyNumber where
  | integer (n : ℤ)
  | float (x : Binary64)

namespace PropertyNumber

def beq : PropertyNumber → PropertyNumber → Bool
  | .integer m, .integer n => m == n
  | .float x, .float y => x == y
  | _, _ => false

instance : BEq PropertyNumber := ⟨beq⟩

instance : PartialEquivBEq PropertyNumber where
  symm {a b} h := by
    change beq a b = true at h
    change beq b a = true
    cases a <;> cases b <;> simp only [beq, Bool.false_eq_true] at h ⊢
    · exact PartialEquivBEq.symm h
    · exact PartialEquivBEq.symm h
  trans {a b c} h₁ h₂ := by
    change beq a b = true at h₁
    change beq b c = true at h₂
    change beq a c = true
    cases a <;> cases b <;> cases c <;> simp only [beq, Bool.false_eq_true] at h₁ h₂ ⊢
    · exact PartialEquivBEq.trans h₁ h₂
    · exact PartialEquivBEq.trans h₁ h₂

end PropertyNumber

/-- Property values stored on entities, links, and notes. -/
abbrev PropertyValue := Json PropertyNumber

/-- A property map, as its entries in key order. -/
abbrev Properties := List (String × PropertyValue)

/-- A graph node with a type, display name, and key-value properties. -/
structure Entity where
  header : Header
  kind : EntityKind
  entityType : Option String
  name : String
  description : Option String
  properties : Properties
  tags : List String
  deletedAt : Option Timestamp

/-- Lifecycle status of a note. -/
inductive NoteStatus where
  | active | archived | deleted
deriving DecidableEq, Repr

/-- A note record: temporal-referential content plus free-form properties. -/
structure Note where
  header : Header
  kind : String
  status : NoteStatus
  content : String
  properties : Properties
  tags : List String
  salience : Option Binary64
  decayFactor : Option Binary64
  expiresAt : Option Timestamp
  deletedAt : Option Timestamp

/-- A directed, typed edge between two records. -/
structure Link where
  id : Id128
  «namespace» : String
  source : Id128
  target : Id128
  relation : EdgeRelation
  properties : Properties
  weight : Binary64
  createdAt : Timestamp
  updatedAt : Timestamp
  deletedAt : Option Timestamp

/-- `(0.0..=1.0).contains(&x)`. -/
def Binary64.inUnitRange (x : Binary64) : Bool := Binary64.zero.le x && x.le Binary64.one

/-- Whether an edge weight is finite and within `[0.0, 1.0]`. -/
def validateEdgeWeight (weight : Binary64) : Bool := weight.isFinite && weight.inUnitRange

/-- All numeric fields of the link carry domain-valid values. -/
def Link.isValid (l : Link) : Bool := validateEdgeWeight l.weight

/-- All numeric fields of the note carry domain-valid values. -/
def Note.isValid (n : Note) : Bool :=
  n.salience.all (fun s ↦ s.isFinite && s.inUnitRange) &&
    n.decayFactor.all (fun d ↦ d.isFinite && Binary64.zero.le d)

/-- The three substrates a change-set can address. -/
inductive Substrate where
  | entity | note | edge
deriving DecidableEq, Repr

/-- A full record of one of the three substrates. -/
inductive Record where
  | entity (row : Entity)
  | note (row : Note)
  | edge (row : Link)

namespace Record

def substrate : Record → Substrate
  | .entity _ => .entity
  | .note _ => .note
  | .edge _ => .edge

/-- The identifier the record carries. -/
def recordId : Record → Id128
  | .entity row => row.header.id
  | .note row => row.header.id
  | .edge row => row.id

def deletedAt : Record → Option Timestamp
  | .entity row => row.deletedAt
  | .note row => row.deletedAt
  | .edge row => row.deletedAt

/-- Whether the record is a tombstone. -/
def isDeleted (r : Record) : Bool := r.deletedAt.isSome

end Record

end Khive
