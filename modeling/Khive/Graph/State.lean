import Khive.Foundation.OrderedEq
import Khive.Graph.Offline

/-!
# Graph states read from NDJSON

A graph state holds three collections of records keyed by identifier, one for each substrate. It is
read from three NDJSON texts, one record a line: the identity field is taken out of the record, and
what is left are its fields. Nested objects are put in key order on the way, whatever order the
parser hands them over in, so that a state holds canonical values and nothing else. The JSON parser
is a parameter.
-/

namespace Khive

/-! ## Parsing identifiers -/

inductive ParseIdError where
  | invalidLength
  | invalidHex
deriving DecidableEq, Repr

/-- `hex_val`. -/
def hexVal (c : UInt8) : Option UInt8 :=
  if 0x30 ≤ c ∧ c ≤ 0x39 then some (c - 0x30)
  else if 0x61 ≤ c ∧ c ≤ 0x66 then some (c - 0x61 + 10)
  else if 0x41 ≤ c ∧ c ≤ 0x46 then some (c - 0x41 + 10)
  else none

/-- `parse_hex_bytes`. -/
def parseHexBytes (hex : Bytes) : Except ParseIdError Bytes :=
  if hex.length ≠ 32 then .error .invalidLength
  else
    (List.range 16).mapM fun i ↦ do
      let hi ← okOr .invalidHex (hexVal (hex.getD (i * 2) 0))
      let lo ← okOr .invalidHex (hexVal (hex.getD (i * 2 + 1) 0))
      .ok ((hi <<< 4) ||| lo)

/-- `Id128::from_bytes`, of 16 bytes. -/
def Id128.fromBytes (bytes : Bytes) : Id128 :=
  Fin.ofNat _ (bytes.foldl (fun n b ↦ n * 256 + b.toNat) 0)

/-- `Id128::from_str`: 32 digits, or 36 bytes with a hyphen between the groups. -/
def Id128.fromStr (s : String) : Except ParseIdError Id128 :=
  let b := utf8Bytes s.toList
  if b.length = 32 then (parseHexBytes b).map Id128.fromBytes
  else if b.length = 36 then
    if [8, 13, 18, 23].any fun i ↦ b.getD i 0 != 0x2D then .error .invalidHex
    else
      let hex := b.take 8 ++ (b.drop 9).take 4 ++ (b.drop 14).take 4 ++ (b.drop 19).take 4 ++
        (b.drop 24).take 12
      (parseHexBytes hex).map Id128.fromBytes
  else .error .invalidLength

/-! ## Canonical values -/

namespace Json

variable {ν : Type}

mutual

/-- `canonical_value`. A parsed object holds a key once, so that sorting its members and recursing
into them may be done in either order. -/
def canonicalValue : Json ν → Json ν
  | .object fields => .object (SortedMap.collect (canonicalMembers fields))
  | .array values => .array (canonicalItems values)
  | scalar => scalar

def canonicalItems : List (Json ν) → List (Json ν)
  | [] => []
  | v :: vs => canonicalValue v :: canonicalItems vs

def canonicalMembers : List (String × Json ν) → List (String × Json ν)
  | [] => []
  | (k, v) :: rest => (k, canonicalValue v) :: canonicalMembers rest

end

/-- Every object in the value is in key order. -/
inductive Canonical : Json ν → Prop
  | null : Canonical .null
  | bool (b : Bool) : Canonical (.bool b)
  | number (n : ν) : Canonical (.number n)
  | string (s : String) : Canonical (.string s)
  | array {items : List (Json ν)} (hitems : ∀ v ∈ items, Canonical v) : Canonical (.array items)
  | object {members : List (String × Json ν)} (hsorted : SortedMap.Sorted members)
      (hmembers : ∀ m ∈ members, Canonical m.2) : Canonical (.object members)

mutual

theorem canonical_canonicalValue : ∀ v : Json ν, (canonicalValue v).Canonical
  | .null => .null
  | .bool b => .bool b
  | .number n => .number n
  | .string s => .string s
  | .array items => by
    rw [canonicalValue]
    exact .array (canonical_canonicalItems items)
  | .object members => by
    rw [canonicalValue]
    exact .object (SortedMap.sorted_collect _) fun m hm ↦
      canonical_canonicalMembers members m (SortedMap.mem_of_mem_collect hm)

theorem canonical_canonicalItems : ∀ vs : List (Json ν), ∀ v ∈ canonicalItems vs, v.Canonical
  | [], v, hv => by
    rw [canonicalItems] at hv
    exact absurd hv List.not_mem_nil
  | w :: ws, v, hv => by
    rw [canonicalItems] at hv
    rcases List.mem_cons.mp hv with rfl | hv
    · exact canonical_canonicalValue w
    · exact canonical_canonicalItems ws v hv

theorem canonical_canonicalMembers :
    ∀ ms : List (String × Json ν), ∀ m ∈ canonicalMembers ms, m.2.Canonical
  | [], m, hm => by
    rw [canonicalMembers] at hm
    exact absurd hm List.not_mem_nil
  | (k, w) :: ms, m, hm => by
    rw [canonicalMembers] at hm
    rcases List.mem_cons.mp hm with rfl | hm
    · exact canonical_canonicalValue w
    · exact canonical_canonicalMembers ms m hm

end

end Json

/-- A JSON value with every object in key order. -/
abbrev CanonicalValue := { v : JsonValue // v.Canonical }

namespace CanonicalValue

instance : BEq CanonicalValue := ⟨fun v w ↦ v.val == w.val⟩

instance : PartialEquivBEq CanonicalValue where
  symm {v w} h := PartialEquivBEq.symm (a := v.val) (b := w.val) h
  trans {u v w} h₁ h₂ := PartialEquivBEq.trans (a := u.val) (b := v.val) (c := w.val) h₁ h₂

instance : ReflBEq CanonicalValue where
  rfl {v} := BEq.refl v.val

/-- The canonical form of a value. -/
def ofValue (v : JsonValue) : CanonicalValue := ⟨v.canonicalValue, v.canonical_canonicalValue⟩

end CanonicalValue

end Khive

namespace Khive.Diff

/-! ## States -/

/-- Independently keyed record collections; equal identifiers across substrates coexist. -/
inductive Substrate where
  | entity
  | edge
  | note
deriving DecidableEq, Repr

/-- Identity field in the existing NDJSON representation. -/
def Substrate.identityField : Substrate → String
  | .entity | .note => "id"
  | .edge => "edge_id"

/-- Supplied fields other than the substrate's extracted identity. -/
abbrev Fields := OrderedMap String CanonicalValue

abbrev Records := OrderedMap Id128 Fields

/-- Validated graph state. -/
structure GraphState where
  entities : Records
  edges : Records
  notes : Records

/-- `GraphState`'s `PartialEq`. -/
instance : BEq GraphState :=
  ⟨fun s t ↦ s.entities == t.entities && s.edges == t.edges && s.notes == t.notes⟩

/-- Input refusal with the substrate and one-based physical NDJSON line; `ε` is the parser's
error. -/
inductive DiffInputError (ε : Type) where
  | invalidJson (substrate : Substrate) (line : Nat) (source : ε)
  | notObject (substrate : Substrate) (line : Nat)
  | missingIdentity (substrate : Substrate) (line : Nat) (field : String)
  | nonStringIdentity (substrate : Substrate) (line : Nat) (field : String)
  | invalidIdentity (substrate : Substrate) (line : Nat) (source : ParseIdError)
  | duplicateIdentity (substrate : Substrate) (line : Nat) (id : Id128)

section Parsing

variable {ε : Type} (fromStr : String → Except ε JsonValue)

/-- One line of `records`. -/
def recordLine (substrate : Substrate) (records : Records) (text : String) (line : Nat) :
    Except (DiffInputError ε) Records :=
  if (trim text.toList).isEmpty then .ok records
  else do
    let value ← (fromStr text).mapError (.invalidJson substrate line)
    let fields ← okOr (.notObject substrate line) value.asObject
    let field := substrate.identityField
    let identity ← okOr (.missingIdentity substrate line field) (getMember fields field)
    let fields := fields.filter fun m ↦ m.1 != field
    let identity ← okOr (.nonStringIdentity substrate line field) identity.asStr
    let id ← (Id128.fromStr identity).mapError (.invalidIdentity substrate line)
    if records.containsKey id then .error (.duplicateIdentity substrate line id)
    else
      .ok (records.insert id
        (OrderedMap.collect (fields.map fun m ↦ (m.1, CanonicalValue.ofValue m.2))))

/-- `parse::records`. -/
def records (input : String) (substrate : Substrate) : Except (DiffInputError ε) Records :=
  (textLines input).zipIdx.foldlM
    (fun records entry ↦ recordLine fromStr substrate records entry.1 (entry.2 + 1))
    OrderedMap.empty

/-- `GraphState::from_ndjson`. -/
def GraphState.fromNdjson (entities edges notes : String) :
    Except (DiffInputError ε) GraphState := do
  let entities ← records fromStr entities .entity
  let edges ← records fromStr edges .edge
  let notes ← records fromStr notes .note
  .ok ⟨entities, edges, notes⟩

end Parsing

end Khive.Diff
