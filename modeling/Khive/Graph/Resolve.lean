import Khive.Foundation.Bytes
import Khive.Types.Edge
import Khive.Types.Record
import Khive.Types.Value

/-!
# What an identifier resolves to

An identifier is looked up in the tables of a backend, the entities first, then the notes, then the
events. The first table that has a live row under it decides. Edges have a read of their own, which
goes through the namespace that the row is stored with. The private tables of packs are on the same
backend, but no read here consults them, so a record that is private to a pack resolves to nothing.

What the tables hold under an identifier is a parameter, and reading them may fail.
-/

namespace Khive

/-! ## Namespaces -/

/-- `NamespaceError`. -/
inductive NamespaceError where
  | empty
  | tooLong (max : ℕ)
  | invalidCharacter (ch : Char)
  | emptySegment
  | trailingSeparator
deriving DecidableEq, Repr

/-- The characters of a namespace, apart from the separator. -/
def isNamespaceChar (ch : Char) : Bool := ch.isAlphanum || ch == '-' || ch == '_' || ch == '.'

/-- What the loop of `validate_namespace` asks of one segment. -/
def validateSegment (segment : List Char) : Except NamespaceError Unit :=
  if segment.isEmpty then .error .emptySegment
  else match segment.find? fun ch ↦ !isNamespaceChar ch with
  | some ch => .error (.invalidCharacter ch)
  | none => .ok ()

/-- `validate_namespace`. -/
def validateNamespace (value : String) : Except NamespaceError Unit := do
  if value.isEmpty then throw .empty
  if 256 < byteSize value.toList then throw (.tooLong 256)
  if value.toList.getLast? = some ':' then throw .trailingSeparator
  (value.toList.splitOn ':').forM validateSegment

/-- `Namespace::parse`. -/
def Namespace.parse (value : String) : Except NamespaceError Namespace := do
  validateNamespace value
  return ⟨value⟩

/-- `{:?}` of a character between single quotes. -/
def debugChar (unprintable : Char → Bool) (ch : Char) : String :=
  let escaped := if ch = '\'' then ['\\', '\''] else if ch = '"' then ['"']
    else escapeDebug unprintable ch
  "'" ++ String.ofList escaped ++ "'"

/-- The text of the error. -/
def NamespaceError.text (unprintable : Char → Bool) : NamespaceError → String
  | empty => "namespace must not be empty"
  | tooLong max => s!"namespace exceeds {max} characters"
  | invalidCharacter ch => "namespace contains invalid character " ++ debugChar unprintable ch
  | emptySegment => "namespace must not contain empty path segments"
  | trailingSeparator => "namespace must not end with ':'"

/-! ## Rows -/

/-- A row of the table of entities. -/
structure EntityRow where
  «namespace» : String
  kind : String
  entityType : Option String
  deletedAt : Option ℤ

/-- A row of the table of notes. -/
structure NoteRow where
  «namespace» : String
  kind : String
  deletedAt : Option ℤ

/-- A row of the table of events. -/
structure EventRow where
  «namespace» : String

/-- A row of the table of edges. -/
structure EdgeRow where
  «namespace» : String
  deletedAt : Option ℤ

/-- A record in the private tables of a pack. -/
structure PackRecord where
  pack : String
  kind : String
  data : JsonValue

/-! ## Resolved records -/

/-- What endpoint checks read of a stored entity. -/
structure ResolvedEntity where
  kind : String
  entityType : Option String
deriving DecidableEq, Repr

/-- What an identifier resolves to, as far as endpoint checks read it. -/
inductive Resolved where
  | entity (e : ResolvedEntity)
  | note (kind : String)
  | event
  /-- A record owned by a pack's private tables, no valid edge endpoint. -/
  | packRecord (record : PackRecord)

/-- The errors of endpoint checks, and those of the reads beneath them. -/
inductive RuntimeError where
  | invalidInput (message : String)
  | notFound (message : String)
  | internal (message : String)
  | storage (message : String)
deriving DecidableEq, Repr

/-- An endpoint spec of a pack. -/
inductive EndpointKind where
  | noteOfKind (kind : String)
  | entityOfKind (kind : String)
  | entityOfType (kind entityType : String)
deriving DecidableEq, Repr

structure EdgeEndpointRule where
  relation : EdgeRelation
  source : EndpointKind
  target : EndpointKind
deriving DecidableEq, Repr

/-- What a runtime offers to endpoint checks: the rules of its packs, and what the tables of its
backend hold under an identifier. A table is opened and read in one, and either may fail. -/
structure Runtime where
  packEdgeRules : List EdgeEndpointRule
  entityRow : Id128 → Except RuntimeError (Option EntityRow)
  noteRow : Id128 → Except RuntimeError (Option NoteRow)
  eventRow : Id128 → Except RuntimeError (Option EventRow)
  edgeRow : Id128 → Except RuntimeError (Option EdgeRow)
  packRecord : Id128 → Option PackRecord
  /-- The characters that `Debug` escapes by number. -/
  unprintable : Char → Bool

namespace Runtime

variable (rt : Runtime) (id : Id128)

/-! ## Reads by identifier -/

/-- `get_entity_including_deleted`. -/
def getEntityIncludingDeleted : Except RuntimeError (Option EntityRow) := rt.entityRow id

/-- `get_entity`. -/
def getEntity : Except RuntimeError (Option EntityRow) :=
  (rt.entityRow id).map fun row ↦ row.filter fun row ↦ row.deletedAt.isNone

/-- `get_note_including_deleted`. -/
def getNoteIncludingDeleted : Except RuntimeError (Option NoteRow) := rt.noteRow id

/-- `get_note`. -/
def getNote : Except RuntimeError (Option NoteRow) :=
  (rt.noteRow id).map fun row ↦ row.filter fun row ↦ row.deletedAt.isNone

/-- `get_event`, of a table that has no tombstones. -/
def getEvent : Except RuntimeError (Option EventRow) := rt.eventRow id

/-- `ensure_namespace`. -/
def ensureNamespace (recordNs callerPrimaryNs : String) : Except RuntimeError Unit :=
  if recordNs = callerPrimaryNs then .ok ()
  else .error (.notFound "not found in this namespace")

/-- The namespace of a record is the one asked for, if one is. -/
def inNamespace (asked : Option String) (recordNs : String) : Bool :=
  asked.all fun ns ↦ (ensureNamespace recordNs ns).isOk

/-- The part of `resolve_records` that looks for an entity. -/
def resolveEntity (includeDeleted : Bool) (asked : Option String) :
    Except RuntimeError (Option Resolved) := do
  let row ← if includeDeleted then rt.getEntityIncludingDeleted id else rt.getEntity id
  return (row.filter fun row ↦ inNamespace asked row.namespace).map fun row ↦
    .entity ⟨row.kind, row.entityType⟩

/-- The part of `resolve_records` that looks for a note. -/
def resolveNote (includeDeleted : Bool) (asked : Option String) :
    Except RuntimeError (Option Resolved) := do
  let row ← if includeDeleted then rt.getNoteIncludingDeleted id else rt.getNote id
  return (row.filter fun row ↦ inNamespace asked row.namespace).map fun row ↦ .note row.kind

/-- The part of `resolve_records` that looks for an event. -/
def resolveEvent (asked : Option String) : Except RuntimeError (Option Resolved) := do
  let row ← rt.getEvent id
  return (row.filter fun row ↦ inNamespace asked row.namespace).map fun _ ↦ .event

/-- `resolve_records`. A row in another namespace than the one asked for is passed over. -/
def resolveRecords (includeDeleted : Bool) (asked : Option String) (includeEvents : Bool) :
    Except RuntimeError (Option Resolved) := do
  match ← rt.resolveEntity id includeDeleted asked with
  | some r => return some r
  | none =>
    match ← rt.resolveNote id includeDeleted asked with
    | some r => return some r
    | none => if includeEvents then rt.resolveEvent id asked else return none

/-- `resolve_edge_endpoint`. -/
def resolveEdgeEndpoint : Except RuntimeError (Option Resolved) :=
  rt.resolveRecords id false none true

/-- The rows that a read of edges by identifier sees. -/
def edgeRowIn (includeDeleted : Bool) : Except RuntimeError (Option EdgeRow) :=
  (rt.edgeRow id).map fun row ↦ row.filter fun row ↦ includeDeleted || row.deletedAt.isNone

/-- `get_edge_by_id_inner`: the namespace is read first, and then the edge through its store. -/
def getEdgeByIdInner (includeDeleted : Bool) : Except RuntimeError (Option EdgeRow) := do
  match ← rt.edgeRowIn id includeDeleted with
  | none => return none
  | some row =>
    let _ ← (Namespace.parse row.namespace).mapError fun e ↦
      .internal ("edge namespace invalid: " ++ e.text rt.unprintable)
    rt.edgeRowIn id includeDeleted

/-- `get_edge`. -/
def getEdge : Except RuntimeError (Option EdgeRow) := rt.getEdgeByIdInner id false

end Runtime

/-! ## What an identifier names -/

/-- What an identifier names. -/
inductive Endpoint where
  | entity (e : ResolvedEntity)
  | note (kind : String)
  | event
  | edge
  | packRecord
  | nothing

/-- The record that endpoint resolution finds. It finds none for an edge, nor for what is private to
a pack. -/
def Endpoint.resolved : Endpoint → Option Resolved
  | entity e => some (.entity e)
  | note kind => some (.note kind)
  | event => some .event
  | edge | packRecord | nothing => none

namespace Runtime

variable {rt : Runtime} {id : Id128} {endpoint : Endpoint}

/-- No live row of the tables that endpoint resolution reads. -/
def Unresolved (rt : Runtime) (id : Id128) : Prop :=
  rt.getEntity id = .ok none ∧ rt.getNote id = .ok none ∧ rt.getEvent id = .ok none

/-- What the tables hold of an identifier. -/
def Names (rt : Runtime) (id : Id128) : Endpoint → Prop
  | .entity e => ∃ row, rt.getEntity id = .ok (some row) ∧
      row.kind = e.kind ∧ row.entityType = e.entityType
  | .note kind => rt.getEntity id = .ok none ∧
      ∃ row, rt.getNote id = .ok (some row) ∧ row.kind = kind
  | .event => rt.getEntity id = .ok none ∧ rt.getNote id = .ok none ∧
      ∃ row, rt.getEvent id = .ok (some row)
  | .edge => rt.Unresolved id ∧ ∃ row, rt.getEdge id = .ok (some row)
  | .packRecord => rt.Unresolved id ∧ rt.getEdge id = .ok none ∧
      ∃ record, rt.packRecord id = some record
  | .nothing => rt.Unresolved id ∧ rt.getEdge id = .ok none ∧ rt.packRecord id = none

/-- Where no namespace is asked for, no row is passed over. -/
theorem filter_inNamespace_none {α : Type} (row : Option α) (recordNs : α → String) :
    (row.filter fun row ↦ inNamespace none (recordNs row)) = row := by
  cases row <;> rfl

theorem resolveEntity_eq {row : Option EntityRow} (h : rt.getEntity id = .ok row) :
    rt.resolveEntity id false none =
      .ok (row.map fun row ↦ .entity ⟨row.kind, row.entityType⟩) := by
  simp only [resolveEntity, Bool.false_eq_true, if_false, h, ok_bind, filter_inNamespace_none]
  rfl

theorem resolveNote_eq {row : Option NoteRow} (h : rt.getNote id = .ok row) :
    rt.resolveNote id false none = .ok (row.map fun row ↦ .note row.kind) := by
  simp only [resolveNote, Bool.false_eq_true, if_false, h, ok_bind, filter_inNamespace_none]
  rfl

theorem resolveEvent_eq {row : Option EventRow} (h : rt.getEvent id = .ok row) :
    rt.resolveEvent id none = .ok (row.map fun _ ↦ .event) := by
  simp only [resolveEvent, h, ok_bind, filter_inNamespace_none]
  rfl

theorem resolveEdgeEndpoint_of_unresolved (h : rt.Unresolved id) :
    rt.resolveEdgeEndpoint id = .ok none := by
  obtain ⟨hentity, hnote, hevent⟩ := h
  rw [resolveEdgeEndpoint, resolveRecords, resolveEntity_eq hentity, ok_bind]
  simp only [Option.map_none]
  rw [resolveNote_eq hnote, ok_bind]
  exact resolveEvent_eq hevent

/-- **Resolution finds what the identifier names**, and nothing for a record that is private to a
pack. -/
theorem resolveEdgeEndpoint_of_names (h : rt.Names id endpoint) :
    rt.resolveEdgeEndpoint id = .ok endpoint.resolved := by
  cases endpoint with
  | entity e =>
    obtain ⟨row, hentity, hkind, htype⟩ := h
    rw [resolveEdgeEndpoint, resolveRecords, resolveEntity_eq hentity, ok_bind, Option.map_some,
      hkind, htype]
    rfl
  | note kind =>
    obtain ⟨hentity, row, hnote, hkind⟩ := h
    rw [resolveEdgeEndpoint, resolveRecords, resolveEntity_eq hentity, ok_bind]
    simp only [Option.map_none]
    rw [resolveNote_eq hnote, ok_bind, Option.map_some, hkind]
    rfl
  | event =>
    obtain ⟨hentity, hnote, row, hevent⟩ := h
    rw [resolveEdgeEndpoint, resolveRecords, resolveEntity_eq hentity, ok_bind]
    simp only [Option.map_none]
    rw [resolveNote_eq hnote, ok_bind]
    exact resolveEvent_eq hevent
  | edge | packRecord | nothing => exact resolveEdgeEndpoint_of_unresolved h.1

/-- What resolution does not find is looked for among the edges. -/
theorem getEdge_of_names (h : rt.Names id endpoint) (hresolved : endpoint.resolved = none) :
    ∃ row, rt.getEdge id = .ok row ∧ (row.isSome ↔ endpoint = .edge) := by
  cases endpoint with
  | entity _ | note _ | event => exact absurd hresolved (Option.some_ne_none _)
  | edge =>
    obtain ⟨-, row, hrow⟩ := h
    exact ⟨some row, hrow, by simp⟩
  | packRecord | nothing => exact ⟨none, h.2.1, by simp⟩

end Runtime

end Khive
