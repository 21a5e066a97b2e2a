import Khive.Foundation.Checks
import Khive.Types.Record

/-!
# Change-set operations

The six staged operations and the two checked constructors among them. An update pairs a patch
with the prior value of exactly the fields it touches; a restore carries the full live record it
expects to bring back. Both have private fields in the source, so a value that fails its check
cannot be built, and the structures here carry that check as a field.

A nullable field is tri-state in a patch: `none` leaves it alone, `some none` clears it,
`some (some v)` sets it. The preimage types have the fields of the patch types, and one structure
serves for both.
-/

namespace Khive

/-! ## Creates and links -/

/-- Fields staged for a new entity. -/
structure EntityCreateFields where
  entityKind : EntityKind
  entityType : Option String
  name : String
  description : Option String
  properties : Properties
  tags : List String

/-- Fields staged for a new note. -/
structure NoteCreateFields where
  noteKind : String
  content : String
  properties : Properties
  tags : List String
  salience : Option Binary64
  decayFactor : Option Binary64

/-- Substrate-specific create fields. -/
inductive CreateTarget where
  | entity (fields : EntityCreateFields)
  | note (fields : NoteCreateFields)

/-- Creates an entity or note with an ID minted at stage time. -/
structure CreateOp where
  id : Id128
  «namespace» : Namespace
  target : CreateTarget

/-- Creates a directed edge whose ID is minted at stage time. -/
structure LinkOp where
  id : Id128
  «namespace» : Namespace
  source : Id128
  target : Id128
  relation : EdgeRelation
  weight : Binary64
  properties : Properties

/-! ## Updates -/

/-- Entity fields to mutate. -/
structure EntityPatch where
  name : Option String
  description : Option (Option String)
  properties : Option Properties
  tags : Option (List String)
  entityType : Option (Option String)

/-- Note fields to mutate. -/
structure NotePatch where
  content : Option String
  salience : Option (Option Binary64)
  decayFactor : Option (Option Binary64)
  properties : Option Properties
  tags : Option (List String)

/-- Edge fields to mutate. -/
structure EdgePatch where
  relation : Option EdgeRelation
  weight : Option Binary64

/-- Substrate-specific patch. -/
inductive UpdatePatch where
  | entity (patch : EntityPatch)
  | note (patch : NotePatch)
  | edge (patch : EdgePatch)

/-- Field-scoped preimage, tagged with the same target as the patch. -/
abbrev UpdatePreimage := UpdatePatch

/-- The substrate a patch, or a preimage, is for. -/
def UpdatePatch.substrate : UpdatePatch → Substrate
  | .entity _ => .entity
  | .note _ => .note
  | .edge _ => .edge

/-- Why an update was refused at construction. -/
inductive UpdateOpError where
  | preimageMissing (field : String)
  | preimageExtra (field : String)
  | preimageSalience (s : Binary64)
  | preimageDecayFactor (d : Binary64)
  | preimageWeight (w : Binary64)
  | patchWeightNotFinite (w : Binary64)
  | patchWeightRange (w : Binary64)
  | targetMismatch (patch preimage : Substrate)

def checkTouched (field : String) (patchTouched preimagePresent : Bool) :
    Except UpdateOpError Unit :=
  match patchTouched, preimagePresent with
  | true, false => .error (.preimageMissing field)
  | false, true => .error (.preimageExtra field)
  | _, _ => .ok ()

@[simp] theorem checkTouched_eq_ok {field : String} {p q : Bool} :
    checkTouched field p q = .ok () ↔ p = q := by
  cases p <;> cases q <;> simp [checkTouched]

def EdgePatch.validateWeight (p : EdgePatch) : Except UpdateOpError Unit :=
  match p.weight with
  | none => .ok ()
  | some w => do
    guardOr (.patchWeightNotFinite w) w.isFinite
    guardOr (.patchWeightRange w) (validateEdgeWeight w)

/-- Enforces substrate, exact field-set, and captured numeric-value invariants. -/
def validateUpdateCongruence :
    UpdatePatch → UpdatePreimage → Except UpdateOpError Unit
  | .entity p, .entity pre => do
    checkTouched "name" p.name.isSome pre.name.isSome
    checkTouched "description" p.description.isSome pre.description.isSome
    checkTouched "properties" p.properties.isSome pre.properties.isSome
    checkTouched "tags" p.tags.isSome pre.tags.isSome
    checkTouched "entity_type" p.entityType.isSome pre.entityType.isSome
  | .note p, .note pre => do
    checkTouched "content" p.content.isSome pre.content.isSome
    checkTouched "salience" p.salience.isSome pre.salience.isSome
    checkTouched "decay_factor" p.decayFactor.isSome pre.decayFactor.isSome
    checkTouched "properties" p.properties.isSome pre.properties.isSome
    checkTouched "tags" p.tags.isSome pre.tags.isSome
    match pre.salience with
    | some (some s) => guardOr (.preimageSalience s) (s.isFinite && s.inUnitRange)
    | _ => pure ()
    match pre.decayFactor with
    | some (some d) => guardOr (.preimageDecayFactor d) (d.isFinite && !d.lt Binary64.zero)
    | _ => pure ()
  | .edge p, .edge pre => do
    checkTouched "relation" p.relation.isSome pre.relation.isSome
    checkTouched "weight" p.weight.isSome pre.weight.isSome
    match pre.weight with
    | some w => guardOr (.preimageWeight w) (validateEdgeWeight w)
    | none => pure ()
    p.validateWeight
  | patch, preimage => .error (.targetMismatch patch.substrate preimage.substrate)

/-- Patches one record with a stage-time preimage of exactly the touched fields. -/
structure UpdateOp where
  targetId : Id128
  patch : UpdatePatch
  preimage : UpdatePreimage
  congruent : validateUpdateCongruence patch preimage = .ok ()

/-- Constructs an update after validating patch/preimage congruence. -/
def UpdateOp.new (targetId : Id128) (patch : UpdatePatch) (preimage : UpdatePreimage) :
    Except UpdateOpError UpdateOp :=
  match h : validateUpdateCongruence patch preimage with
  | .ok () => .ok ⟨targetId, patch, preimage, h⟩
  | .error e => .error e

theorem UpdateOp.new_eq_ok {targetId : Id128} {patch : UpdatePatch} {preimage : UpdatePreimage}
    {op : UpdateOp} (h : UpdateOp.new targetId patch preimage = .ok op) :
    op.targetId = targetId ∧ op.patch = patch ∧ op.preimage = preimage := by
  unfold UpdateOp.new at h
  split at h
  · cases h
    exact ⟨rfl, rfl, rfl⟩
  · cases h

/-- Patch and preimage of an update are for the same substrate. -/
theorem UpdateOp.preimage_substrate (op : UpdateOp) :
    op.preimage.substrate = op.patch.substrate := by
  have h := op.congruent
  cases hp : op.patch <;> cases hq : op.preimage <;>
    simp [hp, hq, validateUpdateCongruence, UpdatePatch.substrate] at h ⊢

/-! ## Deletes, restores and merges -/

/-- Removes one record with its required, full stage-time preimage. -/
structure DeleteOp where
  targetId : Id128
  hard : Bool
  preimage : Record

/-- Why a restore was refused at construction. -/
inductive RestoreOpError where
  | idMismatch (targetId recordId : Id128)
  | noteNotActive
  | tombstoned
  | invalidNumeric
deriving DecidableEq

/-- The status of a note; the other substrates have none. -/
def Record.status : Record → Option NoteStatus
  | .note row => some row.status
  | _ => none

/-- All numeric fields of the record carry domain-valid values. -/
def Record.isValid : Record → Bool
  | .entity _ => true
  | .note row => row.isValid
  | .edge row => row.isValid

/-- Checks target identity, live state, and the embedded numeric invariants. -/
def validateRestore (targetId : Id128) (record : Record) : Except RestoreOpError Unit := do
  guardOr (.idMismatch targetId record.recordId) (targetId == record.recordId)
  guardOr .noteNotActive (record.status.all (· == .active))
  guardOr .tombstoned (!record.isDeleted)
  guardOr .invalidNumeric record.isValid

/-- Restores a soft-deleted record to its captured live content. -/
structure RestoreOp where
  targetId : Id128
  record : Record
  checked : validateRestore targetId record = .ok ()

def RestoreOp.new (targetId : Id128) (record : Record) : Except RestoreOpError RestoreOp :=
  match h : validateRestore targetId record with
  | .ok () => .ok ⟨targetId, record, h⟩
  | .error e => .error e

theorem RestoreOp.new_eq_ok {targetId : Id128} {record : Record} {op : RestoreOp}
    (h : RestoreOp.new targetId record = .ok op) :
    op.targetId = targetId ∧ op.record = record := by
  unfold RestoreOp.new at h
  split at h
  · cases h
    exact ⟨rfl, rfl⟩
  · cases h

/-- What the restore constructor guarantees of its record. -/
theorem RestoreOp.record_spec (op : RestoreOp) :
    op.record.recordId = op.targetId ∧ op.record.status.all (· == .active) = true ∧
      op.record.deletedAt = none := by
  have h := op.checked
  simp only [validateRestore, seq_eq_ok, guardOr_eq_ok] at h
  obtain ⟨hid, hstatus, hlive, -⟩ := h
  refine ⟨(beq_iff_eq.mp hid).symm, hstatus, ?_⟩
  simpa [Record.isDeleted] using hlive

/-- Full prior state required to validate and rewire an entity merge. -/
structure MergePreimage where
  into : Entity
  «from» : Entity
  incidentEdges : List Link

/-- Merges two entities with required participant and incident-edge preimages. -/
structure MergeOp where
  intoId : Id128
  fromId : Id128
  preimage : MergePreimage

/-- One staged mutation. -/
inductive Op where
  | create (op : CreateOp)
  | link (op : LinkOp)
  | update (op : UpdateOp)
  | delete (op : DeleteOp)
  | restore (op : RestoreOp)
  | merge (op : MergeOp)

/-- Producer identity and stage-time provenance. -/
structure Envelope where
  schemaVersion : UInt32
  producer : String
  producerModelFamily : String
  stagedAt : Timestamp
  batchId : Option String
deriving DecidableEq

/-- An envelope and its operations, in the order they land. -/
structure ChangeSet where
  envelope : Envelope
  ops : List Op

end Khive
