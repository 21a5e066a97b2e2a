import Khive.Changeset.Preimage

/-!
# Stage-time inversion

`ChangeSet.invert` walks the operations backwards over a private working copy of the current
records, checks that each operation's effect is still what the working copy shows, and rewinds it.
A restore does not capture the earlier tombstone's timestamp, so the walk keeps the keys it has
rewound to "deleted" in a set of their own instead of inventing a timestamp.

The three ordered maps of `CurrentState` are functions here; only lookup, insertion and removal
are used of them.
-/

namespace Khive

/-! ## Current records -/

/-- Current records, including soft-deleted records, read when staging a revert. -/
structure CurrentState where
  entities : Id128 → Option Entity
  notes : Id128 → Option Note
  edges : Id128 → Option Link

/-- Which map, and which key in it. -/
abbrev RecordKey := Substrate × Id128

/-- `record_key`: the slot a record belongs in. -/
def Record.key (record : Record) : RecordKey := (record.substrate, record.recordId)

namespace CurrentState

/-- The record in a slot. -/
def get (S : CurrentState) : RecordKey → Option Record
  | (.entity, id) => (S.entities id).map .entity
  | (.note, id) => (S.notes id).map .note
  | (.edge, id) => (S.edges id).map .edge

def insert (S : CurrentState) (id : Id128) : Record → CurrentState
  | .entity row => { S with entities := Function.update S.entities id (some row) }
  | .note row => { S with notes := Function.update S.notes id (some row) }
  | .edge row => { S with edges := Function.update S.edges id (some row) }

def remove (S : CurrentState) : RecordKey → CurrentState
  | (.entity, id) => { S with entities := Function.update S.entities id none }
  | (.note, id) => { S with notes := Function.update S.notes id none }
  | (.edge, id) => { S with edges := Function.update S.edges id none }

theorem get_insert (S : CurrentState) (id : Id128) (record : Record) (k : RecordKey) :
    (S.insert id record).get k
      = if k = (record.substrate, id) then some record else S.get k := by
  obtain ⟨substrate, id'⟩ := k
  cases record <;> cases substrate <;>
    simp only [insert, get, Record.substrate, Prod.mk.injEq, reduceCtorEq, false_and, true_and,
      if_false, Function.update_apply] <;>
    split <;> simp_all

theorem get_remove (S : CurrentState) (k k' : RecordKey) :
    (S.remove k).get k' = if k' = k then none else S.get k' := by
  obtain ⟨substrate, id⟩ := k
  obtain ⟨substrate', id'⟩ := k'
  cases substrate <;> cases substrate' <;>
    simp only [remove, get, Prod.mk.injEq, reduceCtorEq, false_and, true_and, if_false,
      Function.update_apply] <;>
    split <;> simp_all

/-- A slot holds records of its own substrate. -/
theorem get_substrate {S : CurrentState} {k : RecordKey} {r : Record} (h : S.get k = some r) :
    r.substrate = k.1 := by
  obtain ⟨substrate, id⟩ := k
  cases substrate <;>
    · simp only [get, Option.map_eq_some_iff] at h
      obtain ⟨row, -, rfl⟩ := h
      rfl

end CurrentState

/-! ## Refusals and checks -/

/-- A refusal to stage an inverse. Indexes are those of the forward op-list. -/
inductive InvertError where
  | reusedEnvelope
  | notInvertible (index : ℕ) (op : String)
  | missingCurrent (index : ℕ) (id : Id128)
  | invalidated (index : ℕ) (id : Id128) (field : String)
  | inverseRestore (index : ℕ) (reason : RestoreOpError)
  | inverseUpdate (index : ℕ) (reason : UpdateOpError)

/-- `check`. -/
def checkCurrent (index : ℕ) (id : Id128) (field : String) (isMatch : Bool) :
    Except InvertError Unit :=
  guardOr (.invalidated index id field) isMatch

@[simp] theorem checkCurrent_eq_ok {index : ℕ} {id : Id128} {field : String} {isMatch : Bool} :
    checkCurrent index id field isMatch = .ok () ↔ isMatch = true :=
  guardOr_eq_ok

/-- `if let Some(value) = &patch.field` followed by the check that the row still has it. -/
def checkPatched {α : Type} [BEq α] (index : ℕ) (id : Id128) (field : String) (row : α)
    (value : Option α) : Except InvertError Unit :=
  match value with
  | some value => checkCurrent index id field (row == value)
  | none => .ok ()

theorem checkPatched_eq_ok {α : Type} [BEq α] [PartialEquivBEq α] {index : ℕ} {id : Id128}
    {field : String} {row : α} {value : Option α} :
    checkPatched index id field row value = .ok () ↔ Holds value row := by
  cases value with
  | none => simp [checkPatched, Holds]
  | some v =>
    simp only [checkPatched, checkCurrent_eq_ok, Holds, Option.some.injEq, forall_eq']
    exact ⟨PartialEquivBEq.symm, PartialEquivBEq.symm⟩

/-- `ok_or(MissingCurrent)`. -/
def required {α : Type} (index : ℕ) (id : Id128) : Option α → Except InvertError α
  | some row => .ok row
  | none => .error (.missingCurrent index id)

@[simp] theorem required_eq_ok {α : Type} {index : ℕ} {id : Id128} {o : Option α} {row : α} :
    required index id o = .ok row ↔ o = some row := by
  cases o <;> simp [required]

/-! ## The working copy -/

/-- The walk's state: the working records, and the slots rewound to "deleted". -/
structure Rewind where
  working : CurrentState
  tombstones : List RecordKey

def currentRecord (index : ℕ) (id : Id128) (expected : Record) (working : CurrentState) :
    Except InvertError Record := do
  let record ← required index id (working.get (expected.substrate, id))
  checkCurrent index id "id" (record.recordId == id)
  pure record

def rewindRecord (record : Record) (working : CurrentState) : CurrentState :=
  working.insert record.recordId record

def checkRecordContent (index : ℕ) (id : Id128) :
    Record → Record → Except InvertError Unit
  | .entity row, .entity prior => do
    checkCurrent index id "kind" (row.kind == prior.kind)
    checkCurrent index id "entity_type" (row.entityType == prior.entityType)
    checkCurrent index id "name" (row.name == prior.name)
    checkCurrent index id "description" (row.description == prior.description)
    checkCurrent index id "properties" (row.properties == prior.properties)
    checkCurrent index id "tags" (row.tags == prior.tags)
    checkCurrent index id "namespace" (row.header.namespace == prior.header.namespace)
    checkCurrent index id "created_at" (row.header.createdAt == prior.header.createdAt)
  | .note row, .note prior => do
    checkCurrent index id "kind" (row.kind == prior.kind)
    checkCurrent index id "status" (row.status == prior.status)
    checkCurrent index id "content" (row.content == prior.content)
    checkCurrent index id "properties" (row.properties == prior.properties)
    checkCurrent index id "tags" (row.tags == prior.tags)
    checkCurrent index id "salience" (row.salience == prior.salience)
    checkCurrent index id "decay_factor" (row.decayFactor == prior.decayFactor)
    checkCurrent index id "expires_at" (row.expiresAt == prior.expiresAt)
    checkCurrent index id "namespace" (row.header.namespace == prior.header.namespace)
    checkCurrent index id "created_at" (row.header.createdAt == prior.header.createdAt)
  | .edge row, .edge prior => do
    checkCurrent index id "namespace" (row.namespace == prior.namespace)
    checkCurrent index id "source" (row.source == prior.source)
    checkCurrent index id "target" (row.target == prior.target)
    checkCurrent index id "relation" (row.relation == prior.relation)
    checkCurrent index id "weight" (row.weight == prior.weight)
    checkCurrent index id "properties" (row.properties == prior.properties)
    checkCurrent index id "created_at" (row.createdAt == prior.createdAt)
  | _, _ => checkCurrent index id "substrate" false

/-! ## One operation -/

/-- The lifecycle part of `invert_delete`. Soft deletion keeps an entity's or a note's `updatedAt`
and moves a note's status, which is rewound here; a slot the walk has itself rewound to "deleted"
still shows its live row, and is left alone. -/
def rewindLifecycle (index : ℕ) (id : Id128) (rewound : Bool) :
    Record → Record → Except InvertError Record
  | .entity row, .entity prior => do
    checkCurrent index id "updated_at"
      (rewound || row.header.updatedAt == prior.header.updatedAt)
    pure (.entity row)
  | .note row, .note prior => do
    checkCurrent index id "updated_at"
      (rewound || row.header.updatedAt == prior.header.updatedAt)
    checkCurrent index id "status" (rewound || row.status == .deleted)
    pure (.note { row with status := if rewound then row.status else prior.status })
  | row, _ => pure row

def invertDelete (index : ℕ) (delete : DeleteOp) (s : Rewind) :
    Except InvertError (Op × Rewind) := do
  let id := delete.targetId
  let restore ← (RestoreOp.new id delete.preimage).mapError (.inverseRestore index)
  let current ← currentRecord index id delete.preimage s.working
  let key := delete.preimage.key
  checkCurrent index id "deleted_at" (current.isDeleted || decide (key ∈ s.tombstones))
  let current ← rewindLifecycle index id (decide (key ∈ s.tombstones)) current delete.preimage
  checkRecordContent index id current delete.preimage
  pure (.restore restore,
    ⟨rewindRecord delete.preimage s.working, s.tombstones.filter (· ≠ key)⟩)

def invertRestore (index : ℕ) (restore : RestoreOp) (s : Rewind) :
    Except InvertError (Op × Rewind) := do
  let id := restore.targetId
  let key := restore.record.key
  let current ← currentRecord index id restore.record s.working
  checkCurrent index id "deleted_at" (!current.isDeleted && !decide (key ∈ s.tombstones))
  checkRecordContent index id current restore.record
  pure (.delete ⟨id, false, current⟩, ⟨s.working, key :: s.tombstones⟩)

/-- The slot a create fills. -/
def CreateOp.key (create : CreateOp) : RecordKey :=
  match create.target with
  | .entity _ => (.entity, create.id)
  | .note _ => (.note, create.id)

def invertCreate (index : ℕ) (create : CreateOp) (working : CurrentState) :
    Except InvertError (Op × CurrentState) :=
  let id := create.id
  match create.target with
  | .entity fields => do
    let row ← required index id (working.entities id)
    checkCurrent index id "id" (row.header.id == id)
    checkCurrent index id "namespace" (row.header.namespace == create.namespace)
    checkCurrent index id "deleted_at" row.deletedAt.isNone
    checkCurrent index id "kind" (row.kind == fields.entityKind)
    checkCurrent index id "entity_type" (row.entityType == fields.entityType)
    checkCurrent index id "name" (row.name == fields.name)
    checkCurrent index id "description" (row.description == fields.description)
    checkCurrent index id "properties" (row.properties == fields.properties)
    checkCurrent index id "tags" (row.tags == fields.tags)
    pure (.delete ⟨id, false, .entity row⟩, working.remove (.entity, id))
  | .note fields => do
    let row ← required index id (working.notes id)
    checkCurrent index id "id" (row.header.id == id)
    checkCurrent index id "namespace" (row.header.namespace == create.namespace)
    checkCurrent index id "deleted_at" row.deletedAt.isNone
    checkCurrent index id "kind" (row.kind == fields.noteKind)
    checkCurrent index id "status" (row.status == .active)
    checkCurrent index id "expires_at" row.expiresAt.isNone
    checkCurrent index id "content" (row.content == fields.content)
    checkCurrent index id "properties" (row.properties == fields.properties)
    checkCurrent index id "tags" (row.tags == fields.tags)
    checkCurrent index id "salience" (row.salience == fields.salience)
    checkCurrent index id "decay_factor" (row.decayFactor == fields.decayFactor)
    pure (.delete ⟨id, false, .note row⟩, working.remove (.note, id))

def invertLink (index : ℕ) (link : LinkOp) (working : CurrentState) :
    Except InvertError (Op × CurrentState) := do
  let id := link.id
  let row ← required index id (working.edges id)
  checkCurrent index id "id" (row.id == id)
  checkCurrent index id "namespace" (row.namespace == link.namespace.asStr)
  checkCurrent index id "deleted_at" row.deletedAt.isNone
  checkCurrent index id "source" (row.source == link.source)
  checkCurrent index id "target" (row.target == link.target)
  checkCurrent index id "relation" (row.relation == link.relation)
  checkCurrent index id "weight" (row.weight == link.weight)
  checkCurrent index id "properties" (row.properties == link.properties)
  pure (.delete ⟨id, false, .edge row⟩, working.remove (.edge, id))

/-- Exchange the roles of patch and preimage, through the checked constructor. -/
def swappedUpdate (index : ℕ) (update : UpdateOp) : Except InvertError UpdateOp :=
  (UpdateOp.new update.targetId update.preimage update.patch).mapError (.inverseUpdate index)

/-- Overwrite exactly the present fields. -/
def EntityPatch.overwrite (patch : EntityPatch) (row : Entity) : Entity :=
  { row with
    name := patch.name.getD row.name
    description := patch.description.getD row.description
    entityType := patch.entityType.getD row.entityType
    properties := patch.properties.getD row.properties
    tags := patch.tags.getD row.tags }

@[inherit_doc EntityPatch.overwrite]
def NotePatch.overwrite (patch : NotePatch) (row : Note) : Note :=
  { row with
    content := patch.content.getD row.content
    salience := patch.salience.getD row.salience
    decayFactor := patch.decayFactor.getD row.decayFactor
    properties := patch.properties.getD row.properties
    tags := patch.tags.getD row.tags }

@[inherit_doc EntityPatch.overwrite]
def EdgePatch.overwrite (patch : EdgePatch) (row : Link) : Link :=
  { row with
    relation := patch.relation.getD row.relation
    weight := patch.weight.getD row.weight }

def invertUpdate (index : ℕ) (update : UpdateOp) (working : CurrentState) :
    Except InvertError (Op × CurrentState) :=
  let id := update.targetId
  match update.patch, update.preimage with
  | .entity patch, .entity prior => do
    let row ← required index id (working.entities id)
    checkCurrent index id "id" (row.header.id == id)
    checkPatched index id "name" row.name patch.name
    checkPatched index id "description" row.description patch.description
    checkPatched index id "entity_type" row.entityType patch.entityType
    checkPatched index id "properties" row.properties patch.properties
    checkPatched index id "tags" row.tags patch.tags
    let inverse ← swappedUpdate index update
    pure (.update inverse, working.insert id (.entity (prior.overwrite row)))
  | .note patch, .note prior => do
    let row ← required index id (working.notes id)
    checkCurrent index id "id" (row.header.id == id)
    checkPatched index id "content" row.content patch.content
    checkPatched index id "salience" row.salience patch.salience
    checkPatched index id "decay_factor" row.decayFactor patch.decayFactor
    checkPatched index id "properties" row.properties patch.properties
    checkPatched index id "tags" row.tags patch.tags
    let inverse ← swappedUpdate index update
    pure (.update inverse, working.insert id (.note (prior.overwrite row)))
  | .edge patch, .edge prior => do
    let row ← required index id (working.edges id)
    checkCurrent index id "id" (row.id == id)
    checkPatched index id "relation" row.relation patch.relation
    checkPatched index id "weight" row.weight patch.weight
    let inverse ← swappedUpdate index update
    pure (.update inverse, working.insert id (.edge (prior.overwrite row)))
  | _, _ => do
    let inverse ← swappedUpdate index update
    pure (.update inverse, working)

def invertOp (index : ℕ) (op : Op) (s : Rewind) : Except InvertError (Op × Rewind) :=
  match op with
  | .create create => do
    checkCurrent index create.id "deleted_at" (!decide (create.key ∈ s.tombstones))
    let (inverse, working) ← invertCreate index create s.working
    pure (inverse, { s with working })
  | .link link => do
    checkCurrent index link.id "deleted_at"
      (!decide ((Substrate.edge, link.id) ∈ s.tombstones))
    let (inverse, working) ← invertLink index link s.working
    pure (inverse, { s with working })
  | .update update => do
    let (inverse, working) ← invertUpdate index update s.working
    pure (inverse, { s with working })
  | .delete delete =>
    if delete.hard then .error (.notInvertible index "delete") else invertDelete index delete s
  | .restore restore => invertRestore index restore s
  | .merge _ => .error (.notInvertible index "merge")

/-! ## The walk -/

/-- The reverse walk from `index` on: later operations first, each inverse appended. -/
def invertFrom (index : ℕ) : List Op → Rewind → Except InvertError (List Op × Rewind)
  | [], s => .ok ([], s)
  | op :: rest, s => do
    let (inverses, s) ← invertFrom (index + 1) rest s
    let (inverse, s) ← invertOp index op s
    pure (inverses ++ [inverse], s)

/-- Produces a reverse-ordered inverse with the caller's fresh envelope. -/
def ChangeSet.invert (changeset : ChangeSet) (envelope : Envelope) (current : CurrentState) :
    Except InvertError ChangeSet := do
  guardOr .reusedEnvelope (envelope != changeset.envelope)
  let (ops, _) ← invertFrom 0 changeset.ops ⟨current, []⟩
  pure ⟨envelope, ops⟩

end Khive
