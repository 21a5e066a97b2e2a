import Khive.Changeset.Op

/-!
# Preimage checks

Field-scoped comparison of a captured preimage against the record visible to an applying writer.
An update compares exactly the fields it touches; a delete compares the whole record except for
`updatedAt`, which the applier stamps. The first differing field is named in the error.
-/

namespace Khive

/-- A stable field path without captured or current record contents. -/
structure PreimageMismatch where
  fieldPath : String
deriving DecidableEq, Repr

section

variable {α : Type} [BEq α]

def equal (field : String) (captured live : α) : Except PreimageMismatch Unit :=
  guardOr ⟨field⟩ (captured == live)

def touched (field : String) (captured : Option α) (live : α) : Except PreimageMismatch Unit :=
  match captured with
  | some captured => equal field captured live
  | none => .ok ()

@[simp] theorem equal_eq_ok {field : String} {captured live : α} :
    equal field captured live = .ok () ↔ (captured == live) = true :=
  guardOr_eq_ok

/-- The value is untouched, or it is the expected one. -/
def Holds (expected : Option α) (value : α) : Prop :=
  ∀ v, expected = some v → (v == value) = true

@[simp] theorem touched_eq_ok {field : String} {captured : Option α} {live : α} :
    touched field captured live = .ok () ↔ Holds captured live := by
  cases captured <;> simp [touched, Holds]

end

/-- The caller must read `live` inside the same transaction that applies `op`. -/
def checkUpdate (op : UpdateOp) (live : Record) : Except PreimageMismatch Unit :=
  match op.preimage, live with
  | .entity preimage, .entity live => do
    equal "id" op.targetId live.header.id
    touched "name" preimage.name live.name
    touched "description" preimage.description live.description
    touched "properties" preimage.properties live.properties
    touched "tags" preimage.tags live.tags
    touched "entity_type" preimage.entityType live.entityType
  | .note preimage, .note live => do
    equal "id" op.targetId live.header.id
    touched "content" preimage.content live.content
    touched "salience" preimage.salience live.salience
    touched "decay_factor" preimage.decayFactor live.decayFactor
    touched "properties" preimage.properties live.properties
    touched "tags" preimage.tags live.tags
  | .edge preimage, .edge live => do
    equal "id" op.targetId live.id
    touched "relation" preimage.relation live.relation
    touched "weight" preimage.weight live.weight
  | _, _ => .error ⟨"substrate"⟩

def checkHeader (captured live : Header) : Except PreimageMismatch Unit := do
  equal "id" captured.id live.id
  equal "namespace" captured.namespace live.namespace
  equal "created_at" captured.createdAt live.createdAt

/-- The captured record is exact except for its applier-stamped `updatedAt`. -/
def checkDelete (op : DeleteOp) (live : Record) : Except PreimageMismatch Unit :=
  match op.preimage, live with
  | .entity captured, .entity live => do
    equal "id" op.targetId live.header.id
    checkHeader captured.header live.header
    equal "kind" captured.kind live.kind
    equal "entity_type" captured.entityType live.entityType
    equal "name" captured.name live.name
    equal "description" captured.description live.description
    equal "properties" captured.properties live.properties
    equal "tags" captured.tags live.tags
    equal "deleted_at" captured.deletedAt live.deletedAt
  | .note captured, .note live => do
    equal "id" op.targetId live.header.id
    checkHeader captured.header live.header
    equal "kind" captured.kind live.kind
    equal "status" captured.status live.status
    equal "content" captured.content live.content
    equal "properties" captured.properties live.properties
    equal "tags" captured.tags live.tags
    equal "salience" captured.salience live.salience
    equal "decay_factor" captured.decayFactor live.decayFactor
    equal "expires_at" captured.expiresAt live.expiresAt
    equal "deleted_at" captured.deletedAt live.deletedAt
  | .edge captured, .edge live => do
    equal "id" op.targetId live.id
    equal "id" captured.id live.id
    equal "namespace" captured.namespace live.namespace
    equal "source" captured.source live.source
    equal "target" captured.target live.target
    equal "relation" captured.relation live.relation
    equal "properties" captured.properties live.properties
    equal "weight" captured.weight live.weight
    equal "created_at" captured.createdAt live.createdAt
    equal "deleted_at" captured.deletedAt live.deletedAt
  | _, _ => .error ⟨"substrate"⟩

end Khive
