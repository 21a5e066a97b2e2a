import Khive.Foundation.Checks
import Khive.Foundation.Keyed
import Khive.Foundation.ThreeWay
import Khive.Types.Edge
import Khive.Types.Value

/-!
# Archives and their validation

A portable archive is a list of entities and a list of edges under a namespace. An edge is
identified twice: by its durable `edgeId`, and by its semantic key, the relation and the endpoints
in canonical order. A valid archive repeats neither, nor an entity id, and its weights are finite.
-/

namespace Khive

/-- An instant, in nanoseconds since the Unix epoch. -/
abbrev DateTime := ℤ

/-- An entity record in the portable archive. -/
structure ExportedEntity where
  id : Id128
  kind : String
  entityType : Option String
  name : String
  description : Option String
  properties : Option JsonValue
  tags : List String
  createdAt : DateTime
  updatedAt : DateTime

/-- A directed edge record in the portable archive. -/
structure ExportedEdge where
  edgeId : Id128
  source : Id128
  target : Id128
  relation : EdgeRelation
  weight : Binary64
  properties : Option JsonValue
  createdAt : DateTime
  updatedAt : DateTime

/-- A portable knowledge-graph archive. -/
structure KgArchive where
  format : String
  version : String
  «namespace» : String
  exportedAt : DateTime
  entities : List ExportedEntity
  edges : List ExportedEdge

/-- Composite key for edge identity: canonical endpoints and relation name. -/
structure EdgeKey where
  source : Id128
  target : Id128
  relation : String
deriving DecidableEq

/-- Symmetric-relation endpoints are canonicalized so swapped duplicates compare equal. -/
def EdgeKey.fromEdge (e : ExportedEdge) : EdgeKey :=
  let endpoints := e.relation.canonicalEndpoints e.source e.target
  ⟨endpoints.1, endpoints.2, e.relation.asStr⟩

/-- The order keys are sorted in: source, then target, then relation name. -/
def EdgeKey.le (a b : EdgeKey) : Bool :=
  a.source < b.source || (a.source == b.source &&
    (a.target < b.target || (a.target == b.target && decide (a.relation ≤ b.relation))))

namespace KgArchive

def entityIds (a : KgArchive) : List Id128 := a.entities.map (·.id)

def edgeIds (a : KgArchive) : List Id128 := a.edges.map (·.edgeId)

def edgeKeys (a : KgArchive) : List EdgeKey := a.edges.map EdgeKey.fromEdge

end KgArchive

/-! ## Results, conflicts, errors -/

/-- Selects semantic conflict detection or a last-write-wins branch preference. -/
inductive SnapshotMergeStrategy where
  | auto | ours | theirs
deriving DecidableEq, Repr

/-- A well-formed but unresolved semantic disagreement between branches. -/
inductive MergeConflict where
  | nameConflict (entityId : Id128) (ours theirs : String)
  | kindConflict (entityId : Id128) (ours theirs : String)
  | propertyMismatch (entityId : Id128) (key : String) (ours theirs : JsonValue)
  | modifyDelete (entityId : Id128) (modifiedIn deletedIn : BranchSide)
  | duplicateAddition (entityId : Id128) (differingFields : List String)
  | edgeModifyDelete (sourceId targetId : Id128) (relation : String)
      (modifiedIn deletedIn : BranchSide)
  | edgeIdentityMismatch (sourceId targetId : Id128) (relation : String) (ours theirs : Id128)
  | edgeIdentityCollision (sourceId targetId : Id128) (relation : String)
      (attemptedEdgeId retainedEdgeId : Id128)
  | edgePropertyMismatch (sourceId targetId : Id128) (relation : String)
      (ours theirs : Option JsonValue)
  | danglingEdge (sourceId targetId : Id128) (relation : String) (missingEndpoint : Id128)

/-- A clean owned archive or typed conflicts requiring resolution. -/
inductive MergeResult where
  | clean (merged : KgArchive)
  | conflicts (conflicts : List MergeConflict)

/-- Invalid-input failures that prevent merge evaluation. -/
inductive MergeError where
  | namespaceMismatch (base ours theirs : String)
  | invalidEdgeWeight (source target : Id128) (relation : String) (weight : Binary64)
  | duplicateEntityId (entityId : Id128)
  | duplicateEdgeKey (edgeSource edgeTarget : Id128) (edgeRelation : String)
  | duplicateEdgeId (edgeId : Id128)

/-! ## Validation -/

/-- Fail on the first key already seen. -/
def checkDistinct {κ : Type} [DecidableEq κ] (error : κ → MergeError) (ks : List κ) :
    Except MergeError Unit :=
  match firstRepeat [] ks with
  | some k => .error (error k)
  | none => .ok ()

theorem checkDistinct_eq_ok {κ : Type} [DecidableEq κ] {error : κ → MergeError} {ks : List κ} :
    checkDistinct error ks = .ok () ↔ ks.Nodup := by
  have hnone : firstRepeat [] ks = none ↔ ks.Nodup := by
    rw [firstRepeat_eq_none]
    simp
  rw [← hnone, checkDistinct]
  split
  · next k hk => simp [hk]
  · next hk => simp [hk]

/-- Fail on the first edge with a NaN or infinite weight. -/
def checkWeights (edges : List ExportedEdge) : Except MergeError Unit :=
  match edges.find? (fun e ↦ !e.weight.isFinite) with
  | some e => .error (.invalidEdgeWeight e.source e.target e.relation.asStr e.weight)
  | none => .ok ()

theorem checkWeights_eq_ok {edges : List ExportedEdge} :
    checkWeights edges = .ok () ↔ ∀ e ∈ edges, e.weight.isFinite = true := by
  have hnone : edges.find? (fun e ↦ !e.weight.isFinite) = none ↔
      ∀ e ∈ edges, e.weight.isFinite = true := by
    simp [List.find?_eq_none]
  rw [← hnone, checkWeights]
  split
  · next e he => simp [he]
  · next he => simp [he]

def validateArchive (archive : KgArchive) : Except MergeError Unit := do
  checkWeights archive.edges
  checkDistinct .duplicateEntityId archive.entityIds
  checkDistinct .duplicateEdgeId archive.edgeIds
  checkDistinct (fun k ↦ .duplicateEdgeKey k.source k.target k.relation) archive.edgeKeys

/-- What validation establishes. -/
structure KgArchive.Valid (a : KgArchive) : Prop where
  finite : ∀ e ∈ a.edges, e.weight.isFinite = true
  entityIds : a.entityIds.Nodup
  edgeIds : a.edgeIds.Nodup
  edgeKeys : a.edgeKeys.Nodup

theorem validateArchive_eq_ok {a : KgArchive} : validateArchive a = .ok () ↔ a.Valid := by
  simp only [validateArchive, seq_eq_ok, checkWeights_eq_ok, checkDistinct_eq_ok]
  exact ⟨fun ⟨h₁, h₂, h₃, h₄⟩ ↦ ⟨h₁, h₂, h₃, h₄⟩, fun ⟨h₁, h₂, h₃, h₄⟩ ↦ ⟨h₁, h₂, h₃, h₄⟩⟩

/-- Validates namespace, finite-weight, and entity/edge uniqueness invariants. -/
def validateInputs (base ours theirs : KgArchive) : Except MergeError Unit := do
  guardOr (.namespaceMismatch base.namespace ours.namespace theirs.namespace)
    (base.namespace == ours.namespace && base.namespace == theirs.namespace)
  validateArchive base
  validateArchive ours
  validateArchive theirs

theorem validateInputs_eq_ok {base ours theirs : KgArchive} :
    validateInputs base ours theirs = .ok () ↔
      (base.namespace = ours.namespace ∧ base.namespace = theirs.namespace) ∧
        base.Valid ∧ ours.Valid ∧ theirs.Valid := by
  simp only [validateInputs, seq_eq_ok, validateArchive_eq_ok, guardOr_eq_ok, Bool.and_eq_true,
    beq_iff_eq]

end Khive
