import Khive.Merge.Archive

/-!
# Merging one record

Change classification and the record-level joins. Entities are keyed by id and edges by semantic
key; both go through the same decision table, each with its own joins. Structural equality leaves
timestamps out, and weights closer than `f64::EPSILON` count as equal.

Property payloads reconcile key by key when all three are objects, an absent key being a value
like any other. Other payloads are taken whole.
-/

namespace Khive

/-! ## Classification -/

/-- Compares optional property payloads exactly. -/
def propertiesEqual (a b : Option JsonValue) : Bool :=
  match a, b with
  | none, none => true
  | some a, some b => a == b
  | _, _ => false

/-- Compares merge-relevant entity fields, excluding timestamps. -/
def entitiesEqual (a b : ExportedEntity) : Bool :=
  a.id == b.id && a.kind == b.kind && a.entityType == b.entityType && a.name == b.name &&
    a.description == b.description && a.tags == b.tags && propertiesEqual a.properties b.properties

def weightsEqual (a b : Binary64) : Bool := (Binary64.abs (a.sub b)).lt Binary64.epsilon

/-- Compares merge-relevant fields for one semantic edge key. -/
def edgesEqual (a b : ExportedEdge) : Bool :=
  a.edgeId == b.edgeId && weightsEqual a.weight b.weight &&
    propertiesEqual a.properties b.properties

/-- Per-entity change classification between base and a branch. -/
abbrev EntityChange := Change ExportedEntity

/-- Per-edge change classification. -/
abbrev EdgeChange := Change ExportedEdge

namespace KgArchive

/-- The entity map of an archive. -/
def entity (a : KgArchive) (id : Id128) : Option ExportedEntity := lookupBy (·.id) a.entities id

/-- The edge map of an archive. -/
def edge (a : KgArchive) (key : EdgeKey) : Option ExportedEdge :=
  lookupBy EdgeKey.fromEdge a.edges key

end KgArchive

/-- Classifies an entity UUID in the union of `base` and `branch`. -/
def diffEntities (base branch : KgArchive) (id : Id128) : Option EntityChange :=
  classify entitiesEqual (base.entity id) (branch.entity id)

/-- Classifies a semantic edge key in the union of `base` and `branch`. -/
def diffEdges (base branch : KgArchive) (key : EdgeKey) : Option EdgeChange :=
  classify edgesEqual (base.edge key) (branch.edge key)

/-! ## Properties -/

/-- Selects a property value; the flag tells that both sides changed it differently. -/
def selectPropertyValue (base ours theirs : Option JsonValue) : Option JsonValue × Bool :=
  if ours == theirs then (ours, false)
  else if ours == base then (theirs, false)
  else if theirs == base then (ours, false)
  else (ours, true)

/-- Whether a payload is absent or an object. -/
def isObjectLike : Option JsonValue → Bool
  | none => true
  | some (.object _) => true
  | _ => false

/-- The outcome of reconciling a property payload. -/
structure PayloadMerge where
  merged : Option JsonValue
  /-- The payloads diverge and are not all objects. -/
  atomic : Bool
  /-- The keys both sides changed differently, with the two values. -/
  diverging : List (String × Option JsonValue × Option JsonValue)

/-- Per-key reconciliation of three objects. -/
def mergeObjects (base ours theirs : Option JsonValue) : PayloadMerge :=
  let baseObject := (base.bind JsonValue.asObject).getD []
  let oursObject := (ours.bind JsonValue.asObject).getD []
  let theirsObject := (theirs.bind JsonValue.asObject).getD []
  let keys := sortedDistinct (fun a b ↦ decide (a ≤ b))
    (baseObject.map Prod.fst ++ oursObject.map Prod.fst ++ theirsObject.map Prod.fst)
  let select := fun key ↦ selectPropertyValue (getMember baseObject key)
    (getMember oursObject key) (getMember theirsObject key)
  let members := keys.filterMap fun key ↦ (select key).1.map (key, ·)
  { merged :=
      if members.isEmpty && (ours.isNone || theirs.isNone) then none else some (.object members)
    atomic := false
    diverging := keys.filterMap fun key ↦
      if (select key).2 then some (key, getMember oursObject key, getMember theirsObject key)
      else none }

/-- The part `merge_properties` and `merge_edge_properties` share. -/
def mergePayload (base ours theirs : Option JsonValue) : PayloadMerge :=
  if propertiesEqual ours theirs then ⟨ours, false, []⟩
  else if propertiesEqual ours base then ⟨theirs, false, []⟩
  else if propertiesEqual theirs base then ⟨ours, false, []⟩
  else if !(isObjectLike base && isObjectLike ours && isObjectLike theirs) then ⟨ours, true, []⟩
  else mergeObjects base ours theirs

/-! ## Entities -/

/-- Merges object properties per key against the common base. -/
def mergeProperties (id : Id128) (base ours theirs : Option JsonValue) :
    Option JsonValue × List MergeConflict :=
  let m := mergePayload base ours theirs
  (m.merged,
    if m.atomic then
      [.propertyMismatch id "properties" (ours.getD .null) (theirs.getD .null)]
    else m.diverging.map fun d ↦
      .propertyMismatch id d.1 (d.2.1.getD .null) (d.2.2.getD .null))

/-- Reconciles one double-modified entity and reports unresolvable fields. -/
def fieldLevelMerge (id : Id128) (base ours theirs : ExportedEntity) :
    ExportedEntity × List MergeConflict :=
  let props := mergeProperties id base.properties ours.properties theirs.properties
  let tags := sortedDistinct (fun a b ↦ decide (a ≤ b)) (ours.tags ++ theirs.tags)
  -- a diverging description is annotation rather than identity, so ours stays
  ({ ours with tags, properties := props.1 },
    (if ours.name ≠ theirs.name then [.nameConflict id ours.name theirs.name] else []) ++
    (if ours.kind ≠ theirs.kind then [.kindConflict id ours.kind theirs.kind] else []) ++
    (if ours.entityType ≠ theirs.entityType then
      [.propertyMismatch id "entity_type" (JsonValue.ofOptionString ours.entityType)
        (JsonValue.ofOptionString theirs.entityType)] else []) ++
    props.2)

/-- Lists content fields that differ for a duplicate UUID addition. -/
def detectEntityDiffs (ours theirs : ExportedEntity) : List String :=
  (if ours.name ≠ theirs.name then ["name"] else []) ++
  (if ours.kind ≠ theirs.kind then ["kind"] else []) ++
  (if ours.entityType ≠ theirs.entityType then ["entity_type"] else []) ++
  (if ours.description ≠ theirs.description then ["description"] else []) ++
  (if !propertiesEqual ours.properties theirs.properties then ["properties"] else []) ++
  (if ours.tags.insertionSort (· ≤ ·) ≠ theirs.tags.insertionSort (· ≤ ·) then ["tags"] else [])

/-- The other side. -/
def BranchSide.other : BranchSide → BranchSide
  | .ours => .theirs
  | .theirs => .ours

/-- How entities join. Conflicted double modifications retain ours as a provisional fallback. -/
def entityJoin (id : Id128) : Join ExportedEntity ExportedEntity MergeConflict where
  keep e := e
  takeAdded e := e
  takeModified _ e := e
  joinAdded ours theirs :=
    let diffs := detectEntityDiffs ours theirs
    (ours, if diffs.isEmpty then [] else [.duplicateAddition id diffs])
  joinModified base ours theirs :=
    let m := fieldLevelMerge id base ours theirs
    if m.2.isEmpty then (m.1, []) else (ours, m.2)
  clash side := .modifyDelete id side side.other

/-! ## Edges -/

/-- The payload conflict of one semantic edge. -/
def edgePropertyConflict (key : EdgeKey) (ours theirs : Option JsonValue) : MergeConflict :=
  .edgePropertyMismatch key.source key.target key.relation ours theirs

/-- Three-way merges governed edge metadata without discarding independent keys. -/
def mergeEdgeProperties (key : EdgeKey) (base ours theirs : Option JsonValue) :
    Option JsonValue × List MergeConflict :=
  let m := mergePayload base ours theirs
  (m.merged,
    if m.atomic || !m.diverging.isEmpty then [edgePropertyConflict key ours theirs] else [])

/-- Reconciles two independently added records for one semantic edge key. -/
def mergeAddedEdges (key : EdgeKey) (ours theirs : ExportedEdge) :
    ExportedEdge × List MergeConflict :=
  let props := mergeEdgeProperties key none ours.properties theirs.properties
  ({ ours with weight := ours.weight.max theirs.weight, properties := props.1 }, props.2)

/-- The weight of a double-modified edge: the maximum only when both branches changed it. -/
def mergeWeights (base ours theirs : Binary64) : Binary64 :=
  match !weightsEqual base ours, !weightsEqual base theirs with
  | false, false => base
  | true, false => ours
  | false, true => theirs
  | true, true => ours.max theirs

/-- The durable id of a double-modified edge. -/
def mergeIdentities (key : EdgeKey) (base ours theirs : Id128) : Id128 × List MergeConflict :=
  match base != ours, base != theirs with
  | false, false => (base, [])
  | true, false => (ours, [])
  | false, true => (theirs, [])
  | true, true =>
    (ours, if ours == theirs then []
      else [.edgeIdentityMismatch key.source key.target key.relation ours theirs])

/-- Three-way reconciliation for two modified records of one semantic edge. -/
def mergeModifiedEdges (key : EdgeKey) (base ours theirs : ExportedEdge) :
    ExportedEdge × List MergeConflict :=
  let props := mergeEdgeProperties key base.properties ours.properties theirs.properties
  let identity := mergeIdentities key base.edgeId ours.edgeId theirs.edgeId
  ({ ours with
      weight := mergeWeights base.weight ours.weight theirs.weight
      properties := props.1
      edgeId := identity.1 }, props.2 ++ identity.2)

/-- How edges join. The flag tells whether the durable identity is the base's. -/
def edgeJoin (key : EdgeKey) : Join ExportedEdge (ExportedEdge × Bool) MergeConflict where
  keep e := (e, true)
  takeAdded e := (e, false)
  takeModified base e := (e, base.edgeId == e.edgeId)
  joinAdded ours theirs :=
    let m := mergeAddedEdges key ours theirs
    ((m.1, false), m.2)
  joinModified base ours theirs :=
    let m := mergeModifiedEdges key base ours theirs
    ((m.1, m.1.edgeId == base.edgeId), m.2)
  clash side := .edgeModifyDelete key.source key.target key.relation side side.other

end Khive
