import Khive.Merge.Records

/-!
# The three-way merge

`threeWayMerge` validates its inputs and dispatches on the strategy. The automatic merge walks all
entity ids and all semantic edge keys in order; edges then go through two more passes, which
reserve the durable ids inherited from the base and resolve the ids a branch chose against them.
The shortcut strategies copy the preferred branch and append what only the other one added.
-/

namespace Khive

/-! ## Entities -/

/-- All entity ids of the two diffs, sorted. -/
def allEntityIds (base ours theirs : KgArchive) : List Id128 :=
  sortedDistinct (fun a b ↦ decide (a ≤ b)) (base.entityIds ++ ours.entityIds ++ theirs.entityIds)

def mergeEntity (base ours theirs : KgArchive) (id : Id128) :
    Option ExportedEntity × List MergeConflict :=
  reconcile (entityJoin id) (base.entity id) (diffEntities base ours id)
    (diffEntities base theirs id)

/-- Merges all entity UUIDs and returns a provisional set plus typed conflicts. -/
def mergeEntities (base ours theirs : KgArchive) : List ExportedEntity × List MergeConflict :=
  let ids := allEntityIds base ours theirs
  (ids.filterMap fun id ↦ (mergeEntity base ours theirs id).1,
    ids.flatMap fun id ↦ (mergeEntity base ours theirs id).2)

/-! ## Edges -/

/-- Symmetric-relation endpoints in canonical `(min, max)` order. -/
def canonicalizeEndpoints (e : ExportedEdge) : ExportedEdge :=
  let endpoints := e.relation.canonicalEndpoints e.source e.target
  { e with source := endpoints.1, target := endpoints.2 }

/-- All semantic edge keys of the two diffs, sorted. -/
def allEdgeKeys (base ours theirs : KgArchive) : List EdgeKey :=
  sortedDistinct EdgeKey.le (base.edgeKeys ++ ours.edgeKeys ++ theirs.edgeKeys)

/-- First pass, one key: the provisional edge and whether its identity is the base's. -/
def mergeEdge (base ours theirs : KgArchive) (key : EdgeKey) :
    Option (ExportedEdge × Bool) × List MergeConflict :=
  reconcile (edgeJoin key) (base.edge key) (diffEdges base ours key) (diffEdges base theirs key)

/-- A key with its provisional edge. -/
structure Candidate where
  key : EdgeKey
  edge : ExportedEdge
  identityIsBase : Bool

def edgeCandidate (base ours theirs : KgArchive) (key : EdgeKey) : Option Candidate :=
  (mergeEdge base ours theirs key).1.map fun c ↦ ⟨key, canonicalizeEndpoints c.1, c.2⟩

/-- Second pass: the durable identities inherited unchanged from base. -/
def reservedIds (candidates : List Candidate) : List Id128 :=
  candidates.filterMap fun c ↦ if c.identityIsBase then some c.edge.edgeId else none

/-- The conflict of an edge whose chosen identity is taken. -/
def edgeIdentityConflict (c : Candidate) (resolved : Option Id128) : MergeConflict :=
  .edgeIdentityCollision c.key.source c.key.target c.key.relation c.edge.edgeId
    (resolved.getD c.edge.edgeId)

/-- Third pass: resolve branch-chosen identities against the identities in use, in key order. A
taken identity falls back to the key's own base identity if that is still free; otherwise the edge
is dropped. -/
def resolveIdentities (base : KgArchive) :
    List Id128 → List Candidate → List ExportedEdge × List MergeConflict
  | _, [] => ([], [])
  | used, c :: cs =>
    if c.identityIsBase then
      let rest := resolveIdentities base used cs
      (c.edge :: rest.1, rest.2)
    else if c.edge.edgeId ∉ used then
      let rest := resolveIdentities base (c.edge.edgeId :: used) cs
      (c.edge :: rest.1, rest.2)
    else
      match ((base.edge c.key).map (·.edgeId)).filter (· ∉ used) with
      | some id =>
        let rest := resolveIdentities base (id :: used) cs
        ({ c.edge with edgeId := id } :: rest.1, edgeIdentityConflict c (some id) :: rest.2)
      | none =>
        let rest := resolveIdentities base used cs
        (rest.1, edgeIdentityConflict c none :: rest.2)

/-- Merges edges from `base`, `ours`, and `theirs` by semantic edge key. -/
def mergeEdges (base ours theirs : KgArchive) : List ExportedEdge × List MergeConflict :=
  let keys := allEdgeKeys base ours theirs
  let candidates := keys.filterMap (edgeCandidate base ours theirs)
  let resolved := resolveIdentities base (reservedIds candidates) candidates
  (resolved.1, (keys.flatMap fun key ↦ (mergeEdge base ours theirs key).2) ++ resolved.2)

/-- Reports edges whose source or target is absent from `entityIds`; source first. -/
def validateDanglingEdges (edges : List ExportedEdge) (entityIds : List Id128) :
    List MergeConflict :=
  edges.filterMap fun e ↦
    if e.source ∉ entityIds then
      some (.danglingEdge e.source e.target e.relation.asStr e.source)
    else if e.target ∉ entityIds then
      some (.danglingEdge e.source e.target e.relation.asStr e.target)
    else none

/-! ## Shortcut strategies -/

/-- The edges only `theirs` added: one whose durable id is in use is skipped and reported. -/
def appendEdges (skip : EdgeKey → Bool) :
    List Id128 → List ExportedEdge → List ExportedEdge × List MergeConflict
  | _, [] => ([], [])
  | used, e :: es =>
    if skip (EdgeKey.fromEdge e) then appendEdges skip used es
    else if e.edgeId ∉ used then
      let rest := appendEdges skip (e.edgeId :: used) es
      (e :: rest.1, rest.2)
    else
      let rest := appendEdges skip used es
      (rest.1, .edgeIdentityCollision e.source e.target e.relation.asStr e.edgeId e.edgeId
        :: rest.2)

/-- Selects ours, plus additions unique to theirs, for entities and edges. -/
def applyOursWithConflicts (base ours theirs : KgArchive) : KgArchive × List MergeConflict :=
  let additions := theirs.entities.filter fun e ↦ e.id ∉ base.entityIds ∧ e.id ∉ ours.entityIds
  let appended := appendEdges (fun k ↦ decide (k ∈ base.edgeKeys ∨ k ∈ ours.edgeKeys))
    ours.edgeIds theirs.edges
  ({ format := ours.format
     version := ours.version
     «namespace» := ours.namespace
     exportedAt := ours.exportedAt
     entities := ours.entities ++ additions
     edges := ours.edges ++ appended.1 }, appended.2)

/-- Selects theirs, plus additions unique to ours. -/
def applyTheirsWithConflicts (base ours theirs : KgArchive) : KgArchive × List MergeConflict :=
  applyOursWithConflicts base theirs ours

/-! ## The merge -/

/-- Sorts entities by UUID for deterministic output. -/
def sortEntities (entities : List ExportedEntity) : List ExportedEntity :=
  entities.insertionSort fun a b ↦ a.id ≤ b.id

/-- Sorts edges by endpoints and relation, then edge UUID. -/
def sortEdges (edges : List ExportedEdge) : List ExportedEdge :=
  edges.insertionSort fun a b ↦
    a.source < b.source ∨ (a.source = b.source ∧
      (a.target < b.target ∨ (a.target = b.target ∧
        (a.relation.asStr < b.relation.asStr ∨ (a.relation.asStr = b.relation.asStr ∧
          a.edgeId ≤ b.edgeId)))))

/-- Selects the later branch timestamp without reading the wall clock. -/
def deterministicTimestamp (ours theirs : KgArchive) : DateTime :=
  max ours.exportedAt theirs.exportedAt

/-- Sorts, stamps, and dangling-checks a last-write-wins result. -/
def finishShortcutMerge (merged ours theirs : KgArchive) (conflicts : List MergeConflict) :
    Except MergeError MergeResult := do
  let merged := { merged with
    entities := sortEntities merged.entities
    edges := sortEdges merged.edges
    exportedAt := deterministicTimestamp ours theirs }
  validateArchive merged
  let conflicts := conflicts ++ validateDanglingEdges merged.edges merged.entityIds
  pure (if conflicts.isEmpty then .clean merged else .conflicts conflicts)

/-- The archive an automatic merge without conflicts returns. -/
def autoArchive (base ours theirs : KgArchive) : KgArchive where
  format := ours.format
  version := ours.version
  «namespace» := ours.namespace
  exportedAt := deterministicTimestamp ours theirs
  entities := sortEntities (mergeEntities base ours theirs).1
  edges := sortEdges (mergeEdges base ours theirs).1

def threeWayMergeAuto (base ours theirs : KgArchive) : Except MergeError MergeResult :=
  let entities := mergeEntities base ours theirs
  let edges := mergeEdges base ours theirs
  let dangling := validateDanglingEdges edges.1 (entities.1.map (·.id))
  let conflicts := entities.2 ++ edges.2 ++ dangling
  if conflicts.isEmpty then do
    validateArchive (autoArchive base ours theirs)
    pure (.clean (autoArchive base ours theirs))
  else pure (.conflicts conflicts)

/-- Merges `ours` and `theirs` against their common `base` under `strategy`. -/
def threeWayMerge (base ours theirs : KgArchive) (strategy : SnapshotMergeStrategy) :
    Except MergeError MergeResult := do
  validateInputs base ours theirs
  match strategy with
  | .ours =>
    let m := applyOursWithConflicts base ours theirs
    finishShortcutMerge m.1 ours theirs m.2
  | .theirs =>
    let m := applyTheirsWithConflicts base ours theirs
    finishShortcutMerge m.1 ours theirs m.2
  | .auto => threeWayMergeAuto base ours theirs

end Khive
