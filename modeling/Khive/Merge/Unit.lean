import Khive.Merge.Soundness

/-!
# Unit laws of the automatic merge

Merging a branch with the base, on either side, or with itself returns the branch: the merge is
clean, and its archive has the branch's content. Content is what the merge compares, so it leaves
timestamps and the order of tags out and takes weights up to the code's equality.

The laws hold record by record, which the reconciliation library provides. What is left is that
the identity passes find nothing to object to: the ids they see are the ids of the branch, each
under the branch's own key for it, however the branch has moved ids between keys.
-/

namespace Khive

/-! ## Content -/

/-- The merge-relevant fields agree, tags as a set. -/
structure ExportedEntity.SameContent (m x : ExportedEntity) : Prop where
  id : m.id = x.id
  kind : m.kind = x.kind
  entityType : m.entityType = x.entityType
  name : m.name = x.name
  description : m.description = x.description
  properties : propertiesEqual m.properties x.properties = true
  tags : ∀ tag, tag ∈ m.tags ↔ tag ∈ x.tags

/-- The same semantic key, durable id, weight up to the code's equality, and properties. -/
structure ExportedEdge.SameContent (m x : ExportedEdge) : Prop where
  key : EdgeKey.fromEdge m = EdgeKey.fromEdge x
  edgeId : m.edgeId = x.edgeId
  weight : weightsEqual m.weight x.weight = true
  properties : propertiesEqual m.properties x.properties = true

/-- Two archives hold the same records, content for content. -/
structure KgArchive.SameContent (m x : KgArchive) : Prop where
  entities : ∀ id, Option.Rel ExportedEntity.SameContent (m.entity id) (x.entity id)
  edges : ∀ key, Option.Rel ExportedEdge.SameContent (m.edge key) (x.edge key)

theorem propertiesEqual_self (p : Option JsonValue) : propertiesEqual p p = true := by
  cases p with
  | none => rfl
  | some v => exact ReflBEq.rfl

theorem weightsEqual_self {w : Binary64} (h : w.isFinite = true) : weightsEqual w w = true := by
  rw [weightsEqual, Binary64.sub_self h]
  exact Binary64.abs_zero_lt_epsilon

theorem entitiesEqual_iff {a b : ExportedEntity} :
    entitiesEqual a b = true ↔ a.id = b.id ∧ a.kind = b.kind ∧ a.entityType = b.entityType ∧
      a.name = b.name ∧ a.description = b.description ∧ a.tags = b.tags ∧
      propertiesEqual a.properties b.properties = true := by
  simp only [entitiesEqual, Bool.and_eq_true, beq_iff_eq, and_assoc]

theorem edgesEqual_iff {a b : ExportedEdge} :
    edgesEqual a b = true ↔ a.edgeId = b.edgeId ∧ weightsEqual a.weight b.weight = true ∧
      propertiesEqual a.properties b.properties = true := by
  simp only [edgesEqual, Bool.and_eq_true, beq_iff_eq, and_assoc]

namespace ExportedEntity.SameContent

protected theorem refl (e : ExportedEntity) : e.SameContent e :=
  ⟨rfl, rfl, rfl, rfl, rfl, propertiesEqual_self _, fun _ ↦ Iff.rfl⟩

theorem of_equal {a b : ExportedEntity} (h : entitiesEqual a b = true) : a.SameContent b := by
  obtain ⟨h₁, h₂, h₃, h₄, h₅, h₆, h₇⟩ := entitiesEqual_iff.mp h
  exact ⟨h₁, h₂, h₃, h₄, h₅, h₇, fun tag ↦ by rw [h₆]⟩

end ExportedEntity.SameContent

/-! ## Records -/

/-- Property payloads that agree come through. -/
theorem mergePayload_self (b p : Option JsonValue) : mergePayload b p p = ⟨p, false, []⟩ := by
  rw [mergePayload, if_pos (propertiesEqual_self p)]

/-- A double modification to the same record raises nothing. -/
theorem fieldLevelMerge_self (id : Id128) (b x : ExportedEntity) :
    (fieldLevelMerge id b x x).2 = [] ∧ (fieldLevelMerge id b x x).1.SameContent x := by
  constructor
  · simp [fieldLevelMerge, mergeProperties, mergePayload_self]
  · refine ⟨rfl, rfl, rfl, rfl, rfl, ?_, fun tag ↦ ?_⟩
    · simp only [fieldLevelMerge, mergeProperties, mergePayload_self]
      exact propertiesEqual_self _
    · simp only [fieldLevelMerge, mem_sortedDistinct, List.mem_append, or_self]

theorem detectEntityDiffs_self (x : ExportedEntity) : detectEntityDiffs x x = [] := by
  simp [detectEntityDiffs, propertiesEqual_self]

theorem mergeEdgeProperties_self (key : EdgeKey) (b p : Option JsonValue) :
    mergeEdgeProperties key b p p = (p, []) := by
  simp [mergeEdgeProperties, mergePayload_self]

/-- The provisional record stands for `x`. -/
def StandsFor (c : ExportedEdge × Bool) (x : ExportedEdge) : Prop := edgesEqual c.1 x = true

theorem edgesEqual_self {e : ExportedEdge} (h : e.weight.isFinite = true) :
    edgesEqual e e = true :=
  edgesEqual_iff.mpr ⟨rfl, weightsEqual_self h, propertiesEqual_self _⟩

theorem mergeAddedEdges_self {key : EdgeKey} {x : ExportedEdge} (h : x.weight.isFinite = true) :
    (mergeAddedEdges key x x).2 = [] ∧ edgesEqual (mergeAddedEdges key x x).1 x = true := by
  simp only [mergeAddedEdges, mergeEdgeProperties_self, Binary64.max_self]
  exact ⟨trivial, edgesEqual_self h⟩

theorem mergeWeights_self {b x : Binary64} (h : x.isFinite = true) :
    weightsEqual (mergeWeights b x x) x = true := by
  cases hb : weightsEqual b x with
  | false => simp [mergeWeights, hb, Binary64.max_self, weightsEqual_self h]
  | true => simp [mergeWeights, hb]

theorem mergeIdentities_self (key : EdgeKey) (b x : Id128) :
    mergeIdentities key b x x = (x, []) := by
  by_cases hb : b = x
  · simp [mergeIdentities, hb]
  · simp [mergeIdentities, bne, beq_eq_false_iff_ne.mpr hb]

theorem mergeModifiedEdges_self {key : EdgeKey} {b x : ExportedEdge}
    (h : x.weight.isFinite = true) :
    (mergeModifiedEdges key b x x).2 = [] ∧
      edgesEqual (mergeModifiedEdges key b x x).1 x = true := by
  simp only [mergeModifiedEdges, mergeEdgeProperties_self, mergeIdentities_self, List.append_nil,
    true_and]
  exact edgesEqual_iff.mpr ⟨rfl, mergeWeights_self h, propertiesEqual_self _⟩

/-! ## Assembling the laws -/

variable {base ours theirs X : KgArchive}

/-- The third pass raises nothing when the ids are distinct and the chosen ones are not in use. -/
theorem resolveIdentities_fresh {used : List Id128} {cs : List Candidate}
    (hnodup : (chosenIds cs).Nodup) (hused : ∀ id ∈ chosenIds cs, id ∉ used) :
    (resolveIdentities base used cs).2 = [] := by
  induction cs generalizing used with
  | nil => rfl
  | cons c cs ih =>
    rw [resolveIdentities]
    by_cases hbase : c.identityIsBase = true
    · have hchosen : chosenIds (c :: cs) = chosenIds cs := by simp [chosenIds, hbase]
      rw [hchosen] at hnodup hused
      rw [if_pos hbase]
      exact ih hnodup hused
    · have hchosen : chosenIds (c :: cs) = c.edge.edgeId :: chosenIds cs := by
        simp [chosenIds, hbase]
      rw [hchosen] at hnodup hused
      rw [if_neg hbase, if_pos (hused _ List.mem_cons_self)]
      refine ih (List.nodup_cons.mp hnodup).2 fun id hid hmem ↦ ?_
      rcases List.mem_cons.mp hmem with rfl | hmem
      · exact (List.nodup_cons.mp hnodup).1 hid
      · exact hused id (List.mem_cons_of_mem _ hid) hmem

/-- Under every key the merge finds the record of `X`, and objects to nothing. -/
structure Mirrors (base ours theirs X : KgArchive) : Prop where
  entity : ∀ id, (mergeEntity base ours theirs id).2 = [] ∧
    Option.Rel ExportedEntity.SameContent (mergeEntity base ours theirs id).1 (X.entity id)
  edge : ∀ key, (mergeEdge base ours theirs key).2 = [] ∧
    Option.Rel StandsFor (mergeEdge base ours theirs key).1 (X.edge key)

namespace Mirrors

variable (hmir : Mirrors base ours theirs X)
include hmir

/-- A candidate stands for the branch's edge under its key. -/
theorem candidate {c : Candidate} (hc : c ∈ edgeCandidates base ours theirs) :
    ∃ x, X.edge c.key = some x ∧ edgesEqual c.edge x = true := by
  obtain ⟨key, -, hkey⟩ := List.mem_filterMap.mp hc
  obtain ⟨p, hp, rfl⟩ := Option.map_eq_some_iff.mp hkey
  have hrel := (hmir.edge key).2
  rw [hp] at hrel
  cases hx : X.edge key with
  | none =>
    rw [hx] at hrel
    cases hrel
  | some x =>
    rw [hx] at hrel
    cases hrel with
    | some h => exact ⟨x, rfl, h⟩

/-- So the candidates' ids are the branch's, and distinct. -/
theorem nodup_ids (hX : X.Valid) :
    ((edgeCandidates base ours theirs).map (·.edge.edgeId)).Nodup := by
  have hkeys : ((edgeCandidates base ours theirs).map (·.key)).Nodup := nodup_candidate_keys
  refine List.Nodup.map_on (fun c hc c' hc' heq ↦ ?_) hkeys.of_map
  obtain ⟨x, hx, hcx⟩ := hmir.candidate hc
  obtain ⟨x', hx', hcx'⟩ := hmir.candidate hc'
  have hids : x.edgeId = x'.edgeId := by
    rw [← (edgesEqual_iff.mp hcx).1, ← (edgesEqual_iff.mp hcx').1]
    exact heq
  have hsame : x = x' :=
    List.inj_on_of_nodup_map hX.edgeIds (mem_of_lookupBy hx) (mem_of_lookupBy hx') hids
  refine List.inj_on_of_nodup_map hkeys hc hc' ?_
  rw [← key_of_lookupBy hx, ← key_of_lookupBy hx', hsame]

/-- No pass over the edges objects. -/
theorem mergeEdges_conflicts (hX : X.Valid) : (mergeEdges base ours theirs).2 = [] := by
  rw [mergeEdges_eq]
  refine List.append_eq_nil_iff.mpr ⟨List.flatMap_eq_nil_iff.mpr fun key _ ↦
    (hmir.edge key).1, ?_⟩
  have hnodup := (candidate_ids_perm _).nodup_iff.mp (hmir.nodup_ids hX)
  rw [List.nodup_append] at hnodup
  exact resolveIdentities_fresh hnodup.2.1 fun id hid hres ↦ hnodup.2.2 id hres id hid rfl

theorem mergeEntities_conflicts : (mergeEntities base ours theirs).2 = [] :=
  List.flatMap_eq_nil_iff.mpr fun id _ ↦ (hmir.entity id).1

/-- The merged entities have the branch's ids. -/
theorem mem_entityIds {id : Id128} :
    id ∈ (mergeEntities base ours theirs).1.map (·.id) ↔ id ∈ X.entityIds := by
  have hrel := (hmir.entity id).2
  rw [mem_mergeEntities, ← mergeEntity_isSome, KgArchive.entityIds, ← lookupBy_isSome]
  change _ ↔ (X.entity id).isSome = true
  revert hrel
  generalize (mergeEntity base ours theirs id).1 = m
  generalize X.entity id = x
  intro hrel
  cases hrel with
  | some h => exact iff_of_true rfl rfl
  | none => exact Iff.rfl

/-- Merged edges point where the branch's edges point, up to the order of endpoints. -/
theorem not_dangling (hb : base.Valid) (ho : ours.Valid) (ht : theirs.Valid) (hX : X.Valid)
    (hends : ∀ e ∈ X.edges, e.source ∈ X.entityIds ∧ e.target ∈ X.entityIds) :
    validateDanglingEdges (mergeEdges base ours theirs).1
      ((mergeEntities base ours theirs).1.map (·.id)) = [] := by
  rw [validateDanglingEdges_eq_nil,
    (mergeEdges_clean hb ho ht (hmir.mergeEdges_conflicts hX)).1]
  intro e he
  obtain ⟨c, hc, rfl⟩ := List.mem_map.mp he
  rw [hmir.mem_entityIds, hmir.mem_entityIds]
  obtain ⟨x, hx, -⟩ := hmir.candidate hc
  have hkey : EdgeKey.fromEdge c.edge = EdgeKey.fromEdge x :=
    (candidate_provisional hb ho ht hc).1.keyed.trans (key_of_lookupBy hx).symm
  -- a candidate's endpoints are those of its key
  have hcanon : c.edge.source = (EdgeKey.fromEdge c.edge).source ∧
      c.edge.target = (EdgeKey.fromEdge c.edge).target := by
    obtain ⟨key, -, hc'⟩ := List.mem_filterMap.mp hc
    obtain ⟨p, -, rfl⟩ := Option.map_eq_some_iff.mp hc'
    rw [fromEdge_canonicalizeEndpoints]
    exact ⟨rfl, rfl⟩
  obtain ⟨hs, ht⟩ := hends x (mem_of_lookupBy hx)
  obtain ⟨hsource, htarget⟩ : ((EdgeKey.fromEdge x).source = x.source ∨
      (EdgeKey.fromEdge x).source = x.target) ∧
      ((EdgeKey.fromEdge x).target = x.source ∨ (EdgeKey.fromEdge x).target = x.target) :=
    EdgeRelation.canonicalEndpoints_mem
  rw [hcanon.1, hcanon.2, hkey]
  constructor
  · rcases hsource with h | h <;> rw [h] <;> assumption
  · rcases htarget with h | h <;> rw [h] <;> assumption

/-- The archive returned holds the branch's records. -/
theorem sameContent (hb : base.Valid) (ho : ours.Valid) (ht : theirs.Valid) (hX : X.Valid) :
    (autoArchive base ours theirs).SameContent X := by
  constructor
  · intro id
    have hlookup : (autoArchive base ours theirs).entity id
        = (mergeEntity base ours theirs id).1 := by
      refine lookupBy_filterMap (List.perm_insertionSort _ _) (fun _ _ h ↦ mergeEntity_id h)
        (nodup_sortedDistinct _ _) fun hsome ↦ ?_
      rw [mergeEntity_isSome, ← mem_mergeEntities, mergeEntities] at hsome
      exact ((mem_map_filterMap fun _ _ h ↦ mergeEntity_id h).mp hsome).1
    rw [hlookup]
    exact (hmir.entity id).2
  · intro key
    have hlist : (mergeEdges base ours theirs).1
        = (allEdgeKeys base ours theirs).filterMap
          fun k ↦ (edgeCandidate base ours theirs k).map (·.edge) := by
      rw [(mergeEdges_clean hb ho ht (hmir.mergeEdges_conflicts hX)).1, edgeCandidates,
        List.map_filterMap]
    have hperm : (autoArchive base ours theirs).edges.Perm
        ((allEdgeKeys base ours theirs).filterMap
          fun k ↦ (edgeCandidate base ours theirs k).map (·.edge)) := by
      rw [← hlist]
      exact List.perm_insertionSort _ _
    have hkeyed : ∀ k e, (edgeCandidate base ours theirs k).map (·.edge) = some e →
        EdgeKey.fromEdge e = k := by
      intro k e he
      obtain ⟨c, hc, rfl⟩ := Option.map_eq_some_iff.mp he
      obtain ⟨p, hp, rfl⟩ := Option.map_eq_some_iff.mp hc
      exact (fromEdge_canonicalizeEndpoints p.1).trans (mergeEdge_provisional hb ho ht hp).keyed
    -- keys are distinct, so looking up a key in the result is merging at that key
    have hlookup : (autoArchive base ours theirs).edge key
        = (edgeCandidate base ours theirs key).map (·.edge) := by
      refine lookupBy_filterMap hperm hkeyed (nodup_sortedDistinct _ _) fun hsome ↦ ?_
      rw [Option.isSome_map, edgeCandidate, Option.isSome_map, mergeEdge_isSome,
        ← mem_candidate_keys] at hsome
      exact ((mem_map_filterMap fun _ _ h ↦ edgeCandidate_key h).mp hsome).1
    rw [hlookup]
    have hrel := (hmir.edge key).2
    cases hp : (mergeEdge base ours theirs key).1 with
    | none =>
      rw [hp] at hrel
      simp only [edgeCandidate, hp, Option.map_none]
      cases hx : X.edge key with
      | none => exact .none
      | some x =>
        rw [hx] at hrel
        cases hrel
    | some p =>
      rw [hp] at hrel
      simp only [edgeCandidate, hp, Option.map_some]
      cases hx : X.edge key with
      | none =>
        rw [hx] at hrel
        cases hrel
      | some x =>
        rw [hx] at hrel
        cases hrel with
        | some h =>
          obtain ⟨hid, hweight, hprops⟩ := edgesEqual_iff.mp h
          refine .some ⟨?_, hid, hweight, hprops⟩
          rw [fromEdge_canonicalizeEndpoints, (mergeEdge_provisional hb ho ht hp).keyed,
            key_of_lookupBy hx]

/-- A merge that mirrors a valid branch without dangling edges is clean and returns it. -/
theorem clean (hvalid : validateInputs base ours theirs = .ok ()) (hX : X.Valid)
    (hends : ∀ e ∈ X.edges, e.source ∈ X.entityIds ∧ e.target ∈ X.entityIds) :
    ∃ merged, threeWayMerge base ours theirs .auto = .ok (.clean merged) ∧
      merged.SameContent X := by
  obtain ⟨-, hb, ho, ht⟩ := validateInputs_eq_ok.mp hvalid
  refine ⟨autoArchive base ours theirs, seq_eq_ok.mpr ⟨hvalid, ?_⟩, hmir.sameContent hb ho ht hX⟩
  have hedges := hmir.mergeEdges_conflicts hX
  simp only [threeWayMergeAuto, hmir.mergeEntities_conflicts, hedges,
    hmir.not_dangling hb ho ht hX hends, List.append_nil, List.isEmpty_nil, if_true]
  exact seq_eq_ok.mpr ⟨validateArchive_eq_ok.mpr (autoArchive_valid hb ho ht hedges), rfl⟩

end Mirrors

/-! ## The laws -/

section Laws

variable {b : KgArchive}

private theorem edge_keep {c y : ExportedEdge} (key : EdgeKey) (h : edgesEqual c y = true) :
    StandsFor ((edgeJoin key).keep c) y := h

theorem mirrors_right (hb : b.Valid) (hX : X.Valid) : Mirrors b X b X where
  entity id := by
    refine reconcile_right (fun c y _ _ h ↦ .of_equal h) (fun c _ ↦ ?_) (fun y _ ↦ .refl y)
      fun c y _ _ ↦ .refl y
    exact entitiesEqual_iff.mpr ⟨rfl, rfl, rfl, rfl, rfl, rfl, propertiesEqual_self _⟩
  edge key := by
    refine reconcile_right (fun c y _ _ h ↦ edge_keep key h) (fun c hc ↦ ?_) (fun y hy ↦ ?_)
      fun c y _ hy ↦ ?_
    · exact edgesEqual_self (edge_finite hb hc)
    · exact edgesEqual_self (edge_finite hX hy)
    · exact edgesEqual_self (edge_finite hX hy)

theorem mirrors_left (hb : b.Valid) (hX : X.Valid) : Mirrors b b X X where
  entity id := by
    refine reconcile_left (fun c y _ _ h ↦ .of_equal h) (fun c _ ↦ ?_) (fun y _ ↦ .refl y)
      fun c y _ _ ↦ .refl y
    exact entitiesEqual_iff.mpr ⟨rfl, rfl, rfl, rfl, rfl, rfl, propertiesEqual_self _⟩
  edge key := by
    refine reconcile_left (fun c y _ _ h ↦ edge_keep key h) (fun c hc ↦ ?_) (fun y hy ↦ ?_)
      fun c y _ hy ↦ ?_
    · exact edgesEqual_self (edge_finite hb hc)
    · exact edgesEqual_self (edge_finite hX hy)
    · exact edgesEqual_self (edge_finite hX hy)

theorem mirrors_self (hX : X.Valid) : Mirrors b X X X where
  entity id := by
    refine reconcile_self (fun c y _ _ h ↦ .of_equal h) (fun y _ ↦ ?_) fun c y _ _ _ ↦ ?_
    · simp only [entityJoin, detectEntityDiffs_self, List.isEmpty_nil, if_true]
      exact ⟨trivial, .refl y⟩
    · obtain ⟨hnil, hsame⟩ := fieldLevelMerge_self id c y
      simp only [entityJoin, hnil, List.isEmpty_nil, if_true]
      exact ⟨trivial, hsame⟩
  edge key := by
    refine reconcile_self (fun c y _ _ h ↦ edge_keep key h) (fun y hy ↦ ?_) fun c y _ hy _ ↦ ?_
    · exact mergeAddedEdges_self (edge_finite hX hy)
    · exact mergeModifiedEdges_self (edge_finite hX hy)

end Laws

/-- **Unit laws**: for a valid base and a valid branch in its namespace with no dangling edge, the
automatic merge of the branch with the base, of the base with the branch, and of the branch with
itself is clean and returns the branch's content. -/
theorem threeWayMerge_unit (b X : KgArchive) (hvalid : validateInputs b X b = .ok ())
    (hends : ∀ e ∈ X.edges, e.source ∈ X.entityIds ∧ e.target ∈ X.entityIds) :
    (∃ merged, threeWayMerge b X b .auto = .ok (.clean merged) ∧ merged.SameContent X) ∧
      (∃ merged, threeWayMerge b b X .auto = .ok (.clean merged) ∧ merged.SameContent X) ∧
      ∃ merged, threeWayMerge b X X .auto = .ok (.clean merged) ∧ merged.SameContent X := by
  obtain ⟨⟨hns, -⟩, hb, hX, -⟩ := validateInputs_eq_ok.mp hvalid
  have hleft : validateInputs b b X = .ok () := validateInputs_eq_ok.mpr ⟨⟨rfl, hns⟩, hb, hb, hX⟩
  have hself : validateInputs b X X = .ok () := validateInputs_eq_ok.mpr ⟨⟨hns, hns⟩, hb, hX, hX⟩
  exact ⟨(mirrors_right hb hX).clean hvalid hX hends, (mirrors_left hb hX).clean hleft hX hends,
    (mirrors_self hX).clean hself hX hends⟩

/-! A branch that swaps the durable ids of two edges. -/

private def swapArchive (first second : Id128) : KgArchive where
  format := "khive-kg"
  version := "0.1"
  «namespace» := "local"
  exportedAt := 0
  entities := [⟨1, "concept", none, "a", none, none, [], 0, 0⟩,
    ⟨2, "concept", none, "b", none, none, ["t"], 0, 0⟩]
  edges := [⟨first, 2, 1, .competesWith, Binary64.one, none, 0, 0⟩,
    ⟨second, 1, 2, .extends, Binary64.one, none, 0, 0⟩]

theorem threeWayMerge_unit_swapped_ids :
    ∃ merged, threeWayMerge (swapArchive 3 4) (swapArchive 4 3) (swapArchive 3 4) .auto
      = .ok (.clean merged) ∧ merged.SameContent (swapArchive 4 3) :=
  (threeWayMerge_unit (swapArchive 3 4) (swapArchive 4 3) rfl
    (by decide)).1

end Khive
