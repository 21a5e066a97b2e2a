import Khive.Merge.Merge

/-!
# What a merge returns

Three results about `threeWayMerge` on valid inputs. It never fails: what it is about to return
passes the validation it runs on it. What the automatic merge returns has exactly the surviving
entity ids and edge keys, no dangling edge, and canonical endpoints. And the endpoint invariant
for the two shortcut strategies depends on the edges they copy.

The passes over edges are treated in order. The first makes one candidate per key, carrying that
key; the second and third are `resolveIdentities`, whose invariant is that the ids in use are
those reserved from the base and those chosen so far.
-/

namespace Khive

variable {base ours theirs : KgArchive}

/-! ## Entities -/

theorem mergeEntity_id {id : Id128} {e : ExportedEntity}
    (h : (mergeEntity base ours theirs id).1 = some e) : e.id = id := by
  refine reconcile_forall (P := fun e ↦ e.id = id) h ?_ ?_ ?_ ?_ ?_
  · exact fun x hx ↦ key_of_lookupBy hx
  · rintro x (hx | hx) <;> exact key_of_lookupBy hx
  · rintro - y - (hy | hy) <;> exact key_of_lookupBy hy
  · exact fun x y hx _ ↦ key_of_lookupBy hx
  · intro x y z _ hy _
    have hy' : y.id = id := key_of_lookupBy hy
    dsimp only [entityJoin]
    split
    · exact hy'
    · exact hy'

theorem nodup_mergeEntities : ((mergeEntities base ours theirs).1.map (·.id)).Nodup :=
  (map_filterMap_sublist fun _ _ h ↦ mergeEntity_id h).nodup (nodup_sortedDistinct _ _)

theorem mergeEntity_isSome {id : Id128} :
    (mergeEntity base ours theirs id).1.isSome = true ↔
      id ∈ survivors {k | k ∈ base.entityIds} {k | k ∈ ours.entityIds}
        {k | k ∈ theirs.entityIds} := by
  simp only [mergeEntity, diffEntities, reconcile_isSome, KgArchive.entity, lookupBy_isSome,
    survivors, Set.mem_ofPred_eq, KgArchive.entityIds]

/-- The merged entities are the survivors. -/
theorem mem_mergeEntities {id : Id128} :
    id ∈ (mergeEntities base ours theirs).1.map (·.id) ↔
      id ∈ survivors {k | k ∈ base.entityIds} {k | k ∈ ours.entityIds}
        {k | k ∈ theirs.entityIds} := by
  rw [← mergeEntity_isSome]
  refine (mem_map_filterMap fun _ _ h ↦ mergeEntity_id h).trans (and_iff_right_of_imp fun h ↦ ?_)
  rw [mergeEntity_isSome] at h
  rw [allEntityIds, mem_sortedDistinct, List.mem_append, List.mem_append]
  simp only [survivors, Set.mem_ofPred_eq] at h
  tauto

/-! ## Edges: one candidate per key -/

theorem fromEdge_canonicalizeEndpoints (e : ExportedEdge) :
    EdgeKey.fromEdge (canonicalizeEndpoints e) = EdgeKey.fromEdge e := by
  simp only [EdgeKey.fromEdge, canonicalizeEndpoints, EdgeRelation.canonicalEndpoints_idem]

/-- What the first pass establishes of the record it puts under a key. -/
structure Provisional (base : KgArchive) (key : EdgeKey) (c : ExportedEdge × Bool) : Prop where
  keyed : EdgeKey.fromEdge c.1 = key
  finite : c.1.weight.isFinite = true
  inherited : c.2 = true → ∃ b, base.edge key = some b ∧ c.1.edgeId = b.edgeId

theorem mergeAddedEdges_spec {key : EdgeKey} {o t : ExportedEdge} :
    EdgeKey.fromEdge (mergeAddedEdges key o t).1 = EdgeKey.fromEdge o ∧
      (mergeAddedEdges key o t).1.weight = o.weight.max t.weight :=
  ⟨rfl, rfl⟩

theorem mergeModifiedEdges_key {key : EdgeKey} {b o t : ExportedEdge} :
    EdgeKey.fromEdge (mergeModifiedEdges key b o t).1 = EdgeKey.fromEdge o :=
  rfl

theorem mergeModifiedEdges_finite {key : EdgeKey} {b o t : ExportedEdge}
    (hb : b.weight.isFinite = true) (ho : o.weight.isFinite = true)
    (ht : t.weight.isFinite = true) :
    (mergeModifiedEdges key b o t).1.weight.isFinite = true := by
  change (mergeWeights b.weight o.weight t.weight).isFinite = true
  unfold mergeWeights
  split
  · exact hb
  · exact ho
  · exact ht
  · exact Binary64.isFinite_max ho ht

theorem edge_finite {a : KgArchive} (ha : a.Valid) {key : EdgeKey} {e : ExportedEdge}
    (h : a.edge key = some e) : e.weight.isFinite = true :=
  ha.finite e (mem_of_lookupBy h)

theorem mergeEdge_provisional (hb : base.Valid) (ho : ours.Valid) (ht : theirs.Valid)
    {key : EdgeKey} {c : ExportedEdge × Bool} (h : (mergeEdge base ours theirs key).1 = some c) :
    Provisional base key c := by
  refine reconcile_forall (P := Provisional base key) h ?_ ?_ ?_ ?_ ?_
  · exact fun x hx ↦ ⟨key_of_lookupBy hx, edge_finite hb hx, fun _ ↦ ⟨x, hx, rfl⟩⟩
  · rintro x (hx | hx)
    · exact ⟨key_of_lookupBy hx, edge_finite ho hx, fun h ↦ by cases h⟩
    · exact ⟨key_of_lookupBy hx, edge_finite ht hx, fun h ↦ by cases h⟩
  · rintro x y hx (hy | hy)
    · exact ⟨key_of_lookupBy hy, edge_finite ho hy, fun h ↦ ⟨x, hx, (eq_of_beq h).symm⟩⟩
    · exact ⟨key_of_lookupBy hy, edge_finite ht hy, fun h ↦ ⟨x, hx, (eq_of_beq h).symm⟩⟩
  · intro x y hx hy
    refine ⟨mergeAddedEdges_spec.1.trans (key_of_lookupBy hx), ?_, fun h ↦ by cases h⟩
    exact Binary64.isFinite_max (edge_finite ho hx) (edge_finite ht hy)
  · intro x y z hx hy hz
    refine ⟨mergeModifiedEdges_key.trans (key_of_lookupBy hy), ?_, fun h ↦ ⟨x, hx, eq_of_beq h⟩⟩
    exact mergeModifiedEdges_finite (edge_finite hb hx) (edge_finite ho hy) (edge_finite ht hz)

/-- The candidates of the first pass. -/
def edgeCandidates (base ours theirs : KgArchive) : List Candidate :=
  (allEdgeKeys base ours theirs).filterMap (edgeCandidate base ours theirs)

theorem edgeCandidate_key {key : EdgeKey} {c : Candidate}
    (h : edgeCandidate base ours theirs key = some c) : c.key = key := by
  obtain ⟨p, -, rfl⟩ := Option.map_eq_some_iff.mp h
  rfl

theorem nodup_candidate_keys : ((edgeCandidates base ours theirs).map (·.key)).Nodup :=
  (map_filterMap_sublist fun _ _ h ↦ edgeCandidate_key h).nodup (nodup_sortedDistinct _ _)

/-- A candidate is a provisional edge with its endpoints in order. -/
theorem candidate_provisional (hb : base.Valid) (ho : ours.Valid) (ht : theirs.Valid)
    {c : Candidate} (h : c ∈ edgeCandidates base ours theirs) :
    Provisional base c.key (c.edge, c.identityIsBase) ∧
      (c.edge.relation.isSymmetric = true → c.edge.source ≤ c.edge.target) := by
  obtain ⟨key, -, hkey⟩ := List.mem_filterMap.mp h
  obtain ⟨p, hp, rfl⟩ := Option.map_eq_some_iff.mp hkey
  obtain ⟨hk, hfin, hinh⟩ := mergeEdge_provisional hb ho ht hp
  refine ⟨⟨(fromEdge_canonicalizeEndpoints p.1).trans hk, hfin, hinh⟩, fun hsym ↦ ?_⟩
  exact EdgeRelation.canonicalEndpoints_le hsym

theorem mergeEdge_isSome {key : EdgeKey} :
    (mergeEdge base ours theirs key).1.isSome = true ↔
      key ∈ survivors {k | k ∈ base.edgeKeys} {k | k ∈ ours.edgeKeys}
        {k | k ∈ theirs.edgeKeys} := by
  simp only [mergeEdge, diffEdges, reconcile_isSome, KgArchive.edge, lookupBy_isSome,
    survivors, Set.mem_ofPred_eq, KgArchive.edgeKeys]

/-- The candidates' keys are the survivors. -/
theorem mem_candidate_keys {key : EdgeKey} :
    key ∈ (edgeCandidates base ours theirs).map (·.key) ↔
      key ∈ survivors {k | k ∈ base.edgeKeys} {k | k ∈ ours.edgeKeys}
        {k | k ∈ theirs.edgeKeys} := by
  have hsome : (edgeCandidate base ours theirs key).isSome = true ↔
      key ∈ survivors {k | k ∈ base.edgeKeys} {k | k ∈ ours.edgeKeys}
        {k | k ∈ theirs.edgeKeys} := by
    rw [← mergeEdge_isSome, edgeCandidate, Option.isSome_map]
  rw [← hsome]
  refine (mem_map_filterMap fun _ _ h ↦ edgeCandidate_key h).trans
    (and_iff_right_of_imp fun h ↦ ?_)
  rw [hsome] at h
  rw [allEdgeKeys, mem_sortedDistinct, List.mem_append, List.mem_append]
  simp only [survivors, Set.mem_ofPred_eq] at h
  tauto

/-! ## Edges: identities -/

/-- The ids a branch chose. -/
def chosenIds (cs : List Candidate) : List Id128 :=
  cs.filterMap fun c ↦ if c.identityIsBase then none else some c.edge.edgeId

/-- **Invariant of the third pass**: while no conflict is raised, every edge goes out as it came
in, and the chosen ids are new and distinct. -/
theorem resolveIdentities_clean {used : List Id128} {cs : List Candidate}
    (h : (resolveIdentities base used cs).2 = []) :
    (resolveIdentities base used cs).1 = cs.map (·.edge) ∧ (chosenIds cs).Nodup ∧
      ∀ id ∈ chosenIds cs, id ∉ used := by
  induction cs generalizing used with
  | nil => simp [resolveIdentities, chosenIds]
  | cons c cs ih =>
    rw [resolveIdentities] at h ⊢
    by_cases hbase : c.identityIsBase = true
    · rw [if_pos hbase] at h ⊢
      have hchosen : chosenIds (c :: cs) = chosenIds cs := by simp [chosenIds, hbase]
      obtain ⟨hout, hnodup, hused⟩ := ih h
      rw [hchosen]
      exact ⟨congrArg (c.edge :: ·) hout, hnodup, hused⟩
    · rw [if_neg hbase] at h ⊢
      have hchosen : chosenIds (c :: cs) = c.edge.edgeId :: chosenIds cs := by
        simp [chosenIds, hbase]
      by_cases hnew : c.edge.edgeId ∉ used
      · rw [if_pos hnew] at h ⊢
        obtain ⟨hout, hnodup, hused⟩ := ih h
        rw [hchosen, List.nodup_cons]
        refine ⟨congrArg (c.edge :: ·) hout, ⟨fun hmem ↦ ?_, hnodup⟩, fun id hid ↦ ?_⟩
        · exact hused _ hmem List.mem_cons_self
        · rcases List.mem_cons.mp hid with rfl | hid
          · exact hnew
          · exact fun hmem ↦ hused id hid (List.mem_cons_of_mem _ hmem)
      · -- an id in use is a conflict, whichever of the two kinds it is
        rw [if_neg hnew] at h
        split at h <;> simp at h

/-- The ids of all candidates are those inherited and those chosen. -/
theorem candidate_ids_perm (cs : List Candidate) :
    (cs.map (·.edge.edgeId)).Perm (reservedIds cs ++ chosenIds cs) := by
  induction cs with
  | nil => simp [reservedIds, chosenIds]
  | cons c cs ih =>
    rw [List.map_cons]
    by_cases hbase : c.identityIsBase = true
    · have hreserved : reservedIds (c :: cs) = c.edge.edgeId :: reservedIds cs := by
        simp [reservedIds, hbase]
      have hchosen : chosenIds (c :: cs) = chosenIds cs := by simp [chosenIds, hbase]
      rw [hreserved, hchosen, List.cons_append]
      exact ih.cons _
    · have hreserved : reservedIds (c :: cs) = reservedIds cs := by simp [reservedIds, hbase]
      have hchosen : chosenIds (c :: cs) = c.edge.edgeId :: chosenIds cs := by
        simp [chosenIds, hbase]
      rw [hreserved, hchosen]
      exact (ih.cons _).trans List.perm_middle.symm

/-- Ids inherited from a valid base under different keys are different. -/
theorem nodup_reservedIds (hb : base.Valid) {cs : List Candidate}
    (hkeys : (cs.map (·.key)).Nodup)
    (hinh : ∀ c ∈ cs, c.identityIsBase = true →
      ∃ b, base.edge c.key = some b ∧ c.edge.edgeId = b.edgeId) : (reservedIds cs).Nodup := by
  induction cs with
  | nil => simp [reservedIds]
  | cons c cs ih =>
    rw [List.map_cons, List.nodup_cons] at hkeys
    have ih' := ih hkeys.2 fun c' hc' ↦ hinh c' (List.mem_cons_of_mem _ hc')
    by_cases hbase : c.identityIsBase = true
    · have hreserved : reservedIds (c :: cs) = c.edge.edgeId :: reservedIds cs := by
        simp [reservedIds, hbase]
      rw [hreserved, List.nodup_cons]
      refine ⟨fun hmem ↦ ?_, ih'⟩
      obtain ⟨c', hc', hc'eq⟩ := List.mem_filterMap.mp hmem
      split at hc'eq
      · next hbase' =>
        obtain ⟨b, hbget, hbid⟩ := hinh c List.mem_cons_self hbase
        obtain ⟨b', hbget', hbid'⟩ := hinh c' (List.mem_cons_of_mem _ hc') hbase'
        -- one base record under two keys
        have hsame : b' = b := List.inj_on_of_nodup_map hb.edgeIds (mem_of_lookupBy hbget')
          (mem_of_lookupBy hbget) (by rw [← hbid', ← hbid]; exact Option.some.inj hc'eq)
        have hkey : c'.key = c.key := by
          rw [← key_of_lookupBy hbget', ← key_of_lookupBy hbget, hsame]
        exact hkeys.1 (hkey ▸ List.mem_map_of_mem hc')
      · cases hc'eq
    · have hreserved : reservedIds (c :: cs) = reservedIds cs := by simp [reservedIds, hbase]
      rw [hreserved]
      exact ih'

/-! ## A clean automatic merge -/

theorem mergeEdges_eq : mergeEdges base ours theirs =
    ((resolveIdentities base (reservedIds (edgeCandidates base ours theirs))
        (edgeCandidates base ours theirs)).1,
      ((allEdgeKeys base ours theirs).flatMap fun key ↦ (mergeEdge base ours theirs key).2) ++
        (resolveIdentities base (reservedIds (edgeCandidates base ours theirs))
          (edgeCandidates base ours theirs)).2) :=
  rfl

/-- Without conflicts the merged edges are the candidates, and their ids are distinct. -/
theorem mergeEdges_clean (hb : base.Valid) (ho : ours.Valid) (ht : theirs.Valid)
    (h : (mergeEdges base ours theirs).2 = []) :
    (mergeEdges base ours theirs).1 = (edgeCandidates base ours theirs).map (·.edge) ∧
      ((edgeCandidates base ours theirs).map (·.edge.edgeId)).Nodup := by
  rw [mergeEdges_eq, List.append_eq_nil_iff] at h
  obtain ⟨hout, hnodup, hfresh⟩ := resolveIdentities_clean h.2
  refine ⟨hout, ?_⟩
  rw [(candidate_ids_perm _).nodup_iff, List.nodup_append]
  refine ⟨nodup_reservedIds hb nodup_candidate_keys fun c hc ↦ ?_, hnodup, ?_⟩
  · exact (candidate_provisional hb ho ht hc).1.inherited
  · rintro id hres id' hch rfl
    exact hfresh id hch hres

theorem mem_sortEdges {es : List ExportedEdge} {e : ExportedEdge} :
    e ∈ sortEdges es ↔ e ∈ es := List.mem_insertionSort _

/-- Sorting moves records and touches none. -/
theorem sorted_valid {a : KgArchive} (ha : a.Valid) (exportedAt : DateTime) :
    ({ a with
        entities := sortEntities a.entities
        edges := sortEdges a.edges
        exportedAt } : KgArchive).Valid where
  finite e he := ha.finite e (mem_sortEdges.mp he)
  entityIds := ((List.perm_insertionSort _ _).map _).nodup_iff.mpr ha.entityIds
  edgeIds := ((List.perm_insertionSort _ _).map _).nodup_iff.mpr ha.edgeIds
  edgeKeys := ((List.perm_insertionSort _ _).map _).nodup_iff.mpr ha.edgeKeys

/-- **Output validity**: what a conflict-free automatic merge assembles is a valid archive. -/
theorem autoArchive_valid (hb : base.Valid) (ho : ours.Valid) (ht : theirs.Valid)
    (h : (mergeEdges base ours theirs).2 = []) : (autoArchive base ours theirs).Valid := by
  obtain ⟨hout, hids⟩ := mergeEdges_clean hb ho ht h
  have hcand := fun c hc ↦ candidate_provisional hb ho ht (c := c) hc
  refine sorted_valid (a := ⟨ours.format, ours.version, ours.namespace,
    deterministicTimestamp ours theirs, (mergeEntities base ours theirs).1,
    (mergeEdges base ours theirs).1⟩) ⟨?_, nodup_mergeEntities, ?_, ?_⟩ _
  · intro e he
    change e ∈ (mergeEdges base ours theirs).1 at he
    rw [hout] at he
    obtain ⟨c, hc, rfl⟩ := List.mem_map.mp he
    exact (hcand c hc).1.finite
  · change ((mergeEdges base ours theirs).1.map (·.edgeId)).Nodup
    rw [hout, List.map_map]
    exact hids
  · change ((mergeEdges base ours theirs).1.map EdgeKey.fromEdge).Nodup
    have hkeys : (edgeCandidates base ours theirs).map (EdgeKey.fromEdge ∘ (·.edge))
        = (edgeCandidates base ours theirs).map (·.key) :=
      List.map_congr_left fun c hc ↦ (hcand c hc).1.keyed
    rw [hout, List.map_map, hkeys]
    exact nodup_candidate_keys

theorem validateDanglingEdges_eq_nil {edges : List ExportedEdge} {ids : List Id128} :
    validateDanglingEdges edges ids = [] ↔ ∀ e ∈ edges, e.source ∈ ids ∧ e.target ∈ ids := by
  rw [validateDanglingEdges, List.filterMap_eq_nil_iff]
  refine forall₂_congr fun e _ ↦ ?_
  by_cases hs : e.source ∈ ids <;> by_cases ht : e.target ∈ ids <;> simp [hs, ht]

/-- The automatic merge returns a clean archive exactly when no pass raised a conflict. -/
theorem threeWayMergeAuto_clean {merged : KgArchive}
    (h : threeWayMergeAuto base ours theirs = .ok (.clean merged)) :
    merged = autoArchive base ours theirs ∧ (mergeEntities base ours theirs).2 = [] ∧
      (mergeEdges base ours theirs).2 = [] ∧
      validateDanglingEdges (mergeEdges base ours theirs).1
        ((mergeEntities base ours theirs).1.map (·.id)) = [] := by
  simp only [threeWayMergeAuto] at h
  split at h
  · next hempty =>
    rw [seq_eq_ok, pure_eq_ok, MergeResult.clean.injEq] at h
    rw [List.isEmpty_iff, List.append_eq_nil_iff, List.append_eq_nil_iff] at hempty
    exact ⟨h.2.symm, hempty.1.1, hempty.1.2, hempty.2⟩
  · rw [pure_eq_ok] at h
    cases h

/-- **Membership**: a clean automatic merge has exactly the surviving entities and edges, distinct
ids and keys, no dangling edge, and symmetric edges with their smaller endpoint first. -/
theorem threeWayMerge_auto_spec (base ours theirs merged : KgArchive)
    (hvalid : validateInputs base ours theirs = .ok ())
    (h : threeWayMerge base ours theirs .auto = .ok (.clean merged)) :
    (∀ id, id ∈ merged.entityIds ↔ (id ∈ ours.entityIds ∧ id ∈ theirs.entityIds) ∨
        (id ∈ ours.entityIds ∧ id ∉ theirs.entityIds ∧ id ∉ base.entityIds) ∨
          (id ∉ ours.entityIds ∧ id ∈ theirs.entityIds ∧ id ∉ base.entityIds)) ∧
      (∀ key, key ∈ merged.edgeKeys ↔ (key ∈ ours.edgeKeys ∧ key ∈ theirs.edgeKeys) ∨
        (key ∈ ours.edgeKeys ∧ key ∉ theirs.edgeKeys ∧ key ∉ base.edgeKeys) ∨
          (key ∉ ours.edgeKeys ∧ key ∈ theirs.edgeKeys ∧ key ∉ base.edgeKeys)) ∧
      merged.entityIds.Nodup ∧ merged.edgeIds.Nodup ∧ merged.edgeKeys.Nodup ∧
      (∀ e ∈ merged.edges, e.source ∈ merged.entityIds ∧ e.target ∈ merged.entityIds) ∧
      ∀ e ∈ merged.edges, e.relation.isSymmetric = true → e.source ≤ e.target := by
  rw [validateInputs_eq_ok] at hvalid
  obtain ⟨-, hb, ho, ht⟩ := hvalid
  simp only [threeWayMerge, seq_eq_ok] at h
  obtain ⟨rfl, -, hedges, hdangling⟩ := threeWayMergeAuto_clean h.2
  obtain ⟨hout, -⟩ := mergeEdges_clean hb ho ht hedges
  have hval := autoArchive_valid hb ho ht hedges
  have hcand := fun c hc ↦ candidate_provisional hb ho ht (c := c) hc
  have hids : ∀ id, id ∈ (autoArchive base ours theirs).entityIds ↔
      id ∈ (mergeEntities base ours theirs).1.map (·.id) := fun id ↦
    ((List.perm_insertionSort _ _).map _).mem_iff
  -- without conflicts every candidate goes out under its own key
  have hkeys : ∀ key, key ∈ (autoArchive base ours theirs).edgeKeys ↔
      key ∈ (edgeCandidates base ours theirs).map (·.key) := by
    intro key
    refine (((List.perm_insertionSort _ _).map _).mem_iff).trans ?_
    rw [hout, List.map_map, List.map_congr_left fun c hc ↦ ?_]
    exact (hcand c hc).1.keyed
  refine ⟨fun id ↦ (hids id).trans mem_mergeEntities, fun key ↦ (hkeys key).trans
    mem_candidate_keys, hval.entityIds, hval.edgeIds, hval.edgeKeys, fun e he ↦ ?_,
    fun e he hsym ↦ ?_⟩
  · rw [hids, hids]
    exact validateDanglingEdges_eq_nil.mp hdangling e (mem_sortEdges.mp he)
  · have he' := mem_sortEdges.mp he
    rw [hout] at he'
    obtain ⟨c, hc, rfl⟩ := List.mem_map.mp he'
    exact (hcand c hc).2 hsym

/-! ## The shortcut strategies -/

/-- What `appendEdges` lets through: edges of the list with an unskipped key and a fresh id. -/
theorem appendEdges_spec (skip : EdgeKey → Bool) (used : List Id128) (es : List ExportedEdge) :
    (appendEdges skip used es).1.Sublist es ∧
      (∀ e ∈ (appendEdges skip used es).1, skip (EdgeKey.fromEdge e) = false) ∧
      ((appendEdges skip used es).1.map (·.edgeId)).Nodup ∧
      ∀ e ∈ (appendEdges skip used es).1, e.edgeId ∉ used := by
  induction es generalizing used with
  | nil => simp [appendEdges]
  | cons e es ih =>
    rw [appendEdges]
    by_cases hskip : skip (EdgeKey.fromEdge e) = true
    · rw [if_pos hskip]
      obtain ⟨hsub, hrest⟩ := ih used
      exact ⟨hsub.cons e, hrest⟩
    · rw [if_neg hskip]
      by_cases hnew : e.edgeId ∉ used
      · rw [if_pos hnew]
        obtain ⟨hsub, hkeys, hnodup, hused⟩ := ih (e.edgeId :: used)
        refine ⟨hsub.cons_cons e, ?_, ?_, ?_⟩
        · intro e' he'
          rcases List.mem_cons.mp he' with rfl | he'
          · simpa using hskip
          · exact hkeys e' he'
        · refine List.nodup_cons.mpr ⟨fun hmem ↦ ?_, hnodup⟩
          obtain ⟨e', he', heq⟩ := List.mem_map.mp hmem
          exact hused e' he' (heq ▸ List.mem_cons_self)
        · intro e' he'
          rcases List.mem_cons.mp he' with rfl | he'
          · exact hnew
          · exact fun hmem ↦ hused e' he' (List.mem_cons_of_mem _ hmem)
      · rw [if_neg hnew]
        obtain ⟨hsub, hrest⟩ := ih used
        exact ⟨hsub.cons e, hrest⟩

/-- Without conflicts, everything unskipped is appended. -/
theorem appendEdges_clean {skip : EdgeKey → Bool} {used : List Id128} {es : List ExportedEdge}
    (h : (appendEdges skip used es).2 = []) :
    (appendEdges skip used es).1 = es.filter fun e ↦ !skip (EdgeKey.fromEdge e) := by
  induction es generalizing used with
  | nil => simp [appendEdges]
  | cons e es ih =>
    rw [appendEdges] at h ⊢
    by_cases hskip : skip (EdgeKey.fromEdge e) = true
    · rw [if_pos hskip] at h ⊢
      rw [List.filter_cons_of_neg (by simp [hskip])]
      exact ih h
    · rw [if_neg hskip] at h ⊢
      rw [List.filter_cons_of_pos (by simp [hskip])]
      by_cases hnew : e.edgeId ∉ used
      · rw [if_pos hnew] at h ⊢
        exact congrArg (e :: ·) (ih h)
      · rw [if_neg hnew] at h
        simp at h

/-- The preferred branch with the other's additions is valid, conflicts or not. -/
theorem applyOurs_valid (ho : ours.Valid) (ht : theirs.Valid) :
    (applyOursWithConflicts base ours theirs).1.Valid := by
  obtain ⟨hsub, hkeys, hnodup, hused⟩ := appendEdges_spec
    (fun k ↦ decide (k ∈ base.edgeKeys ∨ k ∈ ours.edgeKeys)) ours.edgeIds theirs.edges
  refine ⟨fun e he ↦ ?_, ?_, ?_, ?_⟩
  · rcases List.mem_append.mp he with he | he
    · exact ho.finite e he
    · exact ht.finite e (hsub.subset he)
  · -- an added entity is not one of the preferred branch
    refine (List.map_append ▸ List.nodup_append.mpr ⟨ho.entityIds, ?_, ?_⟩ :
      ((ours.entities ++ _).map (·.id)).Nodup)
    · exact (List.filter_sublist.map _).nodup ht.entityIds
    · rintro id hid id' hid' rfl
      obtain ⟨e, he, rfl⟩ := List.mem_map.mp hid'
      have := (List.mem_filter.mp he).2
      simp only [decide_eq_true_eq] at this
      exact this.2 hid
  · refine (List.map_append ▸ List.nodup_append.mpr ⟨ho.edgeIds, hnodup, ?_⟩ :
      ((ours.edges ++ _).map (·.edgeId)).Nodup)
    rintro id hid id' hid' rfl
    obtain ⟨e, he, rfl⟩ := List.mem_map.mp hid'
    exact hused e he hid
  · -- an added edge has an id that is not in use
    refine (List.map_append ▸ List.nodup_append.mpr
      ⟨ho.edgeKeys, (hsub.map _).nodup ht.edgeKeys, ?_⟩ :
      ((ours.edges ++ _).map EdgeKey.fromEdge).Nodup)
    rintro key hkey key' hkey' rfl
    obtain ⟨e, he, rfl⟩ := List.mem_map.mp hkey'
    have := hkeys e he
    simp only [decide_eq_false_iff_not, not_or] at this
    exact this.2 hkey

/-- The archive `finishShortcutMerge` checks and returns. -/
def shortcutArchive (merged ours theirs : KgArchive) : KgArchive :=
  { merged with
    entities := sortEntities merged.entities
    edges := sortEdges merged.edges
    exportedAt := deterministicTimestamp ours theirs }

theorem finishShortcutMerge_of_valid {merged : KgArchive} (h : merged.Valid)
    (conflicts : List MergeConflict) :
    ∃ r, finishShortcutMerge merged ours theirs conflicts = .ok r := by
  have hval : validateArchive (shortcutArchive merged ours theirs) = .ok () :=
    validateArchive_eq_ok.mpr (sorted_valid h _)
  exact ⟨_, seq_eq_ok.mpr ⟨hval, rfl⟩⟩

theorem finishShortcutMerge_clean {merged merged' : KgArchive} {conflicts : List MergeConflict}
    (h : finishShortcutMerge merged ours theirs conflicts = .ok (.clean merged')) :
    merged' = shortcutArchive merged ours theirs ∧ conflicts = [] := by
  simp only [finishShortcutMerge, seq_eq_ok, pure_eq_ok] at h
  obtain ⟨-, h⟩ := h
  split at h
  · next hempty =>
    rw [List.isEmpty_iff, List.append_eq_nil_iff] at hempty
    cases h
    exact ⟨rfl, hempty.1⟩
  · cases h

/-! ## No failure on valid inputs -/

/-- **Totality**: on valid inputs a merge returns an archive or conflicts under every strategy,
and never an error. -/
theorem threeWayMerge_total (base ours theirs : KgArchive) (strategy : SnapshotMergeStrategy)
    (hvalid : validateInputs base ours theirs = .ok ()) :
    ∃ r, threeWayMerge base ours theirs strategy = .ok r := by
  obtain ⟨-, hb, ho, ht⟩ := validateInputs_eq_ok.mp hvalid
  cases strategy with
  | ours =>
    obtain ⟨r, hr⟩ := finishShortcutMerge_of_valid (applyOurs_valid ho ht) _
    exact ⟨r, seq_eq_ok.mpr ⟨hvalid, hr⟩⟩
  | theirs =>
    obtain ⟨r, hr⟩ := finishShortcutMerge_of_valid (applyOurs_valid ht ho) _
    exact ⟨r, seq_eq_ok.mpr ⟨hvalid, hr⟩⟩
  | auto =>
    suffices hauto : ∃ r, threeWayMergeAuto base ours theirs = .ok r by
      obtain ⟨r, hr⟩ := hauto
      exact ⟨r, seq_eq_ok.mpr ⟨hvalid, hr⟩⟩
    simp only [threeWayMergeAuto]
    split
    · next hempty =>
      rw [List.isEmpty_iff, List.append_eq_nil_iff, List.append_eq_nil_iff] at hempty
      refine ⟨_, seq_eq_ok.mpr ⟨validateArchive_eq_ok.mpr ?_, rfl⟩⟩
      exact autoArchive_valid hb ho ht hempty.1.2
    · exact ⟨_, rfl⟩

/-! ## The endpoint invariant, strategy by strategy -/

/-- The storage endpoint invariant: a symmetric edge has its smaller endpoint first. -/
def ExportedEdge.Canonical (e : ExportedEdge) : Prop :=
  e.relation.isSymmetric = true → e.source ≤ e.target

/-- The edges a shortcut copies, those of the preferred branch and the additions only the other
one made, are canonical. -/
def CopiesCanonical (base preferred other : KgArchive) : Prop :=
  (∀ e ∈ preferred.edges, e.Canonical) ∧
    ∀ e ∈ other.edges, EdgeKey.fromEdge e ∉ base.edgeKeys →
      EdgeKey.fromEdge e ∉ preferred.edgeKeys → e.Canonical

/-- What the strategy needs of its inputs to return canonical edges. -/
def SnapshotMergeStrategy.EmitsCanonical (base ours theirs : KgArchive) :
    SnapshotMergeStrategy → Prop
  | .auto => True
  | .ours => CopiesCanonical base ours theirs
  | .theirs => CopiesCanonical base theirs ours

/-- A shortcut returns the preferred branch's edges and the other's additions as they are. -/
theorem mem_shortcut_edges {merged : KgArchive} {preferred other : KgArchive} {e : ExportedEdge}
    (h : finishShortcutMerge (applyOursWithConflicts base preferred other).1 ours theirs
      (applyOursWithConflicts base preferred other).2 = .ok (.clean merged)) :
    e ∈ merged.edges ↔ e ∈ preferred.edges ∨ (e ∈ other.edges ∧
      EdgeKey.fromEdge e ∉ base.edgeKeys ∧ EdgeKey.fromEdge e ∉ preferred.edgeKeys) := by
  obtain ⟨rfl, hnone⟩ := finishShortcutMerge_clean h
  refine mem_sortEdges.trans (List.mem_append.trans (or_congr_right ?_))
  rw [appendEdges_clean hnone, List.mem_filter]
  simp

/-- **Endpoint invariant**: a clean result has canonical edges always under `auto`, and under a
shortcut strategy exactly when the edges it copies are canonical. -/
theorem threeWayMerge_canonical_iff (base ours theirs merged : KgArchive)
    (strategy : SnapshotMergeStrategy) (hvalid : validateInputs base ours theirs = .ok ())
    (h : threeWayMerge base ours theirs strategy = .ok (.clean merged)) :
    (∀ e ∈ merged.edges, e.Canonical) ↔ strategy.EmitsCanonical base ours theirs := by
  obtain ⟨-, hb, ho, ht⟩ := validateInputs_eq_ok.mp hvalid
  -- the shortcuts copy edges as they are, so the result is as canonical as what they copy
  have hcopies : ∀ {preferred other : KgArchive}, (∀ e, e ∈ merged.edges ↔ e ∈ preferred.edges ∨
      (e ∈ other.edges ∧ EdgeKey.fromEdge e ∉ base.edgeKeys ∧
        EdgeKey.fromEdge e ∉ preferred.edgeKeys)) →
      ((∀ e ∈ merged.edges, e.Canonical) ↔ CopiesCanonical base preferred other) := by
    intro preferred other hmem
    constructor
    · intro hall
      exact ⟨fun e he ↦ hall e ((hmem e).mpr (Or.inl he)),
        fun e he hnb hnp ↦ hall e ((hmem e).mpr (Or.inr ⟨he, hnb, hnp⟩))⟩
    · rintro ⟨hpref, hother⟩ e he
      rcases (hmem e).mp he with he | ⟨he, hnb, hnp⟩
      · exact hpref e he
      · exact hother e he hnb hnp
  cases strategy with
  | ours => exact hcopies fun e ↦ mem_shortcut_edges (seq_eq_ok.mp h).2
  | theirs => exact hcopies fun e ↦ mem_shortcut_edges (seq_eq_ok.mp h).2
  | auto =>
    refine iff_of_true (fun e he ↦ ?_) trivial
    obtain ⟨rfl, -, hedges, -⟩ := threeWayMergeAuto_clean (seq_eq_ok.mp h).2
    have he' := mem_sortEdges.mp he
    rw [(mergeEdges_clean hb ho ht hedges).1] at he'
    obtain ⟨c, hc, rfl⟩ := List.mem_map.mp he'
    exact (candidate_provisional hb ho ht hc).2

/-! Two concepts; one branch lets them compete, with the endpoints as given. -/

private def archiveOf (edges : List ExportedEdge) : KgArchive where
  format := "khive-kg"
  version := "0.1"
  «namespace» := "local"
  exportedAt := 0
  entities := [⟨1, "concept", none, "a", none, none, [], 0, 0⟩,
    ⟨2, "concept", none, "b", none, none, [], 0, 0⟩]
  edges := edges

private def competing (source target : Id128) : ExportedEdge :=
  ⟨3, source, target, .competesWith, Binary64.one, none, 0, 0⟩

theorem threeWayMerge_auto_spec_one_addition :
    (∀ id, id ∈ (archiveOf [competing 1 2]).entityIds ↔ id = 1 ∨ id = 2) ∧
      (archiveOf [competing 1 2]).edgeKeys = [⟨1, 2, "competes_with"⟩] ∧
      ∀ e ∈ (archiveOf [competing 1 2]).edges, e.relation.isSymmetric = true →
        e.source ≤ e.target := by
  obtain ⟨-, -, -, -, -, -, hsym⟩ := threeWayMerge_auto_spec (archiveOf [])
    (archiveOf [competing 2 1]) (archiveOf []) (archiveOf [competing 1 2]) rfl rfl
  exact ⟨fun id ↦ by simp [archiveOf, KgArchive.entityIds], rfl, hsym⟩

theorem threeWayMerge_total_one_addition :
    ∃ r, threeWayMerge (archiveOf []) (archiveOf [competing 2 1]) (archiveOf []) .theirs = .ok r :=
  threeWayMerge_total _ _ _ _ rfl

/-- A reversed edge of the preferred branch is returned reversed. -/
theorem threeWayMerge_ours_reversed :
    validateInputs (archiveOf []) (archiveOf [competing 2 1]) (archiveOf []) = .ok () ∧
      ∃ merged, threeWayMerge (archiveOf []) (archiveOf [competing 2 1]) (archiveOf []) .ours
          = .ok (.clean merged) ∧
        ∃ e ∈ merged.edges, e.relation.isSymmetric = true ∧ ¬e.source ≤ e.target :=
  ⟨rfl, archiveOf [competing 2 1], rfl, competing 2 1, List.mem_cons_self, rfl, by decide⟩

theorem threeWayMerge_canonical_iff_ordered :
    validateInputs (archiveOf []) (archiveOf [competing 1 2]) (archiveOf []) = .ok () ∧
      ∀ e ∈ (archiveOf [competing 1 2]).edges, e.Canonical := by
  refine ⟨rfl, (threeWayMerge_canonical_iff (archiveOf []) (archiveOf [competing 1 2])
    (archiveOf []) (archiveOf [competing 1 2]) .ours rfl rfl).mpr ⟨?_, ?_⟩⟩
  · intro e he _
    cases List.mem_singleton.mp he
    decide
  · intro e he
    exact absurd he List.not_mem_nil

end Khive
