import Khive.Graph.Traversal

/-!
# What the breadth-first traversal returns

Every level of the traversal is a sphere around the start, and its nodes are pushed with the edges
that lead to them from the sphere before. A limit cuts the result of the whole traversal, after two
nodes at the earliest: the start is pushed before the loop, and the limit is tested in it.
-/

namespace Khive.Traversal

variable {Content : Type} {store : GraphStore Content} {edges : List (Edge Content)}
  {options : TraversalOptions} {query : NeighborQuery} {start : Id128}

/-- The results up to a depth. -/
structure Traversed (edges : List (Edge Content)) (query : NeighborQuery) (start : Id128)
    (depth : ℕ) (results : List (PathNode Content)) : Prop where
  mem_iff : ∀ v, v ∈ results.map PathNode.entityId ↔
    ∃ j ≤ depth, IsDistance (Adjacent edges query) j start v
  nodup : (results.map PathNode.entityId).Nodup
  distance : ∀ node ∈ results, IsDistance (Adjacent edges query) node.depth start node.entityId
  sorted : results.Pairwise fun a b ↦ a.depth ≤ b.depth
  joined : ∀ node ∈ results, node.entityId ≠ start → ∃ e ∈ edges, node.viaEdge = some e ∧
    ∃ parent ∈ results, parent.depth + 1 = node.depth ∧
      query.Joins e parent.entityId node.entityId

theorem traversed_start : Traversed edges query start 0 [⟨start, 0, none⟩] where
  mem_iff v := by simp [eq_comm]
  nodup := List.nodup_singleton _
  distance node hnode := by
    obtain rfl := List.mem_singleton.mp hnode
    exact isDistance_zero.mpr rfl
  sorted := List.pairwise_singleton _ _
  joined node hnode hne := by
    obtain rfl := List.mem_singleton.mp hnode
    exact absurd rfl hne

namespace Traversed

variable {depth : ℕ} {results nodes : List (PathNode Content)}

theorem depth_le (h : Traversed edges query start depth results) {node : PathNode Content}
    (hnode : node ∈ results) : node.depth ≤ depth := by
  obtain ⟨j, hj, hdist⟩ := (h.mem_iff _).mp (List.mem_map_of_mem hnode)
  exact (h.distance node hnode).unique hdist ▸ hj

/-- The nodes at a distance that was reached are among the results, with this depth. -/
theorem exists_of_isDistance (h : Traversed edges query start depth results) {j : ℕ} {v : Id128}
    (hj : j ≤ depth) (hdist : IsDistance (Adjacent edges query) j start v) :
    ∃ node ∈ results, node.entityId = v ∧ node.depth = j := by
  obtain ⟨node, hnode, rfl⟩ := List.mem_map.mp ((h.mem_iff v).mpr ⟨j, hj, hdist⟩)
  exact ⟨node, hnode, rfl, (h.distance node hnode).unique hdist⟩

/-- The next sphere is appended, each node with an edge from the last one. -/
theorem append (h : Traversed edges query start depth results)
    (hlevel : ∀ v, v ∈ nodes.map PathNode.entityId ↔
      IsDistance (Adjacent edges query) (depth + 1) start v)
    (hnodup : (nodes.map PathNode.entityId).Nodup)
    (hnodes : ∀ node ∈ nodes, node.depth = depth + 1 ∧ ∃ e ∈ edges, node.viaEdge = some e ∧
      ∃ u, IsDistance (Adjacent edges query) depth start u ∧ query.Joins e u node.entityId) :
    Traversed edges query start (depth + 1) (results ++ nodes) where
  mem_iff v := by
    rw [List.map_append, List.mem_append, h.mem_iff, hlevel]
    constructor
    · rintro (⟨j, hj, hdist⟩ | hdist)
      · exact ⟨j, Nat.le_succ_of_le hj, hdist⟩
      · exact ⟨depth + 1, le_rfl, hdist⟩
    · rintro ⟨j, hj, hdist⟩
      rcases Nat.le_succ_iff.mp hj with hle | rfl
      · exact Or.inl ⟨j, hle, hdist⟩
      · exact Or.inr hdist
  nodup := by
    rw [List.map_append]
    refine List.nodup_append.mpr ⟨h.nodup, hnodup, ?_⟩
    rintro v hv _ hw rfl
    obtain ⟨j, hj, hdist⟩ := (h.mem_iff v).mp hv
    exact absurd (hdist.unique ((hlevel v).mp hw)) (by omega)
  distance node hnode := by
    rcases List.mem_append.mp hnode with hnode | hnode
    · exact h.distance node hnode
    · rw [(hnodes node hnode).1]
      exact (hlevel _).mp (List.mem_map_of_mem hnode)
  sorted := by
    refine List.pairwise_append.mpr ⟨h.sorted, ?_, fun a ha b hb ↦ ?_⟩
    · refine List.Pairwise.imp_of_mem (fun ha hb _ ↦ ?_) (List.pairwise_of_forall fun _ _ ↦ trivial)
      rw [(hnodes _ ha).1, (hnodes _ hb).1]
    · rw [(hnodes b hb).1]
      exact Nat.le_succ_of_le (h.depth_le ha)
  joined node hnode hne := by
    rcases List.mem_append.mp hnode with hnode | hnode
    · obtain ⟨e, he, hvia, parent, hparent, hjoins⟩ := h.joined node hnode hne
      exact ⟨e, he, hvia, parent, List.mem_append_left _ hparent, hjoins⟩
    · obtain ⟨hdepth, e, he, hvia, u, hu, hjoins⟩ := hnodes node hnode
      obtain ⟨parent, hparent, rfl, hparentDepth⟩ := h.exists_of_isDistance le_rfl hu
      exact ⟨e, he, hvia, parent, List.mem_append_left _ hparent, by omega, hjoins⟩

/-- Once the spheres are empty, the results are those of every larger depth. -/
theorem of_explored (h : Traversed edges query start depth results) {seen : Id128 → Prop} {j : ℕ}
    (hexplored : Explored (Adjacent edges query) start depth seen fun _ ↦ False)
    (hle : depth ≤ j) : Traversed edges query start j results where
  __ := h
  mem_iff v := by
    rw [h.mem_iff, ← hexplored.seen]
    exact (hexplored.of_empty_le (fun _ ↦ not_false) hle).seen v

/-- The parent of a node stands before it. -/
theorem parent_mem_before (h : Traversed edges query start depth results)
    {before after : List (PathNode Content)} {node parent : PathNode Content}
    (heq : results = before ++ node :: after) (hparent : parent ∈ results)
    (hdepth : parent.depth + 1 = node.depth) : parent ∈ before := by
  have hsorted := h.sorted
  rw [heq] at hsorted hparent
  rcases List.mem_append.mp hparent with hmem | hmem
  · exact hmem
  · rcases List.mem_cons.mp hmem with rfl | hmem
    · omega
    · have hle := (List.pairwise_cons.mp (List.pairwise_append.mp hsorted).2.1).1 parent hmem
      omega

end Traversed

/-! ## Runs -/

/-- The same traversal without a limit. -/
def TraversalOptions.unlimited (options : TraversalOptions) : TraversalOptions :=
  { options with limit := none }

@[simp] theorem TraversalOptions.query_unlimited (options : TraversalOptions) :
    options.unlimited.query = options.query := rfl

@[simp] theorem TraversalOptions.limit_unlimited (options : TraversalOptions) :
    options.unlimited.limit = none := rfl

section Runs

variable {depth : ℕ} {visited : Finset Id128} {frontier : List Id128}

/-- The state between two levels is that of a search by levels. -/
def AtLevel (edges : List (Edge Content)) (query : NeighborQuery) (start : Id128) (depth : ℕ)
    (visited : Finset Id128) (frontier : List Id128) : Prop :=
  Explored (Adjacent edges query) start depth (· ∈ visited) (· ∈ frontier)

theorem AtLevel.collectLevel (hanswers : Answers store edges)
    (h : AtLevel edges query start depth visited frontier) :
    AtLevel edges query start (depth + 1)
      (collectLevel visited (store.batchNeighbors frontier query)).1
      ((Traversal.collectLevel visited (store.batchNeighbors frontier query)).2.map Prod.fst) := by
  have hcollected := collected_collectLevel visited (store.batchNeighbors frontier query)
  refine h.next (fun v ↦ ?_) hcollected.marked
  rw [hcollected.new, hanswers.exists_hit]

/-- The edges of a level are fetched, and each leads from the frontier to its node. -/
theorem get_edgeMap_collectLevel (hanswers : Answers store edges) {p : Id128 × Id128}
    (hp : p ∈ (collectLevel visited (store.batchNeighbors frontier query)).2) :
    ∃ e ∈ edges, (edgeMap (store.getEdges
        ((collectLevel visited (store.batchNeighbors frontier query)).2.map Prod.snd))).get p.2 =
      some e ∧ ∃ u ∈ frontier, query.Joins e u p.1 := by
  have hcollected := collected_collectLevel visited (store.batchNeighbors frontier query)
  obtain ⟨hit, hmem, heq⟩ := hcollected.hit p hp
  obtain ⟨hsrc, e, he, hid, hjoins⟩ := (hanswers.batchNeighbors _ _ _ _).mp hmem
  have hpid : e.id = p.2 := by rw [heq, hid]
  refine ⟨e, he, ?_, hit.1, hsrc, ?_⟩
  · rw [← hpid]
    exact hanswers.get_edgeMap he (hpid ▸ List.mem_map_of_mem hp)
  · rw [heq]
    exact hjoins

theorem isSome_get_edgeMap_collectLevel (hanswers : Answers store edges)
    (visited : Finset Id128) (frontier : List Id128) (query : NeighborQuery) :
    ∀ p ∈ (collectLevel visited (store.batchNeighbors frontier query)).2,
      ((edgeMap (store.getEdges ((collectLevel visited
        (store.batchNeighbors frontier query)).2.map Prod.snd))).get p.2).isSome := by
  intro p hp
  obtain ⟨e, -, hget, -⟩ := get_edgeMap_collectLevel hanswers hp
  exact Option.isSome_iff_exists.mpr ⟨e, hget⟩

@[simp] theorem map_entityId_levelNodes (fetched : OrderedMap Id128 (Edge Content))
    (nextDepth : ℕ) (level : List (Id128 × Id128)) :
    (levelNodes fetched nextDepth level).map PathNode.entityId = level.map Prod.fst := by
  rw [levelNodes, List.map_map]
  rfl

/-- The results after a level. -/
theorem Traversed.levelNodes (hanswers : Answers store edges)
    (hlevel : AtLevel edges query start depth visited frontier)
    {results : List (PathNode Content)} (hresults : Traversed edges query start depth results) :
    Traversed edges query start (depth + 1) (results ++
      levelNodes (edgeMap (store.getEdges ((Traversal.collectLevel visited
        (store.batchNeighbors frontier query)).2.map Prod.snd))) (depth + 1)
        (Traversal.collectLevel visited (store.batchNeighbors frontier query)).2) := by
  refine hresults.append (fun v ↦ ?_) ?_ fun node hnode ↦ ?_
  · rw [map_entityId_levelNodes]
    exact (hlevel.collectLevel hanswers).frontier v
  · rw [map_entityId_levelNodes]
    exact (collected_collectLevel _ _).nodup
  · obtain ⟨p, hp, rfl⟩ := List.mem_map.mp hnode
    obtain ⟨e, he, hget, u, hu, hjoins⟩ := get_edgeMap_collectLevel hanswers hp
    exact ⟨rfl, e, he, hget, u, (hlevel.frontier u).mp hu, hjoins⟩

/-- Without a limit the run ends with the results up to the depth of the last level. -/
theorem bfsLevels_none (hanswers : Answers store edges) (hlimit : options.limit = none)
    (levels : ℕ) {results : List (PathNode Content)}
    (hlevel : AtLevel edges options.query start depth visited frontier)
    (hresults : Traversed edges options.query start depth results) :
    ∃ more, bfsLevels store options levels depth visited results frontier =
        .ok (results ++ more) ∧
      Traversed edges options.query start (depth + levels) (results ++ more) := by
  induction levels generalizing depth visited results frontier with
  | zero => exact ⟨[], by rw [bfsLevels, List.append_nil], by rwa [List.append_nil]⟩
  | succ levels ih =>
    rw [bfsLevels]
    by_cases hfrontier : frontier = []
    · subst hfrontier
      rw [if_pos rfl]
      have hempty := hlevel.congr (fun _ ↦ Iff.rfl) fun v ↦
        (iff_false_intro List.not_mem_nil).symm
      exact ⟨[], by rw [List.append_nil], by
        rw [List.append_nil]
        exact hresults.of_explored hempty (Nat.le_add_right _ _)⟩
    have hnext := hlevel.collectLevel hanswers
    have hresults' := hresults.levelNodes hanswers hlevel
    rw [if_neg hfrontier]
    simp only [hlimit, pushLevel_none (isSome_get_edgeMap_collectLevel hanswers _ _ _),
      List.nil_append]
    generalize collectLevel visited (store.batchNeighbors frontier options.query) = level
      at hnext hresults' ⊢
    rw [show depth + (levels + 1) = depth + 1 + levels by omega]
    split_ifs with hnil
    · rw [hnil] at hnext hresults'
      have hempty := hnext.congr (fun _ ↦ Iff.rfl) fun v ↦
        (iff_false_intro List.not_mem_nil).symm
      exact ⟨[], by rw [List.append_nil], hresults'.of_explored hempty (Nat.le_add_right _ _)⟩
    · obtain ⟨more, hrun, htraversed⟩ := ih hnext hresults'
      rw [List.append_assoc] at hrun htraversed
      exact ⟨_, hrun, htraversed⟩

/-- With a limit the run ends with the first results of the run without one. -/
theorem bfsLevels_some (hanswers : Answers store edges) {limit : UInt32}
    (hlimit : options.limit = some limit) {levels : ℕ} {results more : List (PathNode Content)}
    (hlevel : AtLevel edges options.query start depth visited frontier)
    (hresults : Traversed edges options.query start depth results)
    (hfull : bfsLevels store options.unlimited levels depth visited results frontier =
      .ok (results ++ more)) :
    bfsLevels store options levels depth visited results frontier =
      .ok ((results ++ more).take (max limit.toNat (results.length + 1))) := by
  induction levels generalizing depth visited results more frontier with
  | zero =>
    rw [bfsLevels] at hfull
    rw [bfsLevels, ← Except.ok.inj hfull, List.take_of_length_le (by omega)]
  | succ levels ih =>
    have hnext := hlevel.collectLevel hanswers
    have hresults' := hresults.levelNodes hanswers hlevel
    have hfound := isSome_get_edgeMap_collectLevel hanswers visited frontier options.query
    rw [bfsLevels] at hfull ⊢
    by_cases hfrontier : frontier = []
    · rw [if_pos hfrontier] at hfull ⊢
      rw [← Except.ok.inj hfull, List.take_of_length_le (by omega)]
    rw [if_neg hfrontier] at hfull ⊢
    simp only [TraversalOptions.query_unlimited, TraversalOptions.limit_unlimited,
      pushLevel_none hfound, List.nil_append] at hfull
    simp only [hlimit, pushLevel_some hfound]
    generalize collectLevel visited (store.batchNeighbors frontier options.query) = level
      at hnext hresults' hfull ⊢
    by_cases hnil : level.2 = []
    · rw [if_pos hnil] at hfull ⊢
      rw [← Except.ok.inj hfull, List.take_of_length_le (by omega)]
    rw [if_neg hnil] at hfull ⊢
    have hpos := List.length_pos_iff.mpr hnil
    obtain ⟨_, hrun, -⟩ :=
      bfsLevels_none hanswers options.limit_unlimited levels hnext hresults'
    rw [hrun] at hfull
    rw [← Except.ok.inj hfull]
    by_cases hlt : results.length + level.2.length < max limit.toNat (results.length + 1)
    · -- the limit is beyond the level, so it is the limit of the levels after it
      rw [if_pos hlt]
      refine (ih hnext hresults' hrun).trans ?_
      rw [List.length_append, levelNodes, List.length_map]
      congr 2
      omega
    · rw [if_neg hlt]
      refine congrArg Except.ok (List.take_append_of_le_length ?_).symm
      rw [List.length_append, levelNodes, List.length_map]
      omega

end Runs

/-! ## Exactness and the limit -/

theorem atLevel_start : AtLevel edges query start 0 {start} [start] :=
  (explored_zero _ start).congr (fun _ ↦ Finset.mem_singleton) fun _ ↦ List.mem_singleton

/-- Without a limit the traversal returns the nodes within `max_depth`. -/
theorem bfsTraverse_unlimited (options : TraversalOptions) (hanswers : Answers store edges)
    (hstart : store.substrateExists start = true) :
    ∃ full, bfsTraverse store start options.unlimited = .ok full ∧
      Traversed edges options.query start options.maxDepth full := by
  obtain ⟨more, hrun, htraversed⟩ := bfsLevels_none hanswers options.limit_unlimited
    options.maxDepth atLevel_start traversed_start
  rw [Nat.zero_add] at htraversed
  refine ⟨_, ?_, htraversed⟩
  rw [bfsTraverse, hstart]
  exact hrun

/-- A limit keeps the first results, and at least two of them. -/
theorem bfsTraverse_limited (hanswers : Answers store edges)
    (hstart : store.substrateExists start = true) {limit : UInt32}
    (hlimit : options.limit = some limit) {full : List (PathNode Content)}
    (hfull : bfsTraverse store start options.unlimited = .ok full) :
    bfsTraverse store start options = .ok (full.take (max limit.toNat 2)) := by
  obtain ⟨more, hrun, -⟩ := bfsLevels_none hanswers options.limit_unlimited options.maxDepth
    atLevel_start traversed_start
  have hlimited := bfsLevels_some hanswers hlimit atLevel_start traversed_start hrun
  rw [bfsTraverse, hstart] at hfull ⊢
  obtain rfl := Except.ok.inj (hrun.symm.trans hfull)
  exact hlimited

/-- What a traversal is to return: the nodes in the order of their distances, each with an edge
from an earlier one, and with a limit the first of them and no more than the limit. -/
structure Exact (store : GraphStore Content) (edges : List (Edge Content)) (start : Id128)
    (options : TraversalOptions) (results : List (PathNode Content)) : Prop where
  nodup : (results.map PathNode.entityId).Nodup
  distance : ∀ node ∈ results, node.depth ≤ options.maxDepth ∧
    IsDistance (Adjacent edges options.query) node.depth start node.entityId
  sorted : results.Pairwise fun a b ↦ a.depth ≤ b.depth
  joined : ∀ before node after, results = before ++ node :: after → node.entityId ≠ start →
    ∃ e ∈ edges, node.viaEdge = some e ∧ ∃ parent ∈ before, parent.depth + 1 = node.depth ∧
      options.query.Joins e parent.entityId node.entityId
  complete : options.limit = none → ∀ k ≤ options.maxDepth, ∀ v,
    IsDistance (Adjacent edges options.query) k start v → v ∈ results.map PathNode.entityId
  limited : ∀ limit, options.limit = some limit → results.length ≤ max limit.toNat 1 ∧
    ∃ full, bfsTraverse store start options.unlimited = .ok full ∧ results <+: full

/-- The first results of a traversal are as they should be, up to their number. -/
theorem Traversed.exact {full results : List (PathNode Content)}
    (h : Traversed edges options.query start options.maxDepth full) (hinitial : results <+: full)
    (hcomplete : options.limit = none → results = full)
    (hlimited : ∀ limit, options.limit = some limit → results.length ≤ max limit.toNat 1 ∧
      ∃ full, bfsTraverse store start options.unlimited = .ok full ∧ results <+: full) :
    Exact store edges start options results where
  nodup := h.nodup.sublist (hinitial.sublist.map _)
  distance node hnode :=
    ⟨h.depth_le (hinitial.subset hnode), h.distance node (hinitial.subset hnode)⟩
  sorted := h.sorted.sublist hinitial.sublist
  joined before node after heq hne := by
    obtain ⟨rest, rfl⟩ := hinitial
    subst heq
    obtain ⟨e, he, hvia, parent, hparent, hdepth, hjoins⟩ := h.joined node (by simp) hne
    refine ⟨e, he, hvia, parent, ?_, hdepth, hjoins⟩
    exact h.parent_mem_before (by rw [List.append_assoc, List.cons_append]) hparent hdepth
  complete hlimit k hk v hdist := by
    rw [hcomplete hlimit]
    exact (h.mem_iff v).mpr ⟨k, hk, hdist⟩
  limited := hlimited

/-- Only the start is found exactly when no depth is allowed or nothing else is adjacent. -/
theorem Traversed.length_le_one {depth : ℕ} {full : List (PathNode Content)}
    (h : Traversed edges query start depth full) :
    full.length ≤ 1 ↔ depth = 0 ∨ ∀ v, Adjacent edges query start v → v = start := by
  have hstart : start ∈ full.map PathNode.entityId :=
    (h.mem_iff start).mpr ⟨0, Nat.zero_le _, isDistance_zero.mpr rfl⟩
  constructor
  · intro hlen
    by_contra hnot
    push Not at hnot
    obtain ⟨hdepth, v, hadj, hne⟩ := hnot
    have hdist : IsDistance (Adjacent edges query) 1 start v := by
      refine isDistance_succ.mpr ⟨fun j hj ↦ ?_, start, isDistance_zero.mpr rfl, hadj⟩
      obtain rfl := Nat.le_zero.mp hj
      exact fun h0 ↦ hne (isDistance_zero.mp h0).symm
    have hv := (h.mem_iff v).mpr ⟨1, by omega, hdist⟩
    have htwo : [start, v].Nodup := by simpa using fun heq ↦ hne heq.symm
    have hsub : [start, v] ⊆ full.map PathNode.entityId :=
      List.cons_subset.mpr ⟨hstart, List.cons_subset.mpr ⟨hv, List.nil_subset _⟩⟩
    have hle := (List.subperm_of_subset htwo hsub).length_le
    rw [List.length_map] at hle
    exact absurd (hle.trans hlen) (by simp)
  · intro hcond
    have hall : ∀ v ∈ full.map PathNode.entityId, v = start := by
      intro v hv
      obtain ⟨j, hj, hdist⟩ := (h.mem_iff v).mp hv
      cases j with
      | zero => exact (isDistance_zero.mp hdist).symm
      | succ j =>
        rcases hcond with rfl | hnone
        · omega
        · -- the first step of a shortest chain would stay at the start
          rw [Nat.add_comm] at hdist
          obtain ⟨w, hone, -⟩ := hdist.split
          obtain ⟨_, rfl, hadj⟩ := hone.1
          obtain rfl := hnone w hadj
          exact absurd rfl (hone.2 0 Nat.one_pos)
    have hnodup := h.nodup
    rw [List.eq_replicate_of_mem hall, List.nodup_replicate, List.length_map] at hnodup
    exact hnodup

/-- The traversal returns what it should exactly when no limit below two meets a second node. -/
theorem bfsTraverse_exact_iff (hanswers : Answers store edges)
    (hstart : store.substrateExists start = true) :
    (∃ results, bfsTraverse store start options = .ok results ∧
      Exact store edges start options results) ↔
      ∀ limit, options.limit = some limit → limit < 2 →
        options.maxDepth = 0 ∨ ∀ v, Adjacent edges options.query start v → v = start := by
  obtain ⟨full, hfull, htraversed⟩ := bfsTraverse_unlimited options hanswers hstart
  rcases hlimit : options.limit with - | limit
  · have hunlimited : options.unlimited = options := by rw [TraversalOptions.unlimited, ← hlimit]
    rw [hunlimited] at hfull
    have hexact : Exact store edges start options full :=
      htraversed.exact (List.prefix_refl _) (fun _ ↦ rfl) (by simp [hlimit])
    exact iff_of_true ⟨full, hfull, hexact⟩ (by simp)
  · have hrun := bfsTraverse_limited hanswers hstart hlimit hfull
    simp only [hrun, Except.ok.injEq, exists_eq_left', Option.some.injEq, forall_eq']
    have hlength : (full.take (max limit.toNat 2)).length ≤ max limit.toNat 1 ↔
        limit < 2 → full.length ≤ 1 := by
      rw [List.length_take, UInt32.lt_iff_toNat_lt]
      change _ ↔ limit.toNat < 2 → _
      omega
    rw [← htraversed.length_le_one, ← hlength]
    constructor
    · exact fun h ↦ (h.limited limit hlimit).1
    · intro hle
      refine htraversed.exact (List.take_prefix _ _) (by simp [hlimit]) ?_
      rintro _ hlimit'
      obtain rfl := Option.some.inj (hlimit.symm.trans hlimit')
      exact ⟨hle, full, hfull, List.take_prefix _ _⟩

/-! ### A chain of two nodes -/

section Sample

/-- One edge, from node 0 to node 1. -/
def sampleEdges : List (Edge Unit) := [⟨7, 0, 1, .linksTo, ()⟩]

/-- Outgoing edges, one level deep. -/
def sampleOptions (limit : Option UInt32) : TraversalOptions := ⟨1, .out, none, limit⟩

theorem answers_sampleEdges : Answers (storeOf sampleEdges) sampleEdges :=
  answers_storeOf (by decide)

theorem bfsTraverse_exact_sample :
    ∃ results, bfsTraverse (storeOf sampleEdges) 0 (sampleOptions (some 2)) = .ok results ∧
      Exact (storeOf sampleEdges) sampleEdges 0 (sampleOptions (some 2)) results :=
  (bfsTraverse_exact_iff answers_sampleEdges rfl).mpr fun limit hlimit hlt ↦ by
    obtain rfl := Option.some.inj hlimit
    exact absurd hlt (by decide)

/-- With limit 1 the start and its neighbour are returned. -/
theorem not_bfsTraverse_exact :
    ¬∃ results, bfsTraverse (storeOf sampleEdges) 0 (sampleOptions (some 1)) = .ok results ∧
      Exact (storeOf sampleEdges) sampleEdges 0 (sampleOptions (some 1)) results := by
  rintro ⟨results, hrun, hexact⟩
  have hlen : ((bfsTraverse (storeOf sampleEdges) 0 (sampleOptions (some 1))).map
      List.length) = .ok 2 := by decide +kernel
  rw [hrun] at hlen
  have hle := (hexact.limited 1 rfl).1
  rw [Except.ok.inj hlen] at hle
  exact absurd hle (by decide)

end Sample

end Khive.Traversal
