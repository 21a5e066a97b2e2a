import Khive.Hnsw.Layers

/-!
# The layers over a run

Every call keeps the lists in order and the highest level known. An insertion keeps the layers exact
when it starts on top, and the other calls do so anyway.
-/

namespace Khive.Hnsw

variable {F : Type} {K : Kernels F}

namespace HnswIndex

variable {index index' : HnswIndex F} {id : NodeId} {vector : List F}

/-! ## A new node -/

theorem length_padTo {layer : ℕ} {lists : List (List ℕ)} (h : layer < lists.length) :
    padTo layer lists = lists := by
  have hzero : layer + 1 - lists.length = 0 := by omega
  rw [padTo, hzero, List.replicate_zero, List.append_nil]

/-- A list that is placed is one of those chosen, or it was there. -/
theorem getElem?_placeNeighbors {lists : List (List ℕ)} {layerNeighbors : List (ℕ × List ℕ)}
    {layer : ℕ} {list : List ℕ} (h : (placeNeighbors lists layerNeighbors)[layer]? = some list) :
    (layer, list) ∈ layerNeighbors ∨ lists[layer]? = some list ∨ list = [] := by
  induction layerNeighbors generalizing lists with
  | nil => exact Or.inr (Or.inl h)
  | cons chosen layerNeighbors ih =>
    rcases ih h with hmem | hget | hnil
    · exact Or.inl (List.mem_cons_of_mem _ hmem)
    · rw [List.getElem?_set] at hget
      split_ifs at hget with heq
      · obtain rfl := Option.some.inj hget
        exact Or.inl (heq ▸ List.mem_cons_self)
      · exact Or.inr (getElem?_padTo hget)
    · exact Or.inr (Or.inr hnil)

theorem length_placeNeighbors {lists : List (List ℕ)} {layerNeighbors : List (ℕ × List ℕ)}
    (h : ∀ chosen ∈ layerNeighbors, chosen.1 < lists.length) :
    (placeNeighbors lists layerNeighbors).length = lists.length := by
  induction layerNeighbors generalizing lists with
  | nil => rfl
  | cons chosen layerNeighbors ih =>
    obtain ⟨hlt, hrest⟩ := List.forall_mem_cons.mp h
    have hset : ((padTo chosen.1 lists).set chosen.1 chosen.2).length = lists.length := by
      rw [List.length_set, length_padTo hlt]
    rw [placeNeighbors, List.foldl_cons]
    exact (ih fun c hc ↦ (hrest c hc).trans_eq hset.symm).trans hset

theorem getElem?_pushNode {node : HnswNode F} {i : ℕ} {other : HnswNode F}
    (h : (index.pushNode K id node).nodes[i]? = some other) :
    index.nodes[i]? = some other ∨ i = index.nodes.length ∧ other = node := by
  rw [pushNode, List.getElem?_append] at h
  split_ifs at h with hlt
  · exact Or.inl h
  · rw [List.getElem?_singleton] at h
    split_ifs at h with hi
    exact Or.inr ⟨by omega, (Option.some.inj h).symm⟩

theorem Reaches.pushNode {layer i : ℕ} (h : index.Reaches layer i) (node : HnswNode F) :
    (index.pushNode K id node).Reaches layer i := by
  obtain ⟨other, hother, hreach⟩ := h
  refine ⟨other, ?_, hreach⟩
  rw [HnswIndex.pushNode, List.getElem?_append_left (List.getElem?_eq_some_iff.mp hother).1]
  exact hother

theorem reaches_pushNode_self (node : HnswNode F) {layer : ℕ} (h : layer ≤ node.maxLayer) :
    (index.pushNode K id node).Reaches layer index.nodes.length :=
  ⟨node, List.getElem?_concat_length, h⟩

/-- A new node whose lists are in order. -/
theorem Tidy.pushNode (h : index.Tidy none) {node : HnswNode F}
    (hsimple : Simple index.nodes.length node.neighbors)
    (hbounded : ∀ layer list, node.neighbors[layer]? = some list →
      list.length ≤ index.maxNeighbors layer) : (index.pushNode K id node).Tidy none := by
  constructor
  · intro i other hother
    rcases getElem?_pushNode hother with hother | ⟨rfl, rfl⟩
    · exact h.simple i other hother
    · exact hsimple
  · intro i other hother layer list hlist hpending
    rcases getElem?_pushNode hother with hother | ⟨rfl, rfl⟩
    · exact h.bounded i other hother layer list hlist hpending
    · exact hbounded layer list hlist

theorem Exact.pushNode (h : index.Exact) {node : HnswNode F}
    (hlayers : node.neighbors.length = node.maxLayer + 1)
    (hlinks : ∀ layer list, node.neighbors[layer]? = some list →
      ∀ j ∈ list, index.Reaches layer j) : (index.pushNode K id node).Exact := by
  constructor
  · intro other hother
    rcases List.mem_append.mp hother with hother | hother
    · exact h.layers other hother
    · exact (List.mem_singleton.mp hother).symm ▸ hlayers
  · intro other hother layer list hlist j hj
    rcases List.mem_append.mp hother with hother | hother
    · exact (h.links other hother layer list hlist j hj).pushNode node
    · obtain rfl := List.mem_singleton.mp hother
      exact (hlinks layer list hlist j hj).pushNode other

/-- The neighbours that are placed keep the lists of a new node in order. -/
theorem placed_spec {P : ℕ → ℕ → Prop} {level n : ℕ} {bound : ℕ → ℕ}
    {layerNeighbors : List (ℕ × List ℕ)}
    (hfit : ∀ chosen ∈ layerNeighbors, Fit bound P level chosen)
    (hrange : ∀ chosen ∈ layerNeighbors, ∀ j ∈ chosen.2, j < n) :
    let lists := placeNeighbors (List.replicate (level + 1) []) layerNeighbors
    lists.length = level + 1 ∧ Simple n lists ∧
      ∀ layer list, lists[layer]? = some list →
        list.length ≤ bound layer ∧ ∀ j ∈ list, P layer j := by
  intro lists
  have hcases : ∀ layer list, lists[layer]? = some list →
      (layer, list) ∈ layerNeighbors ∨ list = [] := by
    intro layer list hlist
    rcases getElem?_placeNeighbors hlist with hmem | hold | hnil
    · exact Or.inl hmem
    · exact Or.inr (List.mem_replicate.mp (List.mem_of_getElem? hold)).2
    · exact Or.inr hnil
  refine ⟨?_, ?_, ?_⟩
  · refine (length_placeNeighbors fun chosen hchosen ↦ ?_).trans List.length_replicate
    rw [List.length_replicate]
    exact Nat.lt_succ_of_le (hfit chosen hchosen).1
  · intro list hlist
    obtain ⟨layer, hlayer⟩ := List.getElem?_of_mem hlist
    rcases hcases layer list hlayer with hmem | rfl
    · exact ⟨(hfit _ hmem).2.2.1, fun hn ↦ (hrange _ hmem n hn).false⟩
    · exact ⟨List.nodup_nil, List.not_mem_nil⟩
  · intro layer list hlist
    rcases hcases layer list hlist with hmem | rfl
    · exact ⟨(hfit _ hmem).2.2.2, (hfit _ hmem).2.1⟩
    · exact ⟨Nat.zero_le _, by simp⟩

/-- What a call makes of the layers of an index. -/
structure Layered (index index' : HnswIndex F) : Prop where
  tidy : index'.Tidy none
  top : index'.maxLevel = index'.topLevel
  layers : index.Exact → index.EntryOnTop → index'.Exact

/-- The part of a node that the layers are about. -/
def shape (node : HnswNode F) : List (List ℕ) × ℕ := (node.neighbors, node.maxLayer)

section Congr

variable (hshape : index'.nodes.map shape = index.nodes.map shape)

include hshape

theorem exists_shape {i : ℕ} {node : HnswNode F} (hnode : index'.nodes[i]? = some node) :
    ∃ other, index.nodes[i]? = some other ∧ other.neighbors = node.neighbors ∧
      other.maxLayer = node.maxLayer := by
  have hget : (index.nodes.map shape)[i]? = some (shape node) := by
    rw [← hshape, List.getElem?_map, hnode]
    rfl
  rw [List.getElem?_map] at hget
  obtain ⟨other, hother, heq⟩ := Option.map_eq_some_iff.mp hget
  exact ⟨other, hother, congrArg Prod.fst heq, congrArg Prod.snd heq⟩

theorem Tidy.congr {pending : Option (ℕ × ℕ)} (h : index.Tidy pending)
    (hconfig : index'.config = index.config) : index'.Tidy pending := by
  constructor
  · intro i node hnode
    obtain ⟨other, hother, hlists, -⟩ := exists_shape hshape hnode
    exact hlists ▸ h.simple i other hother
  · intro i node hnode layer list hlist hpending
    obtain ⟨other, hother, hlists, -⟩ := exists_shape hshape hnode
    rw [maxNeighbors_congr hconfig]
    exact h.bounded i other hother layer list (hlists ▸ hlist) hpending

theorem reaches_congr {layer iid : ℕ} : index'.Reaches layer iid ↔ index.Reaches layer iid := by
  have hlevels := congrArg (List.map Prod.snd) hshape
  rw [List.map_map, List.map_map] at hlevels
  rw [reaches_iff_level, reaches_iff_level]
  exact hlevels ▸ Iff.rfl

theorem Exact.congr (h : index.Exact) : index'.Exact := by
  constructor
  · intro node hnode
    obtain ⟨i, hi⟩ := List.getElem?_of_mem hnode
    obtain ⟨other, hother, hlists, hlevel⟩ := exists_shape hshape hi
    rw [← hlists, ← hlevel]
    exact h.layers other (List.mem_of_getElem? hother)
  · intro node hnode layer list hlist j hj
    obtain ⟨i, hi⟩ := List.getElem?_of_mem hnode
    obtain ⟨other, hother, hlists, -⟩ := exists_shape hshape hi
    rw [reaches_congr hshape]
    exact h.links other (List.mem_of_getElem? hother) layer list (hlists ▸ hlist) j hj

theorem topLevel_congr : index'.topLevel = index.topLevel := by
  have hlevels := congrArg (List.map Prod.snd) hshape
  rw [List.map_map, List.map_map] at hlevels
  exact congrArg (List.foldl max 0) hlevels

end Congr

theorem Rewired.topLevel_eq (h : index.Rewired index') : index'.topLevel = index.topLevel :=
  congrArg (List.foldl max 0) h.levels

theorem raiseTo_nodes (level internalId : ℕ) :
    (index.raiseTo level internalId).nodes = index.nodes := by
  rw [raiseTo]
  split_ifs <;> rfl

theorem raiseTo_config (level internalId : ℕ) :
    (index.raiseTo level internalId).config = index.config := by
  rw [raiseTo]
  split_ifs <;> rfl

theorem raiseTo_maxLevel (level internalId : ℕ) :
    (index.raiseTo level internalId).maxLevel = max index.maxLevel level := by
  rw [raiseTo]
  split_ifs with hlt
  · exact (max_eq_right hlt.le).symm
  · exact (max_eq_left (not_lt.mp hlt)).symm

theorem topLevel_pushNode (node : HnswNode F) :
    (index.pushNode K id node).topLevel = max index.topLevel node.maxLayer := by
  rw [topLevel, pushNode, List.map_append, List.foldl_append]
  rfl

/-- **A new node** gets lists in its layers, and the neighbours it is connected to reach them when
the insertion starts on top. -/
theorem ensures_insertNode (h : index.WellFormed K) (htidy : index.Tidy none)
    (htop : index.maxLevel = index.topLevel) (draw : ℕ) :
    Ensures (index.insertNode K id vector draw) fun r ↦ Layered index r.2 := by
  rw [insertNode]
  dsimp only
  generalize min draw levelLimit = level
  have hempty : ∀ layer list, (List.replicate (level + 1) ([] : List ℕ))[layer]? = some list →
      list = [] := fun layer list hlist ↦
    (List.mem_replicate.mp (List.mem_of_getElem? hlist)).2
  split_ifs with hnil
  · -- the first node
    have hnodes := List.isEmpty_iff.mp hnil
    have hpushed : (index.pushNode K id (HnswNode.new K vector level)).Tidy none := by
      refine htidy.pushNode ?_ fun layer list hlist ↦ ?_
      · intro list hlist
        obtain rfl := (List.mem_replicate.mp hlist).2
        exact ⟨List.nodup_nil, List.not_mem_nil⟩
      · rw [hempty layer list hlist]
        exact Nat.zero_le _
    refine ensures_some.mpr ⟨⟨hpushed.simple, hpushed.bounded⟩, ?_, fun hexact _ ↦ ?_⟩
    · show level =
        ((index.nodes ++ [HnswNode.new K vector level]).map HnswNode.maxLayer).foldl max 0
      rw [hnodes]
      exact (Nat.zero_max level).symm
    · have hnew : (index.pushNode K id (HnswNode.new K vector level)).Exact := by
        refine hexact.pushNode List.length_replicate fun layer list hlist j hj ↦ ?_
        rw [hempty layer list hlist] at hj
        cases hj
      exact ⟨hnew.layers, hnew.links⟩
  split
  · exact ensures_some.mpr ⟨htidy, htop, fun hexact _ ↦ hexact⟩
  next entryPoint hentry =>
    let P : ℕ → ℕ → Prop := fun l i ↦
      i < index.nodes.length ∧ (index.Exact ∧ index.EntryOnTop → index.Reaches l i)
    have hclosed : ∀ l, index.Closed l (P l) := by
      intro l i node hnode hi list hlist j hj
      refine ⟨h.wired.lt_of_link (List.mem_of_getElem? hnode) (List.mem_of_getElem? hlist) hj, ?_⟩
      rintro ⟨hexact, hentry⟩
      exact hexact.closed l i node hnode (hi.2 ⟨hexact, hentry⟩) list hlist j hj
    have hdown : ∀ l low i, low ≤ l → P l i → P low i :=
      fun l low i hle hi ↦ ⟨hi.1, fun hyp ↦ (hi.2 hyp).of_le hle⟩
    have hstart : P index.maxLevel entryPoint :=
      ⟨(h.entry entryPoint hentry).1, fun hyp ↦ hyp.2 entryPoint hentry⟩
    refine (ensures_descend hclosed hdown vector _ level hstart).bind fun nearest hnearest ↦ ?_
    refine (ensures_chooseNeighbors hclosed hdown vector _ level hnearest).bind
      fun layerNeighbors hfit ↦ ?_
    have hrange : ∀ chosen ∈ layerNeighbors, ∀ j ∈ chosen.2, j < index.nodes.length :=
      fun chosen hchosen j hj ↦ ((hfit chosen hchosen).2.1 j hj).1
    obtain ⟨hlength, hsimple, hplaced⟩ := placed_spec hfit hrange
    let newNode : HnswNode F := { HnswNode.new K vector level with
      neighbors := placeNeighbors (HnswNode.new K vector level).neighbors layerNeighbors }
    have hpushed : (index.pushNode K id newNode).Tidy none :=
      htidy.pushNode hsimple fun layer list hlist ↦ (hplaced layer list hlist).1
    refine (ensures_connectAll hpushed fun chosen hchosen j hj ↦
      (hrange chosen hchosen j hj).ne).bind ?_
    rintro connected ⟨hrewired, hconnected, hexact'⟩
    have hsame : connected.config = index.config ∧ connected.maxLevel = index.maxLevel := by
      rw [← hrewired.rest]
      exact ⟨rfl, rfl⟩
    have hraised : ((connected.raiseTo level index.nodes.length).nodes.map shape) =
        connected.nodes.map shape := congrArg (List.map shape) (raiseTo_nodes _ _)
    have htidy' := hconnected.congr hraised (raiseTo_config _ _)
    refine ensures_pure.mpr ⟨⟨htidy'.simple, htidy'.bounded⟩, ?_, fun hexact hontop ↦ ?_⟩
    · show (connected.raiseTo level index.nodes.length).maxLevel = _
      rw [raiseTo_maxLevel, hsame.2, htop]
      exact (@topLevel_pushNode F K index id newNode).symm.trans
        (hrewired.topLevel_eq.symm.trans (topLevel_congr hraised).symm)
    · have hbase : (index.pushNode K id newNode).Exact :=
        hexact.pushNode hlength fun layer list hlist j hj ↦
          ((hplaced layer list hlist).2 j hj).2 ⟨hexact, hontop⟩
      have hexact'' := (hexact' hbase fun chosen hchosen ↦ ⟨fun j hj ↦
        (((hfit chosen hchosen).2.1 j hj).2 ⟨hexact, hontop⟩).pushNode newNode,
        reaches_pushNode_self newNode (hfit chosen hchosen).1⟩).congr hraised
      exact ⟨hexact''.layers, hexact''.links⟩

/-! ## Updates, deletions and rebuilds -/

theorem ensures_updateVector (iid : ℕ) (vector : List F) :
    Ensures (index.updateVector K iid vector) fun updated ↦
      updated.nodes.map shape = index.nodes.map shape ∧ updated.config = index.config ∧
        updated.maxLevel = index.maxLevel := by
  rw [updateVector]
  refine (Ensures.self _).bind fun node hnode ↦ (Ensures.trivial _).bind fun quantized _ ↦
    ensures_pure.mpr ⟨?_, rfl, rfl⟩
  exact map_set_of_eq shape hnode rfl

theorem ensures_delete (id : NodeId) : Ensures (index.delete id) fun r ↦
    r.2.nodes = index.nodes ∧ r.2.config = index.config ∧ r.2.maxLevel = index.maxLevel := by
  rw [delete]
  split
  · exact ensures_some.mpr ⟨rfl, rfl, rfl⟩
  next iid hget =>
    dsimp only
    split_ifs
    · exact ensures_pure.mpr ⟨rfl, rfl, rfl⟩
    · refine Ensures.bind (P := fun repaired ↦ repaired.nodes = index.nodes ∧
        repaired.config = index.config ∧ repaired.maxLevel = index.maxLevel) ?_
        fun repaired hsame ↦ ensures_pure.mpr hsame
      rw [repairEntryPointAfterDelete]
      split_ifs
      · refine (Ensures.trivial _).bind fun node _ ↦ ?_
        split
        · exact ensures_pure.mpr ⟨rfl, rfl, rfl⟩
        · exact ensures_pure.mpr ⟨rfl, rfl, rfl⟩
      · exact ensures_some.mpr ⟨rfl, rfl, rfl⟩

theorem WellFormed.exists_remapNode (h : index.WellFormed K) :
    ∀ old ∈ index.survivors, ∃ node, index.remapNode old = some node :=
  fun _ hold ↦ ⟨_, (h.remapNode_survivor hold).choose_spec.2⟩

theorem WellFormed.ensures_rebuild (h : index.WellFormed K) :
    Ensures (index.rebuild K) fun r ↦ ∃ entryPoint,
      index.newEntryPoint (index.survivors.filterMap index.remapNode) = some entryPoint ∧
      r.2 = index.compacted K (index.survivors.filterMap index.externalId)
        (index.survivors.filterMap index.remapNode) entryPoint := by
  rw [rebuild, mapM_eq_filterMap fun old hold ↦ h.externalId_survivor hold,
    mapM_eq_filterMap h.exists_remapNode]
  refine (Ensures.trivial _).bind fun _ _ ↦ ?_
  rw [Option.bind_eq_bind, Option.bind_some, Option.bind_eq_bind, Option.bind_some]
  refine (Ensures.self _).bind fun entryPoint hentry r hr ↦ ?_
  obtain rfl := Option.some.inj hr
  exact ⟨entryPoint, hentry, rfl⟩

/-- A node of the rebuilt index is a survivor with its lists renumbered. -/
theorem WellFormed.of_rebuilt (h : index.WellFormed K) {i : ℕ} {node : HnswNode F}
    (hnode : (index.survivors.filterMap index.remapNode)[i]? = some node) :
    ∃ old before, old < index.nodes.length ∧ index.isTombstoned old = false ∧
      i = rank index.isLive old ∧ index.nodes[old]? = some before ∧
      node = index.remapped before := by
  rw [getElem?_filterMap_of_forall h.exists_remapNode] at hnode
  obtain ⟨old, hold, hremap⟩ := Option.bind_eq_some_iff.mp hnode
  have hmem := List.mem_of_getElem? hold
  obtain ⟨before, hbefore, heq⟩ := h.remapNode_survivor hmem
  obtain ⟨hlt, hlive⟩ := mem_survivors.mp hmem
  exact ⟨old, before, hlt, hlive, (eq_rank_of_getElem? hold).2.2, hbefore,
    Option.some.inj (hremap.symm.trans heq)⟩

/-- A survivor under its new number. -/
theorem WellFormed.rebuilt_at (h : index.WellFormed K) {old : ℕ} {before : HnswNode F}
    (hbefore : index.nodes[old]? = some before) (hlive : index.isTombstoned old = false) :
    (index.survivors.filterMap index.remapNode)[rank index.isLive old]? =
      some (index.remapped before) := by
  have hlt := (List.getElem?_eq_some_iff.mp hbefore).1
  rw [getElem?_filterMap_of_forall h.exists_remapNode, getElem?_survivors hlt hlive]
  exact h.wired.remapNode hbefore

theorem renumber_injective {a b new : ℕ} (ha : index.renumber a = some new)
    (hb : index.renumber b = some new) : a = b := by
  obtain ⟨hlive, hrank⟩ := renumber_eq_some.mp ha
  obtain ⟨hlive', hrank'⟩ := renumber_eq_some.mp hb
  have hget := getElem?_rank (by omega : a < max a b + 1) (isLive_eq_true.mpr hlive)
  have hget' := getElem?_rank (by omega : b < max a b + 1) (isLive_eq_true.mpr hlive')
  rw [hrank] at hget
  rw [hrank', hget] at hget'
  exact Option.some.inj hget'

/-- What is left of a list under the new numbers. -/
theorem mem_filterMap_renumber {list : List ℕ} {j : ℕ} :
    j ∈ list.filterMap index.renumber ↔
      ∃ old ∈ list, index.isTombstoned old = false ∧ rank index.isLive old = j := by
  simp only [List.mem_filterMap, renumber_eq_some]

theorem WellFormed.tidy_rebuilt (h : index.WellFormed K) (htidy : index.Tidy none)
    (ids : List NodeId) (entryPoint : Option ℕ) :
    (index.compacted K ids (index.survivors.filterMap index.remapNode) entryPoint).Tidy none := by
  constructor
  · intro i node hnode list hlist
    obtain ⟨old, before, -, hlive, rfl, hbefore, rfl⟩ := h.of_rebuilt hnode
    obtain ⟨list', hlist', rfl⟩ := List.mem_map.mp hlist
    obtain ⟨hnodup, hown⟩ := htidy.simple old before hbefore list' hlist'
    refine ⟨hnodup.filterMap fun a b new ↦ renumber_injective, fun hmem ↦ ?_⟩
    obtain ⟨j, hj, hjlive, hrank⟩ := mem_filterMap_renumber.mp hmem
    have hsame : j = old := renumber_injective (renumber_eq_some.mpr ⟨hjlive, hrank⟩)
      (renumber_eq_some.mpr ⟨hlive, rfl⟩)
    exact hown (hsame ▸ hj)
  · intro i node hnode layer list hlist hpending
    obtain ⟨old, before, -, -, -, hbefore, rfl⟩ := h.of_rebuilt hnode
    rw [remapped, List.getElem?_map] at hlist
    obtain ⟨list', hlist', rfl⟩ := Option.map_eq_some_iff.mp hlist
    refine (List.length_filterMap_le _ _).trans ?_
    exact htidy.bounded old before hbefore layer list' hlist' (Option.some_ne_none _).symm

theorem WellFormed.reaches_rebuilt (h : index.WellFormed K) (ids : List NodeId)
    (entryPoint : Option ℕ) {layer old : ℕ} (hreach : index.Reaches layer old)
    (hlive : index.isTombstoned old = false) :
    (index.compacted K ids (index.survivors.filterMap index.remapNode) entryPoint).Reaches layer
      (rank index.isLive old) := by
  obtain ⟨node, hnode, hlayer⟩ := hreach
  exact ⟨index.remapped node, h.rebuilt_at hnode hlive, hlayer⟩

theorem WellFormed.exact_rebuilt (h : index.WellFormed K) (hexact : index.Exact)
    (ids : List NodeId) (entryPoint : Option ℕ) :
    (index.compacted K ids (index.survivors.filterMap index.remapNode) entryPoint).Exact := by
  constructor
  · intro node hnode
    obtain ⟨i, hi⟩ := List.getElem?_of_mem hnode
    obtain ⟨old, before, -, -, -, hbefore, rfl⟩ := h.of_rebuilt hi
    rw [remapped, List.length_map]
    exact hexact.layers before (List.mem_of_getElem? hbefore)
  · intro node hnode layer list hlist j hj
    obtain ⟨i, hi⟩ := List.getElem?_of_mem hnode
    obtain ⟨old, before, -, -, -, hbefore, rfl⟩ := h.of_rebuilt hi
    rw [remapped, List.getElem?_map] at hlist
    obtain ⟨list', hlist', rfl⟩ := Option.map_eq_some_iff.mp hlist
    obtain ⟨k, hk, hlive, rfl⟩ := mem_filterMap_renumber.mp hj
    exact h.reaches_rebuilt ids entryPoint
      (hexact.links before (List.mem_of_getElem? hbefore) layer list' hlist' k hk) hlive

/-- A live entry point on top stays there. -/
theorem WellFormed.entryOnTop_rebuilt (h : index.WellFormed K) (htop : index.EntryOnTop)
    (ids : List NodeId) {entryPoint : Option ℕ}
    (hentry : index.newEntryPoint (index.survivors.filterMap index.remapNode) = some entryPoint) :
    (index.compacted K ids (index.survivors.filterMap index.remapNode) entryPoint).EntryOnTop := by
  intro ep hep
  obtain rfl : entryPoint = some ep := hep
  rcases hbefore : index.entryPoint with - | old
  · -- without an entry point nothing is left
    rw [newEntryPoint, hbefore] at hentry
    obtain ⟨hlt, -⟩ : ep < (index.survivors.filterMap index.remapNode).length ∧ True :=
      ⟨(topNode_spec _).2 ep (Option.some.inj hentry), trivial⟩
    obtain ⟨old, _, hold, hlive, -⟩ := h.of_rebuilt (List.getElem?_eq_getElem hlt)
    rw [h.exhausted hbefore old hold] at hlive
    cases hlive
  · obtain ⟨hlt, hlive⟩ := h.entry old hbefore
    rw [newEntryPoint, hbefore] at hentry
    dsimp only at hentry
    rw [if_neg (ne_true_of_eq_false hlive), getElem?_oldToNew hlt, Option.some.injEq,
      renumber_eq_some] at hentry
    obtain ⟨-, rfl⟩ := hentry
    have hreach := h.reaches_rebuilt ids (some (rank index.isLive old)) (htop old hbefore) hlive
    refine hreach.of_le (foldl_max_le.mpr ⟨Nat.zero_le _, fun level hlevel ↦ ?_⟩)
    obtain ⟨node, hnode, rfl⟩ := List.mem_map.mp hlevel
    obtain ⟨i, hi⟩ := List.getElem?_of_mem hnode
    obtain ⟨_, before, -, -, -, hbefore', rfl⟩ := h.of_rebuilt hi
    exact (h.wired before (List.mem_of_getElem? hbefore')).top

/-! ## Calls -/

/-- The insertion of an id without a node. -/
theorem ensures_insertFresh (h : index.WellFormed K) (htidy : index.Tidy none)
    (htop : index.maxLevel = index.topLevel) (id : NodeId) (vector : List F) (draw : ℕ) :
    Ensures (index.insertFresh K id vector draw) fun r ↦ Layered index r.2 := by
  rw [insertFresh]
  split
  · exact ensures_some.mpr ⟨htidy, htop, fun hexact _ ↦ hexact⟩
  · exact ensures_insertNode h htidy htop draw

theorem ensures_insert (h : index.WellFormed K) (htidy : index.Tidy none)
    (htop : index.maxLevel = index.topLevel) (id : NodeId) (vector : List F) (draw : ℕ) :
    Ensures (index.insert K id vector draw) fun r ↦ Layered index r.2 := by
  have hsame : Layered index index := ⟨htidy, htop, fun hexact _ ↦ hexact⟩
  rw [HnswIndex.insert]
  split_ifs
  · exact ensures_some.mpr hsame
  split
  · exact ensures_some.mpr hsame
  split
  · exact ensures_insertFresh h htidy htop id vector draw
  next iid hget =>
    split_ifs
    · -- the rebuilt index is the one the node is new to
      obtain ⟨⟨stats, rebuilt⟩, hrebuild, hwell, -⟩ := h.returns_rebuild
      obtain ⟨entryPoint, hentry, hcompacted⟩ := h.ensures_rebuild _ hrebuild
      obtain rfl : rebuilt = _ := hcompacted
      rw [hrebuild]
      have htidy' := h.tidy_rebuilt htidy (index.survivors.filterMap index.externalId) entryPoint
      refine (ensures_insertFresh hwell htidy' rfl id vector draw).mono fun r hr ↦
        ⟨hr.tidy, hr.top, fun hexact hontop ↦ ?_⟩
      exact hr.layers (h.exact_rebuilt hexact _ _) (h.entryOnTop_rebuilt hontop _ hentry)
    · refine (ensures_updateVector iid vector).bind ?_
      rintro updated ⟨hshape, hconfig, hlevel⟩
      refine ensures_pure.mpr ⟨htidy.congr hshape hconfig, ?_, fun hexact _ ↦ hexact.congr hshape⟩
      exact hlevel.trans (htop.trans (topLevel_congr hshape).symm)

end HnswIndex

open HnswIndex

variable {index : HnswIndex F}

/-- Whether the call is an insertion. -/
def Call.Inserts : Call F → Prop
  | .insert _ _ _ => True
  | _ => False

theorem ensures_perform (h : index.WellFormed K) (htidy : index.Tidy none)
    (htop : index.maxLevel = index.topLevel) (call : Call F) :
    Ensures (call.perform K index) fun r ↦ r.2.Tidy none ∧ r.2.maxLevel = r.2.topLevel ∧
      (index.Exact → (call.Inserts → index.EntryOnTop) → r.2.Exact) := by
  cases call with
  | insert id vector draw =>
    refine ensures_map.mpr ((ensures_insert h htidy htop id vector draw).mono fun r hr ↦ ?_)
    exact ⟨hr.tidy, hr.top, fun hexact hontop ↦ hr.layers hexact (hontop trivial)⟩
  | delete id =>
    refine ensures_map.mpr ((ensures_delete id).mono ?_)
    rintro r ⟨hnodes, hconfig, hlevel⟩
    have hshape := congrArg (List.map shape) hnodes
    exact ⟨htidy.congr hshape hconfig, hlevel.trans (htop.trans (topLevel_congr hshape).symm),
      fun hexact _ ↦ hexact.congr hshape⟩
  | rebuild =>
    refine ensures_map.mpr (h.ensures_rebuild.mono ?_)
    rintro ⟨stats, rebuilt⟩ ⟨entryPoint, hentry, rfl⟩
    exact ⟨h.tidy_rebuilt htidy _ _, rfl, fun hexact _ ↦ h.exact_rebuilt hexact _ _⟩
  | clear =>
    refine ensures_some.mpr
      ⟨⟨(fun _ _ hnode ↦ nomatch hnode), (fun _ _ hnode ↦ nomatch hnode)⟩, rfl,
      fun _ _ ↦ ⟨(fun _ hnode ↦ nomatch hnode), (fun _ hnode ↦ nomatch hnode)⟩⟩

/-! ## Runs -/

/-- The index after a run of calls. -/
def performAll (K : Kernels F) (index : HnswIndex F) (calls : List (Call F)) :
    Option (HnswIndex F) :=
  calls.foldlM (fun index call ↦ (call.perform K index).map Prod.snd) index

/-- Every insertion of the run finds an entry point of the highest level. -/
def EntersOnTop (K : Kernels F) : HnswIndex F → List (Call F) → Prop
  | _, [] => True
  | index, call :: calls => (call.Inserts → index.EntryOnTop) ∧
      ∀ answer index', call.perform K index = some (answer, index') → EntersOnTop K index' calls

theorem returns_performAll (h : index.WellFormed K) (htidy : index.Tidy none)
    (htop : index.maxLevel = index.topLevel) (calls : List (Call F)) :
    Returns (performAll K index calls) fun index' ↦ index'.WellFormed K ∧
      index'.config = index.config ∧ index'.Tidy none ∧ index'.maxLevel = index'.topLevel ∧
      (index.Exact → EntersOnTop K index calls → index'.Exact) := by
  induction calls generalizing index with
  | nil => exact returns_pure.mpr ⟨h, rfl, htidy, htop, fun hexact _ ↦ hexact⟩
  | cons call calls ih =>
    obtain ⟨⟨answer, next⟩, hperform, ⟨hwell, hconfig, -⟩, hnext⟩ :=
      (h.returns_perform call).and_ensures (ensures_perform h htidy htop call)
    obtain ⟨htidy', htop', hexact'⟩ := hnext
    rw [performAll, List.foldlM_cons, hperform]
    refine (ih hwell htidy' htop').mono ?_
    rintro last ⟨hlast, hsame, htidyLast, htopLast, hexactLast⟩
    refine ⟨hlast, hsame.trans hconfig, htidyLast, htopLast, ?_⟩
    rintro hexact ⟨hontop, hrest⟩
    exact hexactLast (hexact' hexact hontop) (hrest answer next hperform)

/-- **The layers stay well formed** over any run of calls: neighbours are nodes, no list names a
node twice or its owner, the lists are short enough, and the highest level is known. Of two linked
nodes one reaches the layer of the link; where every insertion starts on top both do, and a node has
lists in exactly its layers. -/
theorem layers_wellFormed (K : Kernels F) (config : HnswConfig) (useQuantized : Bool)
    (calls : List (Call F)) :
    Returns (performAll K (.new config useQuantized) calls) fun index : HnswIndex F ↦
      (∀ (i : ℕ) (node : HnswNode F), index.nodes[i]? = some node →
        node.maxLayer < node.neighbors.length ∧
        ∀ (layer : ℕ) (list : List ℕ), node.neighbors[layer]? = some list →
          list.Nodup ∧ i ∉ list ∧ list.length ≤ (if layer = 0 then config.mMax0 else config.m) ∧
          ∀ j ∈ list, ∃ other : HnswNode F, index.nodes[j]? = some other ∧
            (layer ≤ node.maxLayer ∨ layer ≤ other.maxLayer)) ∧
      index.maxLevel = (index.nodes.map HnswNode.maxLayer).foldl max 0 ∧
      (EntersOnTop K (.new config useQuantized) calls →
        ∀ (i : ℕ) (node : HnswNode F), index.nodes[i]? = some node →
          node.neighbors.length = node.maxLayer + 1 ∧
          ∀ (layer : ℕ) (list : List ℕ), node.neighbors[layer]? = some list →
            layer ≤ node.maxLayer ∧
            ∀ j ∈ list, ∃ other : HnswNode F, index.nodes[j]? = some other ∧
              layer ≤ other.maxLayer) := by
  have htidy : (HnswIndex.new config useQuantized : HnswIndex F).Tidy none :=
    ⟨(fun _ _ hnode ↦ nomatch hnode), (fun _ _ hnode ↦ nomatch hnode)⟩
  refine (returns_performAll (wellFormed_new config useQuantized) htidy rfl calls).mono ?_
  rintro index ⟨hwell, hconfig, htidy, htop, hexact⟩
  refine ⟨fun i node hnode ↦ ?_, htop, fun honTop i node hnode ↦ ?_⟩
  · have hfits := hwell.wired node (List.mem_of_getElem? hnode)
    refine ⟨hfits.layers, fun layer list hlist ↦ ?_⟩
    obtain ⟨hnodup, hown⟩ := htidy.simple i node hnode list (List.mem_of_getElem? hlist)
    have hbound := htidy.bounded i node hnode layer list hlist (Option.some_ne_none _).symm
    rw [maxNeighbors, hconfig] at hbound
    refine ⟨hnodup, hown, hbound, fun j hj ↦ ?_⟩
    obtain ⟨level, hlevel, hreach⟩ := hfits.links layer list hlist j hj
    rw [List.getElem?_map] at hlevel
    obtain ⟨other, hother, rfl⟩ := Option.map_eq_some_iff.mp hlevel
    exact ⟨other, hother, hreach⟩
  · have hstart : (HnswIndex.new config useQuantized : HnswIndex F).Exact :=
      ⟨(fun _ hnode ↦ nomatch hnode), (fun _ hnode ↦ nomatch hnode)⟩
    have hend := hexact hstart honTop
    have hmem := List.mem_of_getElem? hnode
    have hlength := hend.layers node hmem
    refine ⟨hlength, fun layer list hlist ↦ ⟨?_, hend.links node hmem layer list hlist⟩⟩
    have hlt := (List.getElem?_eq_some_iff.mp hlist).1
    omega

/-! ## An entry point below the top -/

/-- Sorting, which evaluates on lists of two elements at most. -/
def sortShort {α : Type} (le : α → α → Bool) : List α → List α
  | [] => []
  | [a] => [a]
  | [a, b] => if le a b then [a, b] else [b, a]
  | l => l.mergeSort le

theorem mergeSort_eq_sortShort {α : Type} (le : α → α → Bool) (l : List α) :
    l.mergeSort le = sortShort le l := by
  rcases l with - | ⟨a, - | ⟨b, - | ⟨c, l⟩⟩⟩
  · exact List.mergeSort_nil
  · exact List.mergeSort_singleton a
  · rw [List.mergeSort, sortShort]
    simp [List.MergeSort.Internal.splitInTwo, List.merge]
  · rfl

/-- Two nodes, of which the upper one is deleted, and a third one of the upper layer. -/
def lowered : List (Call ℤ) :=
  [.insert 1 [1] 1, .insert 2 [2] 0, .delete 1, .insert 3 [3] 1]

theorem layers_lowered :
    ((performAll wholeKernels (.new lineConfig false) lowered).map fun index ↦
      index.nodes.map fun node ↦ (node.maxLayer, node.neighbors)) =
        some [(1, [[1, 2], []]), (0, [[0, 2], [2]]), (1, [[1, 0], [1]])] := by
  simp only [performAll, Call.perform, HnswIndex.insert, insertFresh, insertNode, descend,
    chooseNeighbors, connectBack, shrinkConnections]
  delta chooseLayer
  simp only [searchLayer, searchLayerInner, selectNeighbors, sortByDistance, mergeSort_eq_sortShort]
  decide +kernel

/-- The lower node has a list in the layer above its level, and a link to the third node in it. -/
theorem layers_wellFormed_lowered :
    ∃ index, performAll wholeKernels (.new lineConfig false) lowered = some index ∧
      ∃ node, index.nodes[1]? = some node ∧ node.maxLayer = 0 ∧
        node.neighbors.length = 2 ∧ node.neighbors[1]? = some [2] := by
  obtain ⟨index, hrun, hnodes⟩ := Option.map_eq_some_iff.mp layers_lowered
  have hget := congrArg (·[1]?) hnodes
  rw [List.getElem?_map] at hget
  obtain ⟨node, hnode, heq⟩ := Option.map_eq_some_iff.mp hget
  obtain ⟨hlevel, hlists⟩ := Prod.mk.inj heq
  exact ⟨index, hrun, node, hnode, hlevel, by rw [hlists]; rfl, by rw [hlists]; rfl⟩

/-! ## A run that starts on top -/

instance (index : HnswIndex F) (layer iid : ℕ) : Decidable (index.Reaches layer iid) :=
  decidable_of_iff (index.nodes[iid]?.any (layer ≤ ·.maxLayer) = true) <| by
    simp [Reaches, Option.any_eq_true]

instance (index : HnswIndex F) : Decidable index.EntryOnTop :=
  inferInstanceAs (Decidable (∀ ep ∈ index.entryPoint, index.Reaches index.maxLevel ep))

instance : ∀ call : Call F, Decidable call.Inserts
  | .insert _ _ _ => inferInstanceAs (Decidable True)
  | .delete _ | .rebuild | .clear => inferInstanceAs (Decidable False)

/-- The index after a call that, if it inserts, starts on top. -/
def performOnTop (K : Kernels F) (index : HnswIndex F) (call : Call F) : Option (HnswIndex F) :=
  if call.Inserts → index.EntryOnTop then (call.perform K index).map Prod.snd else none

theorem entersOnTop_of_foldlM {calls : List (Call F)}
    (h : (calls.foldlM (performOnTop K) index).isSome = true) : EntersOnTop K index calls := by
  induction calls generalizing index with
  | nil => trivial
  | cons call calls ih =>
    rw [List.foldlM_cons, performOnTop] at h
    split_ifs at h with hontop
    · refine ⟨hontop, fun answer index' hperform ↦ ih ?_⟩
      rw [hperform] at h
      exact h
    · cases h

/-- The entry point moves up to the second node, the first one is deleted, and the third one is of
the upper layer. -/
def raised : List (Call ℤ) :=
  [.insert 1 [1] 0, .insert 2 [2] 1, .delete 1, .insert 3 [3] 1]

theorem entersOnTop_raised : EntersOnTop wholeKernels (.new lineConfig false) raised := by
  refine entersOnTop_of_foldlM ?_
  delta performOnTop
  simp only [Call.perform, HnswIndex.insert, insertFresh, insertNode, descend,
    chooseNeighbors, connectBack, shrinkConnections]
  delta chooseLayer
  simp only [searchLayer, searchLayerInner, selectNeighbors, sortByDistance, mergeSort_eq_sortShort]
  decide +kernel

theorem layers_wellFormed_raised :
    Returns (performAll wholeKernels (.new lineConfig false) raised) fun index ↦
      ∀ (i : ℕ) (node : HnswNode ℤ), index.nodes[i]? = some node →
        node.neighbors.length = node.maxLayer + 1 :=
  (layers_wellFormed wholeKernels lineConfig false raised).mono
    fun _ h i node hnode ↦ (h.2.2 entersOnTop_raised i node hnode).1

end Khive.Hnsw
