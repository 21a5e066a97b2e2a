import Khive.Foundation.Numbering
import Khive.Hnsw.Graph

/-!
# The invariant of the index

What holds of an index between any two calls, and what each call makes of it. To the callers the
index is a map: `liveVector` gives the vector of an id whose node is live. Inserting and deleting
change it at one id, and a rebuild, which numbers all nodes anew, leaves it as it is.
-/

namespace Khive.Hnsw

variable {F : Type} {K : Kernels F}

namespace HnswIndex

structure WellFormed (K : Kernels F) (index : HnswIndex F) : Prop where
  wired : index.Wired K index.maxLevel
  ids : index.internalToId.length = index.nodes.length
  numbers : Numbers index.idToInternal index.internalToId
  tombstones : index.tombstones.length ≤ index.nodes.length
  count : index.tombstoneCount = index.tombstones.count true
  entries : index.quantized.entries.length = index.nodes.length
  data : index.quantized.data.length =
    index.quantized.entries.length * index.quantized.dims
  dims : index.quantized.dims = index.config.dimensions
  entry : ∀ ep, index.entryPoint = some ep →
    ep < index.nodes.length ∧ index.isTombstoned ep = false
  exhausted : index.entryPoint = none →
    ∀ iid < index.nodes.length, index.isTombstoned iid = true
  level : index.maxLevel ≤ levelLimit

/-- The vector of an id whose node is live. -/
def liveVector (index : HnswIndex F) (id : NodeId) : Option (List F) := do
  let iid ← index.idToInternal.get id
  if index.isTombstoned iid then none else (index.nodes[iid]?).map HnswNode.vector

variable {index index' : HnswIndex F} {id : NodeId} {vector : List F} {iid : ℕ}

theorem liveVector_eq_some (h : Numbers index.idToInternal index.internalToId) :
    index.liveVector id = some vector ↔ ∃ iid, index.internalToId[iid]? = some id ∧
      index.isTombstoned iid = false ∧ (index.nodes.map HnswNode.vector)[iid]? = some vector := by
  rw [liveVector, Option.bind_eq_bind, Option.bind_eq_some_iff]
  refine exists_congr fun iid ↦ and_congr (h id iid) ?_
  rw [List.getElem?_map]
  cases index.isTombstoned iid with
  | true => exact iff_of_false nofun fun hfalse ↦ nomatch hfalse.1
  | false => exact (and_iff_right rfl).symm

theorem liveVector_of_get (hget : index.idToInternal.get id = some iid) :
    index.liveVector id =
      if index.isTombstoned iid then none else (index.nodes.map HnswNode.vector)[iid]? := by
  rw [liveVector, hget, List.getElem?_map]
  rfl

theorem liveVector_of_get_none (hget : index.idToInternal.get id = none) :
    index.liveVector id = none := by
  rw [liveVector, hget]
  rfl

theorem isTombstoned_of_le (h : index.tombstones.length ≤ iid) : index.isTombstoned iid = false := by
  rw [isTombstoned, List.getD_eq_getElem?_getD, List.getElem?_eq_none h]
  rfl

namespace WellFormed

theorem readable (h : index.WellFormed K) : index.Readable :=
  ⟨h.ids, fun _ hnode _ hlist _ hj ↦ h.wired.lt_of_link hnode hlist hj, h.entries, h.data⟩

theorem lt_of_get (h : index.WellFormed K) (hget : index.idToInternal.get id = some iid) :
    iid < index.nodes.length :=
  h.ids ▸ (List.getElem?_eq_some_iff.mp ((h.numbers id iid).mp hget)).1

end WellFormed

theorem wellFormed_new (config : HnswConfig) (useQuantized : Bool) :
    (HnswIndex.new config useQuantized : HnswIndex F).WellFormed K where
  wired := nofun
  ids := rfl
  numbers := numbers_empty
  tombstones := le_rfl
  count := rfl
  entries := rfl
  data := (Nat.zero_mul _).symm
  dims := rfl
  entry := nofun
  exhausted := nofun
  level := Nat.zero_le _

/-! ## Inserting -/

/-- What the index is after the vector has been added as a new node. -/
structure Added (index : HnswIndex F) (id : NodeId) (vector : List F) (index' : HnswIndex F) :
    Prop where
  config : index'.config = index.config
  idToInternal : index'.idToInternal = index.idToInternal.insert id index.nodes.length
  internalToId : index'.internalToId = index.internalToId ++ [id]
  vectors : index'.nodes.map HnswNode.vector = index.nodes.map HnswNode.vector ++ [vector]
  tombstones : index'.tombstones = index.tombstones

theorem Added.isTombstoned (h : Added index id vector index') (iid : ℕ) :
    index'.isTombstoned iid = index.isTombstoned iid := by
  rw [HnswIndex.isTombstoned, HnswIndex.isTombstoned, h.tombstones]

theorem Added.liveVector (h : Added index id vector index') (hindex : index.WellFormed K) :
    index'.liveVector = Function.update index.liveVector id (some vector) := by
  funext id'
  have hlength : (index.nodes.map HnswNode.vector).length = index.nodes.length := by
    rw [List.length_map]
  by_cases heq : id' = id
  · subst heq
    have hget : index'.idToInternal.get id' = some index.nodes.length := by
      rw [h.idToInternal, OrderedMap.get_insert, if_pos rfl]
    rw [Function.update_self, liveVector_of_get hget, h.isTombstoned,
      isTombstoned_of_le hindex.tombstones, h.vectors, ← hlength]
    exact List.getElem?_concat_length
  · have hsame : index'.idToInternal.get id' = index.idToInternal.get id' := by
      rw [h.idToInternal, OrderedMap.get_insert, if_neg heq]
    rw [Function.update_of_ne heq]
    cases hget : index.idToInternal.get id' with
    | none => rw [liveVector_of_get_none hget, liveVector_of_get_none (hsame.trans hget)]
    | some iid =>
      have hlt := hlength.symm ▸ hindex.lt_of_get hget
      rw [liveVector_of_get hget, liveVector_of_get (hsame.trans hget), h.isTombstoned, h.vectors,
        List.getElem?_append_left hlt]

theorem length_push {arena : QuantizedArena F} (hdata : arena.data.length =
    arena.entries.length * arena.dims) {vector : List F} (hvector : vector.length = arena.dims)
    (norm : F) :
    (arena.push K vector norm).data.length =
      (arena.push K vector norm).entries.length * (arena.push K vector norm).dims := by
  rw [QuantizedArena.push, List.length_append, List.length_append, hdata, Kernels.quantize,
    List.length_map, hvector, List.length_singleton, Nat.add_mul, Nat.one_mul]

/-- The index with a new node, before its neighbours know of it. -/
theorem WellFormed.pushNode (h : index.WellFormed K) (hid : index.idToInternal.get id = none)
    {node : HnswNode F} (hdims : node.vector.length = index.config.dimensions) {top : ℕ}
    (hwired : (index.pushNode K id node).Wired K top) (htop : top ≤ levelLimit) {entryPoint : ℕ}
    (hentry : entryPoint < index.nodes.length + 1)
    (hlive : index.isTombstoned entryPoint = false) (additions : ℕ) :
    ({ index.pushNode K id node with
        entryPoint := some entryPoint
        maxLevel := top
        additionsSinceRebuild := additions } : HnswIndex F).WellFormed K where
  wired := hwired
  ids := by
    show (index.internalToId ++ [id]).length = (index.nodes ++ [node]).length
    rw [List.length_append, List.length_append, h.ids]
    rfl
  numbers := by
    show Numbers (index.idToInternal.insert id index.nodes.length) (index.internalToId ++ [id])
    rw [← h.ids]
    exact h.numbers.push hid
  tombstones := h.tombstones.trans (by
    show index.nodes.length ≤ (index.nodes ++ [node]).length
    rw [List.length_append]
    exact Nat.le_add_right _ _)
  count := h.count
  entries := by
    show (index.quantized.entries ++ [_]).length = (index.nodes ++ [node]).length
    rw [List.length_append, List.length_append, h.entries]
    rfl
  data := length_push h.data (hdims.trans h.dims.symm) node.norm
  dims := h.dims
  entry := by
    rintro ep hep
    obtain rfl := Option.some.inj hep
    refine ⟨?_, hlive⟩
    show _ < (index.nodes ++ [node]).length
    rwa [List.length_append]
  exhausted := nofun
  level := htop

theorem added_pushNode (node : HnswNode F) (entryPoint top additions : ℕ) :
    Added index id node.vector { index.pushNode K id node with
      entryPoint := some entryPoint
      maxLevel := top
      additionsSinceRebuild := additions } :=
  ⟨rfl, rfl, rfl, List.map_append, rfl⟩

/-- Lists of neighbours do not matter to the rest. -/
theorem WellFormed.rewire (h : index.WellFormed K) (hrewired : index.Rewired index')
    (hwired : index'.Wired K index.maxLevel) : index'.WellFormed K := by
  have hlength := hrewired.length_eq
  rw [← hrewired.rest] at hwired ⊢
  exact
    { wired := hwired
      ids := h.ids.trans hlength.symm
      numbers := h.numbers
      tombstones := h.tombstones.trans_eq hlength.symm
      count := h.count
      entries := h.entries.trans hlength.symm
      data := h.data
      dims := h.dims
      entry := fun ep hep ↦ ⟨(h.entry ep hep).1.trans_eq hlength.symm, (h.entry ep hep).2⟩
      exhausted := fun hnone iid hiid ↦ h.exhausted hnone iid (hiid.trans_eq hlength)
      level := h.level }

theorem Added.rewire {between : HnswIndex F} (h : Added index id vector between)
    (hrewired : between.Rewired index') : Added index id vector index' := by
  have hvectors := hrewired.vectors.trans h.vectors
  rw [← hrewired.rest] at hvectors ⊢
  exact ⟨h.config, h.idToInternal, h.internalToId, hvectors, h.tombstones⟩

theorem fits_new (hdims : vector.length = index.config.dimensions)
    (hfinite : ∀ v ∈ vector, K.isFinite v = true) (level : ℕ) :
    (HnswNode.new K vector level).Fits K index.config.dimensions (max index.maxLevel level)
      (index.nodes.map HnswNode.maxLayer) where
  dims := hdims
  finite := hfinite
  layers := by
    rw [HnswNode.new, List.length_replicate]
    exact Nat.lt_succ_self level
  top := le_max_right _ _
  links := linksReach_replicate _ _ _

/-- There are nodes, and all of them are under tombstones. -/
def Exhausted (index : HnswIndex F) : Prop :=
  index.nodes ≠ [] ∧ ∀ iid < index.nodes.length, index.isTombstoned iid = true

theorem WellFormed.entryPoint_eq_none (h : index.WellFormed K) (hne : index.nodes ≠ []) :
    index.entryPoint = none ↔ index.Exhausted := by
  constructor
  · intro hnone
    exact ⟨hne, h.exhausted hnone⟩
  · rintro ⟨-, hdead⟩
    cases hentry : index.entryPoint with
    | none => rfl
    | some ep =>
      obtain ⟨hlt, hlive⟩ := h.entry ep hentry
      rw [hdead ep hlt] at hlive
      cases hlive

def noEntryPoint : RetrievalError :=
  .hnsw "HNSW invariant violated: no entry point despite non-empty index"

/-- Once all nodes are under tombstones there is no inserting a new node. -/
theorem WellFormed.insertNode_of_exhausted (h : index.WellFormed K) (hexhausted : index.Exhausted)
    (draw : ℕ) : index.insertNode K id vector draw = some (.error noEntryPoint, index) := by
  have hnone := (h.entryPoint_eq_none hexhausted.1).mpr hexhausted
  have hne : index.nodes.isEmpty = false := by
    rw [List.isEmpty_eq_false_iff]
    exact hexhausted.1
  rw [insertNode, hne, hnone]
  rfl

theorem raiseTo_eq {entryPoint : ℕ} (hentry : index.entryPoint = some entryPoint)
    (level internalId : ℕ) :
    index.raiseTo level internalId =
      { index with
        entryPoint := some (if index.maxLevel < level then internalId else entryPoint)
        maxLevel := max index.maxLevel level } := by
  rw [raiseTo]
  split_ifs with hlt
  · rw [max_eq_right hlt.le]
  · rw [max_eq_left (not_lt.mp hlt), ← hentry]

/-- A node that fits is added and connected back to the neighbours chosen for it. -/
theorem WellFormed.returns_connectNew (h : index.WellFormed K)
    (hid : index.idToInternal.get id = none) {node : HnswNode F}
    (hnode : node.Fits K index.config.dimensions (max index.maxLevel node.maxLayer)
      (index.nodes.map HnswNode.maxLayer))
    (hlevel : node.maxLayer ≤ levelLimit) {layerNeighbors : List (ℕ × List ℕ)}
    (hchosen : Chosen index.nodes.length node.maxLayer layerNeighbors) {entryPoint : ℕ}
    (hentry : index.entryPoint = some entryPoint) (additions : ℕ) :
    Returns (layerNeighbors.foldlM
      (fun between chosen ↦ between.connectBack K index.nodes.length chosen)
      (index.pushNode K id node)) fun connected ↦
        ({ connected.raiseTo node.maxLayer index.nodes.length with
            additionsSinceRebuild := additions } : HnswIndex F).WellFormed K ∧
        Added index id node.vector { connected.raiseTo node.maxLayer index.nodes.length with
            additionsSinceRebuild := additions } := by
  obtain ⟨hlt, hentryLive⟩ := h.entry entryPoint hentry
  have hids : (index.pushNode K id node).internalToId.length =
      (index.pushNode K id node).nodes.length := by
    rw [HnswIndex.pushNode, List.length_append, List.length_append, h.ids]
    rfl
  have hinternal : ((index.pushNode K id node).nodes.map HnswNode.maxLayer)[index.nodes.length]? =
      some node.maxLayer := by
    rw [HnswIndex.pushNode, List.map_append, ← List.length_map (f := HnswNode.maxLayer)]
    exact List.getElem?_concat_length
  have hmore : Chosen (index.pushNode K id node).nodes.length node.maxLayer layerNeighbors := by
    intro chosen hmem
    obtain ⟨hlayer, hin⟩ := hchosen chosen hmem
    refine ⟨hlayer, fun j hj ↦ (hin j hj).trans_le ?_⟩
    rw [HnswIndex.pushNode, List.length_append]
    exact Nat.le_add_right _ _
  refine ((h.wired.pushNode id hnode).returns_connectAll hids hinternal hmore).mono ?_
  rintro connected ⟨hrewired, hwired⟩
  have hsame : connected.entryPoint = some entryPoint ∧ connected.maxLevel = index.maxLevel := by
    rw [← hrewired.rest]
    exact ⟨hentry, rfl⟩
  rw [raiseTo_eq hsame.1, hsame.2]
  generalize hep : (if index.maxLevel < node.maxLayer then index.nodes.length else entryPoint) = ep
  have hepLive : ep < index.nodes.length + 1 ∧ index.isTombstoned ep = false := by
    rw [← hep]
    split_ifs
    · exact ⟨Nat.lt_succ_self _, isTombstoned_of_le h.tombstones⟩
    · exact ⟨hlt.trans (Nat.lt_succ_self _), hentryLive⟩
  have hbase := h.pushNode hid hnode.dims (h.wired.pushNode id hnode) (max_le h.level hlevel)
    hepLive.1 hepLive.2 additions
  have hadded : Added index id node.vector _ :=
    added_pushNode (K := K) node ep (max index.maxLevel node.maxLayer) additions
  -- the connected index is the one with the new node, up to lists of neighbours
  have hfinal : HnswIndex.Rewired { index.pushNode K id node with
        entryPoint := some ep
        maxLevel := max index.maxLevel node.maxLayer
        additionsSinceRebuild := additions }
      { connected with
        entryPoint := some ep
        maxLevel := max index.maxLevel node.maxLayer
        additionsSinceRebuild := additions } := by
    refine ⟨?_, hrewired.vectors, hrewired.levels⟩
    rw [← hrewired.rest]
  exact ⟨hbase.rewire hfinal hwired, hadded.rewire hfinal⟩

/-- **A new node**: it is added, and connected to nodes in the layers it reaches. -/
theorem WellFormed.returns_insertNode (h : index.WellFormed K)
    (hid : index.idToInternal.get id = none) (hdims : vector.length = index.config.dimensions)
    (hfinite : ∀ v ∈ vector, K.isFinite v = true) (hlive : ¬ index.Exhausted) (draw : ℕ) :
    Returns (index.insertNode K id vector draw) fun r ↦
      r.1 = .ok () ∧ r.2.WellFormed K ∧ Added index id vector r.2 := by
  have hlevel : min draw levelLimit ≤ levelLimit := min_le_right _ _
  rw [insertNode]
  dsimp only
  generalize min draw levelLimit = level at hlevel ⊢
  have hnew : (HnswNode.new K vector level).Fits K index.config.dimensions
      (max index.maxLevel level) (index.nodes.map HnswNode.maxLayer) :=
    fits_new hdims hfinite level
  split_ifs with hempty
  · -- the first node
    have hnil := List.isEmpty_iff.mp hempty
    have hfits : (HnswNode.new K vector level).Fits K index.config.dimensions level
        [(HnswNode.new K vector level).maxLayer] :=
      ⟨hdims, hfinite, hnew.layers, le_rfl, linksReach_replicate _ _ _⟩
    have hwired : (index.pushNode K id (HnswNode.new K vector level)).Wired K level := by
      intro node hnode
      rw [HnswIndex.pushNode, hnil] at hnode ⊢
      obtain rfl := List.mem_singleton.mp hnode
      exact hfits
    refine returns_some.mpr ⟨rfl, ?_, added_pushNode (HnswNode.new K vector level) _ _ _⟩
    exact h.pushNode hid hdims hwired hlevel (Nat.lt_succ_self _)
      (isTombstoned_of_le h.tombstones) _
  · have hne : index.nodes ≠ [] := fun hnil ↦ hempty (List.isEmpty_iff.mpr hnil)
    split
    next hnone => exact absurd ((h.entryPoint_eq_none hne).mp hnone) hlive
    next entryPoint hentry =>
      obtain ⟨hlt, -⟩ := h.entry entryPoint hentry
      refine (h.readable.returns_descend vector _ level hlt).bind fun nearest hnearest ↦ ?_
      refine (h.readable.returns_chooseNeighbors vector _ level hnearest).bind
        fun layerNeighbors hchosen ↦ ?_
      obtain ⟨hreach, hlength⟩ := placeNeighbors_reach hnew.links
        (by rwa [List.length_map] : Chosen (index.nodes.map HnswNode.maxLayer).length level _)
      have hplaced := { hnew with
        links := hreach, layers := hnew.layers.trans_le hlength : HnswNode.Fits K _ _ _
          { HnswNode.new K vector level with
            neighbors := placeNeighbors (HnswNode.new K vector level).neighbors layerNeighbors } }
      refine (h.returns_connectNew hid hplaced hlevel hchosen hentry
        (index.additionsSinceRebuild + 1)).bind ?_
      rintro connected ⟨hwell, hadded⟩
      exact returns_pure.mpr ⟨rfl, hwell, hadded⟩

end HnswIndex

end Khive.Hnsw
