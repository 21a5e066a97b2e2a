import Khive.Hnsw.Removal

/-!
# Rebuilding

A rebuild takes the nodes under tombstones out. The others move together, so that the new number of
a node is its rank among the live ones, and the lists of neighbours are rewritten to these numbers.
To the callers nothing changes.
-/

namespace Khive.Hnsw

variable {F : Type} {K : Kernels F}

namespace HnswIndex

variable {index index' : HnswIndex F} {id : NodeId} {iid : ℕ}

/-! ## New numbers -/

/-- Whether the node is kept. -/
def isLive (index : HnswIndex F) (iid : ℕ) : Bool := !index.isTombstoned iid

def renumber (index : HnswIndex F) (iid : ℕ) : Option ℕ :=
  if index.isTombstoned iid then none else some (rank index.isLive iid)

theorem isLive_eq_true : index.isLive iid = true ↔ index.isTombstoned iid = false := by
  rw [isLive, Bool.not_eq_true']

theorem renumber_eq_some {new : ℕ} : index.renumber iid = some new ↔
    index.isTombstoned iid = false ∧ rank index.isLive iid = new := by
  rw [renumber]
  cases index.isTombstoned iid with
  | true => exact iff_of_false nofun fun h ↦ nomatch h.1
  | false => exact ⟨fun h ↦ ⟨rfl, Option.some.inj h⟩, fun h ↦ congrArg some h.2⟩

/-- The counter of the loop is the rank. -/
theorem numberFrom_range' (start len : ℕ) :
    index.numberFrom (rank index.isLive start) (List.range' start len) =
      (List.range' start len).map index.renumber := by
  induction len generalizing start with
  | zero => rfl
  | succ len ih =>
    have hnext : rank index.isLive (start + 1) =
        rank index.isLive start + if index.isLive start then 1 else 0 := by
      rw [rank, kept_succ, List.length_append, ← rank]
      split_ifs <;> rfl
    rw [List.range'_succ, List.map_cons, numberFrom, ← ih, renumber, hnext, isLive]
    cases index.isTombstoned start <;> rfl

theorem oldToNew_eq :
    index.oldToNew = (List.range index.nodes.length).map index.renumber := by
  rw [oldToNew, List.range_eq_range']
  exact numberFrom_range' 0 index.nodes.length

theorem getElem?_oldToNew (hiid : iid < index.nodes.length) :
    index.oldToNew[iid]? = some (index.renumber iid) := by
  rw [oldToNew_eq, List.getElem?_map, List.getElem?_range hiid]
  rfl

/-! ## The nodes -/

/-- The node with its links to live nodes, under their new numbers. -/
def remapped (index : HnswIndex F) (node : HnswNode F) : HnswNode F :=
  { node with neighbors := node.neighbors.map fun list ↦ list.filterMap index.renumber }

theorem Wired.remapNode {top : ℕ} (h : index.Wired K top) {node : HnswNode F}
    (hnode : index.nodes[iid]? = some node) : index.remapNode iid = some (index.remapped node) := by
  have hlist : ∀ list ∈ node.neighbors,
      ((list.mapM fun j ↦ index.oldToNew[j]?).map List.reduceOption) =
        some (list.filterMap index.renumber) := by
    intro list hlist
    rw [mapM_eq_map fun j hj ↦
      getElem?_oldToNew (h.lt_of_link (List.mem_of_getElem? hnode) hlist hj)]
    rw [Option.map_some, List.reduceOption, List.filterMap_map]
    rfl
  rw [HnswIndex.remapNode, hnode]
  show (node.neighbors.mapM (fun neighbors ↦
    (neighbors.mapM fun oldNid ↦ index.oldToNew[oldNid]?).map List.reduceOption) >>= _) = _
  rw [mapM_eq_map hlist]
  rfl

theorem mem_survivors : iid ∈ index.survivors ↔
    iid < index.nodes.length ∧ index.isTombstoned iid = false := by
  rw [← isLive_eq_true]
  exact mem_kept

theorem getElem?_survivors (hiid : iid < index.nodes.length)
    (hlive : index.isTombstoned iid = false) :
    index.survivors[rank index.isLive iid]? = some iid :=
  getElem?_rank hiid (isLive_eq_true.mpr hlive)

theorem foldl_max_le {l : List ℕ} {a b : ℕ} : l.foldl max a ≤ b ↔ a ≤ b ∧ ∀ x ∈ l, x ≤ b := by
  induction l generalizing a with
  | nil => simp
  | cons x l ih => rw [List.foldl_cons, ih, max_le_iff, List.forall_mem_cons, and_assoc]

theorem pickTop_foldl (es : List (HnswNode F × ℕ)) (best : Option (HnswNode F × ℕ)) :
    (es.foldl pickTop best = none ↔ best = none ∧ es = []) ∧
      ∀ e, es.foldl pickTop best = some e → best = some e ∨ e ∈ es := by
  induction es generalizing best with
  | nil => exact ⟨(and_iff_left rfl).symm, fun _ h ↦ Or.inl h⟩
  | cons f es ih =>
    have hpick : pickTop best f = some f ∨ best ≠ none ∧ pickTop best f = best := by
      cases best with
      | none => exact Or.inl rfl
      | some b =>
        rw [pickTop]
        split_ifs
        · exact Or.inl rfl
        · exact Or.inr ⟨Option.some_ne_none b, rfl⟩
    rw [List.foldl_cons]
    obtain ⟨hnone, hsome⟩ := ih (pickTop best f)
    constructor
    · refine iff_of_false (fun h ↦ ?_) fun h ↦ List.cons_ne_nil _ _ h.2
      obtain ⟨hpicked, -⟩ := hnone.mp h
      rcases hpick with hfirst | ⟨hne, hsame⟩
      · rw [hfirst] at hpicked
        cases hpicked
      · exact hne (hsame ▸ hpicked)
    · intro e he
      rcases hsome e he with hpicked | hmem
      · rcases hpick with hfirst | ⟨-, hsame⟩
        · rw [hfirst] at hpicked
          obtain rfl := Option.some.inj hpicked
          exact Or.inr List.mem_cons_self
        · exact Or.inl (hsame ▸ hpicked)
      · exact Or.inr (List.mem_cons_of_mem _ hmem)

/-- The top node is one of the nodes, if there are any. -/
theorem topNode_spec (nodes : List (HnswNode F)) :
    (topNode nodes = none → nodes = []) ∧ ∀ i, topNode nodes = some i → i < nodes.length := by
  obtain ⟨hnone, hsome⟩ := pickTop_foldl nodes.zipIdx none
  rw [topNode]
  constructor
  · intro h
    exact List.zipIdx_eq_nil_iff.mp (hnone.mp (Option.map_eq_none_iff.mp h)).2
  · intro i h
    obtain ⟨e, he, rfl⟩ := Option.map_eq_some_iff.mp h
    rcases hsome e he with hfalse | hmem
    · cases hfalse
    · have hget := List.mem_zipIdx_iff_getElem?.mp hmem
      exact (List.getElem?_eq_some_iff.mp hget).1

theorem pushes_spec {nodes : List (HnswNode F)} {arena : QuantizedArena F}
    (hdata : arena.data.length = arena.entries.length * arena.dims)
    (hnodes : ∀ node ∈ nodes, node.vector.length = arena.dims) :
    let arena' := nodes.foldl (fun arena node ↦ arena.push K node.vector node.norm) arena
    arena'.data.length = arena'.entries.length * arena'.dims ∧
      arena'.entries.length = arena.entries.length + nodes.length ∧ arena'.dims = arena.dims := by
  induction nodes generalizing arena with
  | nil => exact ⟨hdata, rfl, rfl⟩
  | cons node nodes ih =>
    obtain ⟨hnode, hrest⟩ := List.forall_mem_cons.mp hnodes
    obtain ⟨hdata', hentries, hdims⟩ := ih (length_push hdata hnode node.norm) hrest
    refine ⟨hdata', hentries.trans ?_, hdims⟩
    rw [QuantizedArena.push, List.length_append, List.length_singleton, List.length_cons]
    omega

/-! ## The index after a rebuild -/

namespace WellFormed

theorem remapNode_survivor (h : index.WellFormed K) {old : ℕ} (hold : old ∈ index.survivors) :
    ∃ node, index.nodes[old]? = some node ∧ index.remapNode old = some (index.remapped node) := by
  obtain ⟨hlt, -⟩ := mem_survivors.mp hold
  exact ⟨_, List.getElem?_eq_getElem hlt, h.wired.remapNode (List.getElem?_eq_getElem hlt)⟩

theorem externalId_survivor (h : index.WellFormed K) {old : ℕ} (hold : old ∈ index.survivors) :
    ∃ id, index.externalId old = some id := by
  obtain ⟨hlt, -⟩ := mem_survivors.mp hold
  exact ⟨_, List.getElem?_eq_getElem (h.ids.symm ▸ hlt)⟩

theorem length_externalIds (h : index.WellFormed K) :
    (index.survivors.filterMap index.externalId).length = index.survivors.length :=
  List.filterMap_length_eq_length.mpr fun _ hold ↦
    Option.isSome_iff_exists.mpr (h.externalId_survivor hold)

theorem length_remapped (h : index.WellFormed K) :
    (index.survivors.filterMap index.remapNode).length = index.survivors.length :=
  List.filterMap_length_eq_length.mpr fun _ hold ↦
    Option.isSome_iff_exists.mpr ⟨_, (h.remapNode_survivor hold).choose_spec.2⟩

/-- The nodes that are left fit together. -/
theorem fits_rebuilt (h : index.WellFormed K) {node : HnswNode F}
    (hnode : node ∈ index.survivors.filterMap index.remapNode) :
    node.Fits K index.config.dimensions
      (((index.survivors.filterMap index.remapNode).map HnswNode.maxLayer).foldl max 0)
      ((index.survivors.filterMap index.remapNode).map HnswNode.maxLayer) := by
  have htop := ((foldl_max_le (a := 0)).mp le_rfl).2 node.maxLayer (List.mem_map_of_mem hnode)
  obtain ⟨old, hold, hremap⟩ := List.mem_filterMap.mp hnode
  obtain ⟨before, hbefore, heq⟩ := h.remapNode_survivor hold
  obtain rfl := Option.some.inj (hremap.symm.trans heq)
  have hfits := h.wired before (List.mem_of_getElem? hbefore)
  refine ⟨hfits.dims, hfits.finite, ?_, htop, ?_⟩
  · rw [remapped, List.length_map]
    exact hfits.layers
  · intro layer list hlist j hj
    rw [remapped, List.getElem?_map] at hlist
    obtain ⟨list', hlist', rfl⟩ := Option.map_eq_some_iff.mp hlist
    obtain ⟨k, hk, hnew⟩ := List.mem_filterMap.mp hj
    obtain ⟨hlive, rfl⟩ := renumber_eq_some.mp hnew
    obtain ⟨level, hlevel, hreach⟩ := hfits.links layer list' hlist' k hk
    -- the neighbour has kept its level under its new number
    refine ⟨level, ?_, hreach⟩
    have hlt := h.wired.lt_of_link (List.mem_of_getElem? hbefore) (List.mem_of_getElem? hlist') hk
    obtain ⟨other, hother, hremapped⟩ := h.remapNode_survivor (mem_survivors.mpr ⟨hlt, hlive⟩)
    rw [List.getElem?_map, hother] at hlevel
    rw [List.getElem?_map, getElem?_filterMap_of_forall
      fun a ha ↦ ⟨_, (h.remapNode_survivor ha).choose_spec.2⟩, getElem?_survivors hlt hlive,
      Option.bind_some, hremapped]
    exact hlevel

theorem nodup_rebuilt (h : index.WellFormed K) :
    (index.survivors.filterMap index.externalId).Nodup := by
  refine nodup_kept.filterMap fun a b id ha hb ↦ ?_
  have hget := (h.numbers id a).mpr ha
  rw [(h.numbers id b).mpr hb] at hget
  exact (Option.some.inj hget).symm

/-- The entry point under its new number, or a new one. -/
theorem entryPoint_rebuilt (h : index.WellFormed K) {nodes : List (HnswNode F)}
    (hlength : nodes.length = index.survivors.length) :
    Returns (index.newEntryPoint nodes) fun entryPoint ↦
      (entryPoint = none → nodes = []) ∧ ∀ i, entryPoint = some i → i < nodes.length := by
  rw [newEntryPoint]
  split
  next ep hentry =>
    obtain ⟨hlt, hlive⟩ := h.entry ep hentry
    rw [if_neg (ne_true_of_eq_false hlive), getElem?_oldToNew hlt]
    refine returns_some.mpr ⟨fun hnone ↦ ?_, fun i hi ↦ ?_⟩
    · rw [renumber, if_neg (ne_true_of_eq_false hlive)] at hnone
      cases hnone
    · obtain ⟨-, rfl⟩ := renumber_eq_some.mp hi
      rw [hlength]
      exact rank_lt hlt (isLive_eq_true.mpr hlive)
  · exact returns_some.mpr (topNode_spec nodes)

/-- The compacted index is well formed. -/
theorem compacted (h : index.WellFormed K) {entryPoint : Option ℕ}
    (hnone : entryPoint = none → index.survivors.filterMap index.remapNode = [])
    (hsome : ∀ i, entryPoint = some i →
      i < (index.survivors.filterMap index.remapNode).length) :
    (index.compacted K (index.survivors.filterMap index.externalId)
      (index.survivors.filterMap index.remapNode) entryPoint).WellFormed K := by
  have hdims : ∀ node ∈ index.survivors.filterMap index.remapNode,
      node.vector.length = index.quantized.clear.dims :=
    fun node hnode ↦ (h.fits_rebuilt hnode).dims.trans h.dims.symm
  have hclear : index.quantized.clear.data.length =
      index.quantized.clear.entries.length * index.quantized.clear.dims := (Nat.zero_mul _).symm
  obtain ⟨hdata, hentries, harena⟩ := pushes_spec (K := K) hclear hdims
  exact
    { wired := fun node hnode ↦ h.fits_rebuilt hnode
      ids := h.length_externalIds.trans h.length_remapped.symm
      numbers := numbers_zipIdx h.nodup_rebuilt
      tombstones := Nat.zero_le _
      count := rfl
      entries := hentries.trans (Nat.zero_add _)
      data := hdata
      dims := harena.trans h.dims
      entry := fun ep hep ↦ ⟨hsome ep hep, isTombstoned_of_le (Nat.zero_le _)⟩
      exhausted := fun heq j hj ↦ by
        have hempty : j < (index.survivors.filterMap index.remapNode).length := hj
        rw [hnone heq] at hempty
        exact absurd hempty (Nat.not_lt_zero j)
      level := by
        refine foldl_max_le.mpr ⟨Nat.zero_le _, fun x hx ↦ ?_⟩
        obtain ⟨node, hnode, rfl⟩ := List.mem_map.mp hx
        obtain ⟨old, hold, hremap⟩ := List.mem_filterMap.mp hnode
        obtain ⟨before, hbefore, heq⟩ := h.remapNode_survivor hold
        obtain rfl := Option.some.inj (hremap.symm.trans heq)
        exact (h.wired before (List.mem_of_getElem? hbefore)).top.trans h.level }

/-- **A rebuild** compacts the index, and to its callers it is the same map. -/
theorem returns_rebuild (h : index.WellFormed K) :
    Returns (index.rebuild K) fun r ↦ r.2.WellFormed K ∧ r.2.config = index.config ∧
      r.2.tombstones = [] ∧ r.2.liveVector = index.liveVector := by
  have hcount : index.tombstoneCount ≤ index.nodes.length := by
    rw [h.count]
    exact List.count_le_length.trans h.tombstones
  have hids : ∀ old ∈ index.survivors, ∃ id, index.externalId old = some id :=
    fun _ hold ↦ h.externalId_survivor hold
  have hremap : ∀ old ∈ index.survivors, ∃ node, index.remapNode old = some node :=
    fun _ hold ↦ ⟨_, (h.remapNode_survivor hold).choose_spec.2⟩
  rw [rebuild]
  refine (Returns.of_guard hcount).bind fun _ _ ↦ ?_
  rw [mapM_eq_filterMap hids, mapM_eq_filterMap hremap]
  refine (h.entryPoint_rebuilt h.length_remapped).bind ?_
  rintro entryPoint ⟨hnone, hsome⟩
  have hcompacted := h.compacted hnone hsome
  refine returns_pure.mpr ⟨hcompacted, rfl, rfl, ?_⟩
  funext id
  refine Option.ext fun vector ↦ ?_
  show HnswIndex.liveVector _ id = some vector ↔ index.liveVector id = some vector
  rw [liveVector_eq_some hcompacted.numbers, liveVector_eq_some h.numbers]
  have hexternal := getElem?_filterMap_of_forall hids
  have hvector : ∀ i : ℕ, ((index.survivors.filterMap index.remapNode).map HnswNode.vector)[i]? =
      (index.survivors[i]?).bind fun old : ℕ ↦ (index.nodes.map HnswNode.vector)[old]? := by
    intro i
    rw [List.getElem?_map, getElem?_filterMap_of_forall hremap]
    cases hold : index.survivors[i]? with
    | none => rfl
    | some old =>
      obtain ⟨node, hnode, heq⟩ := h.remapNode_survivor (List.mem_of_getElem? hold)
      rw [Option.bind_some, Option.bind_some, heq, List.getElem?_map, hnode]
      rfl
  constructor
  · rintro ⟨i, hid, -, hget⟩
    -- the node at its old number
    obtain ⟨old, hold, hid⟩ := Option.bind_eq_some_iff.mp ((hexternal i).symm.trans hid)
    have hget' := (hvector i).symm.trans hget
    rw [hold] at hget'
    exact ⟨old, hid, (mem_survivors.mp (List.mem_of_getElem? hold)).2, hget'⟩
  · rintro ⟨old, hid, hlive, hget⟩
    have hlt := (List.getElem?_eq_some_iff.mp hid).1
    rw [h.ids] at hlt
    have hold := getElem?_survivors hlt hlive
    refine ⟨rank index.isLive old, ?_, isTombstoned_of_le (Nat.zero_le _), ?_⟩
    · exact (hexternal _).trans (by rw [hold]; exact hid)
    · exact (hvector _).trans (by rw [hold]; exact hget)

end WellFormed

end HnswIndex

end Khive.Hnsw
