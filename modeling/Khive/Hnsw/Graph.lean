import Khive.Hnsw.Update

/-!
# The graph under insertion

A node is in the layers up to its own level, but the lists of its neighbours may go higher: the
entry point of a search need not reach the layer it is searched in. A link in a layer has an end
that reaches it, and so the lists above the highest level are empty. Connecting a new node changes
lists of neighbours only.
-/

namespace Khive.Hnsw

variable {F : Type} {K : Kernels F}

/-! ## Lists of neighbours -/

/-- The neighbours are nodes, and of two linked nodes one reaches the layer of the link. -/
def LinksReach (levels : List ℕ) (maxLayer : ℕ) (lists : List (List ℕ)) : Prop :=
  ∀ layer list, lists[layer]? = some list → ∀ j ∈ list,
    ∃ level, levels[j]? = some level ∧ (layer ≤ maxLayer ∨ layer ≤ level)

theorem linksReach_replicate (levels : List ℕ) (maxLayer n : ℕ) :
    LinksReach levels maxLayer (List.replicate n []) := by
  intro layer list hlist j hj
  have hnil : list = [] := (List.mem_replicate.mp (List.mem_of_getElem? hlist)).2
  rw [hnil] at hj
  cases hj

namespace LinksReach

variable {levels : List ℕ} {maxLayer : ℕ} {lists : List (List ℕ)}

theorem padTo (h : LinksReach levels maxLayer lists) (layer : ℕ) :
    LinksReach levels maxLayer (HnswIndex.padTo layer lists) := by
  intro l list hlist j hj
  rw [HnswIndex.padTo, List.getElem?_append] at hlist
  split_ifs at hlist
  · exact h l list hlist j hj
  · have hnil : list = [] := (List.mem_replicate.mp (List.mem_of_getElem? hlist)).2
    rw [hnil] at hj
    cases hj

theorem set (h : LinksReach levels maxLayer lists) {layer : ℕ} {list : List ℕ}
    (hlist : ∀ j ∈ list, ∃ level, levels[j]? = some level ∧ (layer ≤ maxLayer ∨ layer ≤ level)) :
    LinksReach levels maxLayer (lists.set layer list) := by
  intro l list' hlist' j hj
  rw [List.getElem?_set] at hlist'
  split_ifs at hlist' with heq
  · obtain rfl := Option.some.inj hlist'
    exact heq ▸ hlist j hj
  · exact h l list' hlist' j hj

/-- More nodes do no harm. -/
theorem append (h : LinksReach levels maxLayer lists) (more : List ℕ) :
    LinksReach (levels ++ more) maxLayer lists := by
  intro l list hlist j hj
  obtain ⟨level, hlevel, hreach⟩ := h l list hlist j hj
  have hlt := (List.getElem?_eq_some_iff.mp hlevel).1
  exact ⟨level, by rw [List.getElem?_append_left hlt, hlevel], hreach⟩

end LinksReach

theorem HnswIndex.lt_length_padTo (layer : ℕ) (lists : List (List ℕ)) :
    layer < (padTo layer lists).length := by
  rw [padTo, List.length_append, List.length_replicate]
  omega

theorem HnswIndex.length_le_padTo (layer : ℕ) (lists : List (List ℕ)) :
    lists.length ≤ (padTo layer lists).length := by
  rw [padTo, List.length_append]
  exact Nat.le_add_right _ _

/-! ## Nodes -/

/-- What holds of a node in an index of this dimension, with nodes of these levels. -/
structure HnswNode.Fits (K : Kernels F) (dims top : ℕ) (levels : List ℕ) (node : HnswNode F) :
    Prop where
  dims : node.vector.length = dims
  finite : ∀ v ∈ node.vector, K.isFinite v = true
  layers : node.maxLayer < node.neighbors.length
  top : node.maxLayer ≤ top
  links : LinksReach levels node.maxLayer node.neighbors

/-- All nodes fit together. -/
def HnswIndex.Wired (K : Kernels F) (top : ℕ) (index : HnswIndex F) : Prop :=
  ∀ node ∈ index.nodes,
    node.Fits K index.config.dimensions top (index.nodes.map HnswNode.maxLayer)

/-- The indexes differ in lists of neighbours only. -/
structure HnswIndex.Rewired (index index' : HnswIndex F) : Prop where
  rest : { index with nodes := index'.nodes } = index'
  vectors : index'.nodes.map HnswNode.vector = index.nodes.map HnswNode.vector
  levels : index'.nodes.map HnswNode.maxLayer = index.nodes.map HnswNode.maxLayer

namespace HnswIndex

variable {index index' index'' : HnswIndex F} {top : ℕ}

theorem Rewired.refl (index : HnswIndex F) : index.Rewired index := ⟨rfl, rfl, rfl⟩

theorem Rewired.trans (h : index.Rewired index') (h' : index'.Rewired index'') :
    index.Rewired index'' := by
  refine ⟨?_, h'.vectors.trans h.vectors, h'.levels.trans h.levels⟩
  rw [← h'.rest, ← h.rest]

theorem Rewired.length_eq (h : index.Rewired index') :
    index'.nodes.length = index.nodes.length := by
  simpa using congrArg List.length h.levels

theorem Wired.lt_of_link (h : index.Wired K top) {node : HnswNode F} (hnode : node ∈ index.nodes)
    {list : List ℕ} (hlist : list ∈ node.neighbors) {j : ℕ} (hj : j ∈ list) :
    j < index.nodes.length := by
  obtain ⟨layer, hlayer⟩ := List.getElem?_of_mem hlist
  obtain ⟨level, hlevel, -⟩ := (h node hnode).links layer list hlayer j hj
  have hlt := (List.getElem?_eq_some_iff.mp hlevel).1
  rwa [List.length_map] at hlt

theorem getElem?_setNeighbors (id : ℕ) (lists : List (List ℕ)) (i : ℕ) :
    (index.setNeighbors id lists).nodes[i]? =
      if id = i then index.nodes[i]?.map fun node ↦ { node with neighbors := lists }
      else index.nodes[i]? := by
  rw [setNeighbors, List.getElem?_modify]
  cases index.nodes[i]? with
  | none => split_ifs <;> rfl
  | some node => split_ifs <;> rfl

theorem rewired_setNeighbors (id : ℕ) (lists : List (List ℕ)) :
    index.Rewired (index.setNeighbors id lists) := by
  have hkeep : ∀ {β : Type} (g : HnswNode F → β), (∀ node, g { node with neighbors := lists } = g node) →
      (index.setNeighbors id lists).nodes.map g = index.nodes.map g := by
    intro β g hg
    refine List.ext_getElem? fun i ↦ ?_
    rw [List.getElem?_map, List.getElem?_map, getElem?_setNeighbors]
    split_ifs
    · rw [Option.map_map]
      exact Option.map_congr fun node _ ↦ hg node
    · rfl
  exact ⟨rfl, hkeep _ fun _ ↦ rfl, hkeep _ fun _ ↦ rfl⟩

/-- New lists for a node, which reach as far as before. -/
theorem Wired.setNeighbors (h : index.Wired K top) {id : ℕ} {node : HnswNode F}
    (hnode : index.nodes[id]? = some node) {lists : List (List ℕ)}
    (hlayers : node.neighbors.length ≤ lists.length)
    (hlinks : LinksReach (index.nodes.map HnswNode.maxLayer) node.maxLayer lists) :
    (index.setNeighbors id lists).Wired K top := by
  intro other hother
  rw [(rewired_setNeighbors id lists).levels]
  obtain ⟨i, hi⟩ := List.getElem?_of_mem hother
  rw [getElem?_setNeighbors] at hi
  split_ifs at hi with heq
  · -- the node itself
    subst heq
    rw [hnode] at hi
    obtain rfl := Option.some.inj hi
    have hfits := h node (List.mem_of_getElem? hnode)
    exact ⟨hfits.dims, hfits.finite, hfits.layers.trans_le hlayers, hfits.top, hlinks⟩
  · exact h other (List.mem_of_getElem? hi)

/-! ## Connecting -/

theorem Wired.returns_connect (h : index.Wired K top) {source target layer level : ℕ}
    (hsource : source < index.nodes.length)
    (htarget : (index.nodes.map HnswNode.maxLayer)[target]? = some level) (hlayer : layer ≤ level) :
    Returns (index.connect source target layer) fun index' ↦
      index.Rewired index' ∧ index'.Wired K top := by
  rw [connect]
  refine (Returns.getElem? hsource).bind fun node hnode ↦ returns_pure.mpr ?_
  refine ⟨rewired_setNeighbors _ _, h.setNeighbors hnode ?_ ?_⟩
  · split_ifs
    · exact length_le_padTo layer _
    · rw [List.length_set]
      exact length_le_padTo layer _
  · have hlinks := (h node (List.mem_of_getElem? hnode)).links.padTo layer
    split_ifs
    · exact hlinks
    · refine hlinks.set fun j hj ↦ ?_
      rcases List.mem_append.mp hj with hj | hj
      · -- an old neighbour
        have hlist : (padTo layer node.neighbors)[layer]? =
            some ((padTo layer node.neighbors).getD layer []) := by
          rw [List.getD_eq_getElem?_getD, List.getElem?_eq_getElem (lt_length_padTo layer _)]
          rfl
        exact hlinks layer _ hlist j hj
      · obtain rfl := List.mem_singleton.mp hj
        exact ⟨level, htarget, Or.inr hlayer⟩

theorem Wired.returns_shrinkConnections (h : index.Wired K top)
    (hids : index.internalToId.length = index.nodes.length) {id : ℕ}
    (hid : id < index.nodes.length) (layer m : ℕ) :
    Returns (index.shrinkConnections K id layer m) fun index' ↦
      index.Rewired index' ∧ index'.Wired K top := by
  rw [shrinkConnections]
  refine (Returns.getElem? hid).bind fun node hnode ↦ ?_
  have hmem := List.mem_of_getElem? hnode
  split
  · exact returns_pure.mpr ⟨.refl _, h⟩
  next neighborIds hlist =>
    split_ifs
    · exact returns_pure.mpr ⟨.refl _, h⟩
    · refine (Returns.mapM_key Prod.snd fun nId hnId ↦ ?_).bind fun scored hscoredIds ↦ ?_
      · have hlt := h.lt_of_link hmem (List.mem_of_getElem? hlist) hnId
        exact (Returns.getElem? hlt).bind fun n _ ↦ returns_pure.mpr rfl
      have hlinks := (h node hmem).links
      have hrange : InRange index.nodes.length scored := by
        intro e he
        have hmemIds : e.2 ∈ neighborIds := hscoredIds ▸ List.mem_map_of_mem he
        exact h.lt_of_link hmem (List.mem_of_getElem? hlist) hmemIds
      refine (Readable.returns_sortByDistance hids hrange).bind fun sorted hperm ↦ returns_pure.mpr ?_
      refine ⟨rewired_setNeighbors _ _, h.setNeighbors hnode ?_ ?_⟩
      · exact le_of_eq (List.length_set ..).symm
      · refine hlinks.set fun j hj ↦ hlinks layer neighborIds hlist j ?_
        -- what is kept was there before
        obtain ⟨e, he, rfl⟩ := List.mem_map.mp hj
        rw [← hscoredIds]
        exact List.mem_map_of_mem (hperm.mem_iff.mp (List.mem_of_mem_take he))

/-- Connecting a node back to the neighbours that were chosen for it in a layer. -/
theorem Wired.returns_connectBack (h : index.Wired K top)
    (hids : index.internalToId.length = index.nodes.length) {internalId level : ℕ}
    (hinternal : (index.nodes.map HnswNode.maxLayer)[internalId]? = some level)
    {chosen : ℕ × List ℕ} (hlayer : chosen.1 ≤ level)
    (hchosen : ∀ j ∈ chosen.2, j < index.nodes.length) :
    Returns (index.connectBack K internalId chosen) fun index' ↦
      index.Rewired index' ∧ index'.Wired K top := by
  refine Returns.foldlM (fun between j hj hbetween ↦ ?_) ⟨.refl _, h⟩
  obtain ⟨hrewired, hwired⟩ := hbetween
  have hlt : j < between.nodes.length := hrewired.length_eq.symm ▸ hchosen j hj
  refine (hwired.returns_connect hlt (hrewired.levels ▸ hinternal) hlayer).bind ?_
  rintro connected ⟨hconnect, hconnected⟩
  have hboth := hrewired.trans hconnect
  have hids' : connected.internalToId.length = connected.nodes.length := by
    rw [hboth.length_eq, ← hids, ← hboth.rest]
  have hlt' : j < connected.nodes.length := hboth.length_eq.symm ▸ hchosen j hj
  refine (hconnected.returns_shrinkConnections hids' hlt' _ _).mono ?_
  rintro shrunk ⟨hshrink, hshrunk⟩
  exact ⟨hboth.trans hshrink, hshrunk⟩

/-! ## A new node -/

/-- The lists chosen for a node are of layers that it reaches, and hold nodes. -/
def Chosen (n level : ℕ) (layerNeighbors : List (ℕ × List ℕ)) : Prop :=
  ∀ chosen ∈ layerNeighbors, chosen.1 ≤ level ∧ ∀ j ∈ chosen.2, j < n

theorem Wired.returns_connectAll (h : index.Wired K top)
    (hids : index.internalToId.length = index.nodes.length) {internalId level : ℕ}
    (hinternal : (index.nodes.map HnswNode.maxLayer)[internalId]? = some level)
    {layerNeighbors : List (ℕ × List ℕ)}
    (hchosen : Chosen index.nodes.length level layerNeighbors) :
    Returns (layerNeighbors.foldlM (fun index chosen ↦ index.connectBack K internalId chosen) index)
      fun index' ↦ index.Rewired index' ∧ index'.Wired K top := by
  refine Returns.foldlM (fun between chosen hmem hbetween ↦ ?_) ⟨.refl _, h⟩
  obtain ⟨hrewired, hwired⟩ := hbetween
  obtain ⟨hlayer, hin⟩ := hchosen chosen hmem
  have hids' : between.internalToId.length = between.nodes.length := by
    rw [hrewired.length_eq, ← hids, ← hrewired.rest]
  refine (hwired.returns_connectBack hids' (hrewired.levels ▸ hinternal) hlayer
    fun j hj ↦ hrewired.length_eq.symm ▸ hin j hj).mono ?_
  rintro next ⟨hnext, hwired'⟩
  exact ⟨hrewired.trans hnext, hwired'⟩

theorem Readable.returns_descend (h : index.Readable) (vector : List F) (queryNorm : F)
    (level : ℕ) {entryPoint : ℕ} (hentry : entryPoint < index.nodes.length) :
    Returns (index.descend K vector queryNorm level entryPoint) fun nearest ↦
      nearest < index.nodes.length := by
  refine Returns.foldlM (fun nearest l _ hnearest ↦ ?_) hentry
  refine (h.returns_searchLayer vector queryNorm (List.forall_mem_singleton.mpr hnearest)
    1 l).bind fun found hfound ↦ returns_pure.mpr ?_
  cases found with
  | nil => exact hnearest
  | cons e found => exact hfound e List.mem_cons_self

theorem Readable.returns_chooseNeighbors (h : index.Readable) (vector : List F) (queryNorm : F)
    (level : ℕ) {nearest : ℕ} (hnearest : nearest < index.nodes.length) :
    Returns (index.chooseNeighbors K vector queryNorm level nearest)
      (Chosen index.nodes.length level) := by
  have hall : Returns ((List.range (min level index.maxLevel + 1)).reverse.foldlM
      (index.chooseLayer K vector queryNorm) (nearest, [])) fun acc ↦
        acc.1 < index.nodes.length ∧ Chosen index.nodes.length level acc.2 := by
    refine Returns.foldlM (fun acc l hl hacc ↦ ?_) ⟨hnearest, by simp [Chosen]⟩
    obtain ⟨hlt, hchosen⟩ := hacc
    have hlevel : l ≤ level := by
      have hrange := List.mem_range.mp (List.mem_reverse.mp hl)
      omega
    refine (h.returns_searchLayer vector queryNorm (List.forall_mem_singleton.mpr hlt) _ l).bind
      fun candidates hcandidates ↦ ?_
    refine (h.returns_selectNeighbors hcandidates _).bind fun neighbors hneighbors ↦
      returns_pure.mpr ⟨?_, ?_⟩
    · cases candidates with
      | nil => exact hlt
      | cons e candidates => exact hcandidates e List.mem_cons_self
    · exact List.forall_mem_append.mpr
        ⟨hchosen, List.forall_mem_singleton.mpr ⟨hlevel, hneighbors⟩⟩
  exact hall.bind fun acc hacc ↦ returns_pure.mpr hacc.2

theorem placeNeighbors_reach {levels : List ℕ} {level : ℕ} {lists : List (List ℕ)}
    (hlists : LinksReach levels level lists) {layerNeighbors : List (ℕ × List ℕ)}
    (hchosen : Chosen levels.length level layerNeighbors) :
    LinksReach levels level (placeNeighbors lists layerNeighbors) ∧
      lists.length ≤ (placeNeighbors lists layerNeighbors).length := by
  induction layerNeighbors generalizing lists with
  | nil => exact ⟨hlists, le_rfl⟩
  | cons chosen layerNeighbors ih =>
    obtain ⟨⟨hlayer, hin⟩, hrest⟩ := List.forall_mem_cons.mp hchosen
    have hplaced : LinksReach levels level ((padTo chosen.1 lists).set chosen.1 chosen.2) := by
      refine (hlists.padTo chosen.1).set fun j hj ↦ ?_
      exact ⟨levels.get ⟨j, hin j hj⟩, List.getElem?_eq_getElem (hin j hj), Or.inl hlayer⟩
    obtain ⟨hreach, hlength⟩ := ih hplaced hrest
    refine ⟨hreach, le_trans ?_ hlength⟩
    rw [List.length_set]
    exact length_le_padTo _ _

/-- A node that fits is added at the end. -/
theorem Wired.pushNode (h : index.Wired K index.maxLevel) (id : NodeId) {node : HnswNode F}
    (hnode : node.Fits K index.config.dimensions (max index.maxLevel node.maxLayer)
      (index.nodes.map HnswNode.maxLayer)) :
    (index.pushNode K id node).Wired K (max index.maxLevel node.maxLayer) := by
  have hlevels : (index.pushNode K id node).nodes.map HnswNode.maxLayer =
      index.nodes.map HnswNode.maxLayer ++ [node.maxLayer] := by
    rw [HnswIndex.pushNode, List.map_append]
    rfl
  intro other hother
  rw [hlevels]
  rcases List.mem_append.mp hother with hother | hother
  · have hfits := h other hother
    exact ⟨hfits.dims, hfits.finite, hfits.layers, hfits.top.trans (le_max_left _ _),
      hfits.links.append _⟩
  · obtain rfl := List.mem_singleton.mp hother
    exact { hnode with links := hnode.links.append _ }

end HnswIndex

end Khive.Hnsw
