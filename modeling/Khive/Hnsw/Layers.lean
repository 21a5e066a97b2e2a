import Khive.Hnsw.Distinct
import Khive.Hnsw.Map

/-!
# The layers of the graph

A list of neighbours names no node twice and not its owner, and it is as short as its layer asks
for. When every insertion starts from an entry point of the highest level, a node has lists in
exactly the layers up to its own level, and a link joins nodes that both reach its layer. An entry
point that a deletion put in may lie lower; then the lists of a node may go higher than its level,
and one end of a link reaches the layer.
-/

namespace Khive.Hnsw

variable {F : Type} {K : Kernels F}

namespace HnswIndex

variable {index index' : HnswIndex F} {id : NodeId} {layer : ℕ}

/-- The node goes up to the layer. -/
def Reaches (index : HnswIndex F) (layer iid : ℕ) : Prop :=
  ∃ node, index.nodes[iid]? = some node ∧ layer ≤ node.maxLayer

/-- No list names a node twice, or its owner. -/
def Simple (iid : ℕ) (lists : List (List ℕ)) : Prop := ∀ list ∈ lists, list.Nodup ∧ iid ∉ list

/-- The lists are in order, but one may be too long: that of a node in a layer. -/
structure Tidy (pending : Option (ℕ × ℕ)) (index : HnswIndex F) : Prop where
  simple : ∀ iid node, index.nodes[iid]? = some node → Simple iid node.neighbors
  bounded : ∀ iid node, index.nodes[iid]? = some node → ∀ layer list,
    node.neighbors[layer]? = some list → pending ≠ some (iid, layer) →
      list.length ≤ index.maxNeighbors layer

/-- The lists are those of the layers that their owners reach, and so do the neighbours. -/
structure Exact (index : HnswIndex F) : Prop where
  layers : ∀ node ∈ index.nodes, node.neighbors.length = node.maxLayer + 1
  links : ∀ node ∈ index.nodes, ∀ layer list, node.neighbors[layer]? = some list →
    ∀ j ∈ list, index.Reaches layer j

/-- The highest level of a node. -/
def topLevel (index : HnswIndex F) : ℕ := (index.nodes.map HnswNode.maxLayer).foldl max 0

/-- The entry point has the highest level. -/
def EntryOnTop (index : HnswIndex F) : Prop :=
  ∀ ep ∈ index.entryPoint, index.Reaches index.maxLevel ep

theorem Exact.closed (h : index.Exact) (layer : ℕ) : index.Closed layer (index.Reaches layer) :=
  fun _ node hnode _ list hlist ↦ h.links node (List.mem_of_getElem? hnode) layer list hlist

theorem Reaches.of_le {low iid : ℕ} (h : index.Reaches layer iid) (hle : low ≤ layer) :
    index.Reaches low iid := by
  obtain ⟨node, hnode, hreach⟩ := h
  exact ⟨node, hnode, hle.trans hreach⟩

theorem reaches_iff_level {iid : ℕ} : index.Reaches layer iid ↔
    ∃ level, (index.nodes.map HnswNode.maxLayer)[iid]? = some level ∧ layer ≤ level := by
  simp only [Reaches, List.getElem?_map, Option.map_eq_some_iff]
  constructor
  · rintro ⟨node, hnode, hreach⟩
    exact ⟨_, ⟨node, hnode, rfl⟩, hreach⟩
  · rintro ⟨_, ⟨node, hnode, rfl⟩, hreach⟩
    exact ⟨node, hnode, hreach⟩

theorem Rewired.reaches (h : index.Rewired index') {iid : ℕ} :
    index'.Reaches layer iid ↔ index.Reaches layer iid := by
  rw [reaches_iff_level, reaches_iff_level, h.levels]

/-! ## The layers a search goes through -/

section Descent

variable {P : ℕ → ℕ → Prop} (hclosed : ∀ l, index.Closed l (P l))
  (hdown : ∀ l low iid, low ≤ l → P l iid → P low iid)

include hclosed hdown

/-- Layers below one another, each searched from the closest node of the one before. -/
theorem ensures_descent (vector : List F) (queryNorm : F) {layers : List ℕ}
    (hsorted : layers.Pairwise (· > ·)) {top nearest : ℕ} (hlayers : ∀ l ∈ layers, l ≤ top)
    (hnearest : P top nearest) :
    Ensures (layers.foldlM (fun nearest l ↦ do
      let found ← index.searchLayer K vector queryNorm [nearest] 1 l
      pure ((found.head?.map Prod.snd).getD nearest)) nearest) fun nearest ↦
        ∀ low ≤ top, (∀ l ∈ layers, low ≤ l) → P low nearest := by
  induction layers generalizing top nearest with
  | nil => exact ensures_pure.mpr fun low hlow _ ↦ hdown _ _ _ hlow hnearest
  | cons l layers ih =>
    obtain ⟨hl, hbelow⟩ := List.forall_mem_cons.mp hlayers
    obtain ⟨hless, hsorted⟩ := List.pairwise_cons.mp hsorted
    have hstart := hdown _ _ _ hl hnearest
    rw [List.foldlM_cons]
    refine Ensures.bind (P := P l) ?_ fun nearest hnearest ↦ ?_
    · refine (ensures_searchLayer vector queryNorm hstart (hclosed l) 1).bind fun found hfound ↦
        ensures_pure.mpr ?_
      rcases found with - | ⟨e, found⟩
      · exact hstart
      · exact hfound.1 e List.mem_cons_self
    · refine (ih hsorted (fun l' hl' ↦ (hless l' hl').le) hnearest).mono fun r hr low hlow hall ↦ ?_
      obtain ⟨hlow', hall'⟩ := List.forall_mem_cons.mp hall
      exact hr low hlow' hall'

theorem ensures_descend (vector : List F) (queryNorm : F) (level : ℕ) {entryPoint : ℕ}
    (hentry : P index.maxLevel entryPoint) :
    Ensures (index.descend K vector queryNorm level entryPoint) (P (min level index.maxLevel)) := by
  have hmem : ∀ l ∈ (List.range' (level + 1) (index.maxLevel - level)).reverse,
      level < l ∧ l ≤ index.maxLevel := by
    intro l hl
    rw [List.mem_reverse, List.mem_range'_1] at hl
    omega
  have hsorted : (List.range' (level + 1) (index.maxLevel - level)).reverse.Pairwise (· > ·) :=
    List.pairwise_reverse.mpr List.pairwise_lt_range'
  refine (ensures_descent hclosed hdown vector queryNorm hsorted (fun l hl ↦ (hmem l hl).2)
    hentry).mono fun nearest hnearest ↦ hnearest _ (min_le_right _ _) fun l hl ↦ ?_
  exact (min_le_left _ _).trans (hmem l hl).1.le

/-- What is chosen in one layer. -/
def Fit (bound : ℕ → ℕ) (P : ℕ → ℕ → Prop) (level : ℕ) (chosen : ℕ × List ℕ) : Prop :=
  chosen.1 ≤ level ∧ (∀ j ∈ chosen.2, P chosen.1 j) ∧ chosen.2.Nodup ∧
    chosen.2.length ≤ bound chosen.1

theorem ensures_chooseLayers (vector : List F) (queryNorm : F) {level : ℕ} {layers : List ℕ}
    (hsorted : layers.Pairwise (· > ·)) {top : ℕ} (hlayers : ∀ l ∈ layers, l ≤ top)
    (htop : top ≤ level) {acc : ℕ × List (ℕ × List ℕ)} (hnearest : P top acc.1)
    (hchosen : ∀ chosen ∈ acc.2, Fit index.maxNeighbors P level chosen) :
    Ensures (layers.foldlM (index.chooseLayer K vector queryNorm) acc) fun acc ↦
      ∀ chosen ∈ acc.2, Fit index.maxNeighbors P level chosen := by
  induction layers generalizing top acc with
  | nil => exact ensures_pure.mpr hchosen
  | cons l layers ih =>
    obtain ⟨hl, hbelow⟩ := List.forall_mem_cons.mp hlayers
    obtain ⟨hless, hsorted⟩ := List.pairwise_cons.mp hsorted
    have hstart := hdown _ _ _ hl hnearest
    rw [List.foldlM_cons]
    refine Ensures.bind (P := fun acc ↦ P l acc.1 ∧
      ∀ chosen ∈ acc.2, Fit index.maxNeighbors P level chosen) ?_ fun acc hacc ↦ ?_
    · refine (ensures_searchLayer vector queryNorm hstart (hclosed l) _).bind
        fun candidates hcandidates ↦ ?_
      refine (ensures_selectNeighbors hcandidates _).bind fun neighbors hneighbors ↦
        ensures_pure.mpr ⟨?_, ?_⟩
      · rcases candidates with - | ⟨e, candidates⟩
        · exact hstart
        · exact hcandidates.1 e List.mem_cons_self
      · refine List.forall_mem_append.mpr ⟨hchosen, List.forall_mem_singleton.mpr ?_⟩
        exact ⟨hl.trans htop, hneighbors⟩
    · exact ih hsorted (fun l' hl' ↦ (hless l' hl').le) (hl.trans htop) hacc.1 hacc.2

/-- **The neighbours of a new node** are as many as its layers ask for, and they are fit for the
layers they are chosen in. -/
theorem ensures_chooseNeighbors (vector : List F) (queryNorm : F) (level : ℕ) {nearest : ℕ}
    (hnearest : P (min level index.maxLevel) nearest) :
    Ensures (index.chooseNeighbors K vector queryNorm level nearest) fun layerNeighbors ↦
      ∀ chosen ∈ layerNeighbors, Fit index.maxNeighbors P level chosen := by
  have hsorted : (List.range (min level index.maxLevel + 1)).reverse.Pairwise (· > ·) :=
    List.pairwise_reverse.mpr List.pairwise_lt_range
  have hmem : ∀ l ∈ (List.range (min level index.maxLevel + 1)).reverse,
      l ≤ min level index.maxLevel := fun l hl ↦
    Nat.lt_succ_iff.mp (List.mem_range.mp (List.mem_reverse.mp hl))
  have hnone : ∀ chosen ∈ ([] : List (ℕ × List ℕ)), Fit index.maxNeighbors P level chosen := by
    simp
  have hall : Ensures ((List.range (min level index.maxLevel + 1)).reverse.foldlM
      (index.chooseLayer K vector queryNorm) (nearest, [])) _ :=
    ensures_chooseLayers hclosed hdown vector queryNorm hsorted hmem (min_le_left _ _) hnearest
      hnone
  exact hall.bind fun acc hacc ↦ ensures_pure.mpr hacc

end Descent

/-! ## Connecting -/

theorem maxNeighbors_congr (h : index'.config = index.config) :
    index'.maxNeighbors = index.maxNeighbors := by
  funext layer
  show (if layer = 0 then index'.config.mMax0 else index'.config.m) = _
  rw [h]
  rfl

theorem Simple.set {iid : ℕ} {lists : List (List ℕ)} (h : Simple iid lists) {list : List ℕ}
    (hlist : list.Nodup ∧ iid ∉ list) (layer : ℕ) : Simple iid (lists.set layer list) := by
  intro other hother
  rcases List.mem_or_eq_of_mem_set hother with hother | rfl
  · exact h other hother
  · exact hlist

theorem Simple.padTo {iid : ℕ} {lists : List (List ℕ)} (h : Simple iid lists) (layer : ℕ) :
    Simple iid (padTo layer lists) := by
  refine List.forall_mem_append.mpr ⟨h, fun list hlist ↦ ?_⟩
  obtain rfl := (List.mem_replicate.mp hlist).2
  exact ⟨List.nodup_nil, List.not_mem_nil⟩

theorem getD_mem_or_eq_nil (lists : List (List ℕ)) (layer : ℕ) :
    lists.getD layer [] ∈ lists ∨ lists.getD layer [] = [] := by
  rw [List.getD_eq_getElem?_getD]
  rcases hget : lists[layer]? with - | list
  · exact Or.inr rfl
  · exact Or.inl (List.mem_of_getElem? hget)

/-- A list that padding shows was there, or it is empty. -/
theorem getElem?_padTo {lists : List (List ℕ)} {l : ℕ} {list : List ℕ}
    (h : (padTo layer lists)[l]? = some list) : lists[l]? = some list ∨ list = [] := by
  rw [padTo, List.getElem?_append] at h
  split_ifs at h
  · exact Or.inl h
  · exact Or.inr (List.mem_replicate.mp (List.mem_of_getElem? h)).2

/-- New lists for a node. -/
theorem Tidy.setNeighbors {pending pending' : Option (ℕ × ℕ)} (h : index.Tidy pending) {iid : ℕ}
    {lists : List (List ℕ)} (hsimple : Simple iid lists)
    (hbounded : ∀ layer list, lists[layer]? = some list → pending' ≠ some (iid, layer) →
      list.length ≤ index.maxNeighbors layer)
    (hothers : ∀ other layer, other ≠ iid → pending' ≠ some (other, layer) →
      pending ≠ some (other, layer)) : (index.setNeighbors iid lists).Tidy pending' := by
  constructor
  · intro i node hnode
    rw [getElem?_setNeighbors] at hnode
    split_ifs at hnode with heq
    · obtain ⟨old, -, rfl⟩ := Option.map_eq_some_iff.mp hnode
      exact heq ▸ hsimple
    · exact h.simple i node hnode
  · intro i node hnode layer list hlist hpending
    rw [getElem?_setNeighbors] at hnode
    split_ifs at hnode with heq
    · obtain ⟨old, -, rfl⟩ := Option.map_eq_some_iff.mp hnode
      exact hbounded layer list hlist (heq ▸ hpending)
    · exact h.bounded i node hnode layer list hlist (hothers i layer (Ne.symm heq) hpending)

theorem Exact.setNeighbors (h : index.Exact) {iid : ℕ} {lists : List (List ℕ)}
    (hlength : ∀ node, index.nodes[iid]? = some node → lists.length = node.neighbors.length)
    (hlinks : ∀ layer list, lists[layer]? = some list → ∀ j ∈ list, index.Reaches layer j) :
    (index.setNeighbors iid lists).Exact := by
  constructor
  · intro node hnode
    obtain ⟨i, hi⟩ := List.getElem?_of_mem hnode
    rw [getElem?_setNeighbors] at hi
    split_ifs at hi with heq
    · obtain ⟨old, hold, rfl⟩ := Option.map_eq_some_iff.mp hi
      subst heq
      exact (hlength old hold).trans (h.layers old (List.mem_of_getElem? hold))
    · exact h.layers node (List.mem_of_getElem? hi)
  · intro node hnode layer list hlist j hj
    rw [(rewired_setNeighbors iid lists).reaches]
    obtain ⟨i, hi⟩ := List.getElem?_of_mem hnode
    rw [getElem?_setNeighbors] at hi
    split_ifs at hi with heq
    · obtain ⟨old, -, rfl⟩ := Option.map_eq_some_iff.mp hi
      exact hlinks layer list hlist j hj
    · exact h.links node (List.mem_of_getElem? hi) layer list hlist j hj

/-- One link more may make a list too long by one. -/
theorem ensures_connect (h : index.Tidy none) {source target : ℕ} (hne : source ≠ target)
    (layer : ℕ) : Ensures (index.connect source target layer) fun connected ↦
      index.Rewired connected ∧ connected.Tidy (some (source, layer)) ∧
        (index.Exact → index.Reaches layer source → index.Reaches layer target →
          connected.Exact) := by
  rw [connect]
  refine (Ensures.self _).bind fun node hnode ↦ ensures_pure.mpr
    ⟨rewired_setNeighbors _ _, ?_, fun hexact hsource htarget ↦ ?_⟩
  · have hpadded := (h.simple source node hnode).padTo layer
    have hbounded : ∀ l list, (padTo layer node.neighbors)[l]? = some list →
        list.length ≤ index.maxNeighbors l := by
      intro l list hlist
      rcases getElem?_padTo hlist with hlist | rfl
      · exact h.bounded source node hnode l list hlist (Option.some_ne_none _).symm
      · exact Nat.zero_le _
    refine h.setNeighbors ?_ (fun l list hlist hpending ↦ ?_)
      fun _ _ _ _ ↦ (Option.some_ne_none _).symm
    · split_ifs with hmem
      · exact hpadded
      · refine hpadded.set ⟨?_, ?_⟩ layer
        · rcases getD_mem_or_eq_nil (padTo layer node.neighbors) layer with hin | hnil
          · exact List.nodup_append'.mpr ⟨(hpadded _ hin).1, List.nodup_singleton _,
              List.disjoint_singleton.mpr hmem⟩
          · rw [hnil]
            exact List.nodup_singleton _
        · rw [List.mem_append, List.mem_singleton, not_or]
          refine ⟨?_, hne⟩
          rcases getD_mem_or_eq_nil (padTo layer node.neighbors) layer with hin | hnil
          · exact (hpadded _ hin).2
          · rw [hnil]
            exact List.not_mem_nil
    · -- only the list of the layer has changed
      have hl : layer ≠ l := fun heq ↦ hpending (by rw [heq])
      split_ifs at hlist
      · exact hbounded l list hlist
      · rw [List.getElem?_set_ne hl] at hlist
        exact hbounded l list hlist
  · obtain ⟨_, hnode', hreach⟩ := hsource
    obtain rfl := Option.some.inj (hnode.symm.trans hnode')
    have hlayers := hexact.layers node (List.mem_of_getElem? hnode)
    have hpad : padTo layer node.neighbors = node.neighbors := by
      have hzero : layer + 1 - node.neighbors.length = 0 := by omega
      rw [padTo, hzero, List.replicate_zero, List.append_nil]
    have hlinks := hexact.links node (List.mem_of_getElem? hnode)
    rw [hpad]
    refine hexact.setNeighbors (fun other hother ↦ ?_) fun l list hlist j hj ↦ ?_
    · obtain rfl := Option.some.inj (hnode.symm.trans hother)
      split_ifs
      · rfl
      · exact List.length_set
    · split_ifs at hlist
      · exact hlinks l list hlist j hj
      · rw [List.getElem?_set] at hlist
        split_ifs at hlist with heq hlt
        · subst heq
          obtain rfl := Option.some.inj hlist
          rcases List.mem_append.mp hj with hj | hj
          · refine hlinks layer _ ?_ j hj
            rw [List.getD_eq_getElem?_getD, List.getElem?_eq_getElem hlt]
            rfl
          · exact List.mem_singleton.mp hj ▸ htarget
        · exact hlinks l list hlist j hj

/-- Cutting a list down to the bound of its layer. -/
theorem ensures_shrinkConnections {iid m : ℕ} (h : index.Tidy (some (iid, layer)))
    (hm : m = index.maxNeighbors layer) :
    Ensures (index.shrinkConnections K iid layer m) fun shrunk ↦
      index.Rewired shrunk ∧ shrunk.Tidy none ∧ (index.Exact → shrunk.Exact) := by
  subst hm
  rw [shrinkConnections]
  refine (Ensures.self _).bind fun node hnode ↦ ?_
  -- nothing to do when no list of the node is too long
  have hdone : (∀ list, node.neighbors[layer]? = some list →
      list.length ≤ index.maxNeighbors layer) → index.Tidy none := by
    intro hshort
    refine ⟨h.simple, fun i other hother l list hlist _ ↦ ?_⟩
    by_cases heq : (iid, layer) = (i, l)
    · obtain ⟨rfl, rfl⟩ := Prod.mk.inj heq
      obtain rfl := Option.some.inj (hnode.symm.trans hother)
      exact hshort list hlist
    · exact h.bounded i other hother l list hlist fun hsome ↦ heq (Option.some.inj hsome)
  split
  next hnone =>
    refine ensures_pure.mpr ⟨.refl _, hdone fun list hlist ↦ ?_, id⟩
    rw [hnone] at hlist
    cases hlist
  next neighborIds hlist =>
    split_ifs with hfew
    · refine ensures_pure.mpr ⟨.refl _, hdone fun list hlist' ↦ ?_, id⟩
      rw [← Option.some.inj (hlist.symm.trans hlist')]
      exact hfew
    refine (Ensures.mapM_key Prod.snd fun nId _ ↦ (Ensures.trivial _).bind fun n _ ↦
      ensures_pure.mpr rfl).bind fun scored hscored ↦ ?_
    refine (ensures_sortByDistance scored).bind fun sorted hperm ↦ ensures_pure.mpr ?_
    have hids : (sorted.map Prod.snd).Perm neighborIds := hscored ▸ hperm.map Prod.snd
    have hkept : ((sorted.take (index.maxNeighbors layer)).map Prod.snd).Sublist
        (sorted.map Prod.snd) := (List.take_sublist _ _).map _
    have hsimple := h.simple iid node hnode
    obtain ⟨hnodup, hown⟩ := hsimple neighborIds (List.mem_of_getElem? hlist)
    have hsub : ∀ j ∈ (sorted.take (index.maxNeighbors layer)).map Prod.snd, j ∈ neighborIds :=
      fun j hj ↦ hids.mem_iff.mp (hkept.subset hj)
    refine ⟨rewired_setNeighbors _ _, h.setNeighbors (hsimple.set ⟨?_, ?_⟩ layer) ?_ ?_, ?_⟩
    · exact hkept.nodup (hids.nodup_iff.mpr hnodup)
    · exact fun hin ↦ hown (hsub iid hin)
    · intro l list hl _
      rw [List.getElem?_set] at hl
      split_ifs at hl with heq
      · subst heq
        obtain rfl := Option.some.inj hl
        rw [List.length_map]
        exact List.length_take_le _ _
      · refine h.bounded iid node hnode l list hl fun hsome ↦ heq ?_
        exact (Prod.mk.inj (Option.some.inj hsome)).2
    · intro other l hother _ hsome
      exact hother (Prod.mk.inj (Option.some.inj hsome)).1.symm
    · intro hexact
      have hlinks := hexact.links node (List.mem_of_getElem? hnode)
      refine hexact.setNeighbors (fun other hother ↦ ?_) fun l list hl j hj ↦ ?_
      · obtain rfl := Option.some.inj (hnode.symm.trans hother)
        exact List.length_set
      · rw [List.getElem?_set] at hl
        split_ifs at hl with heq
        · subst heq
          obtain rfl := Option.some.inj hl
          exact hlinks layer neighborIds hlist j (hsub j hj)
        · exact hlinks l list hl j hj

/-- Connecting the chosen neighbours back to a node. -/
theorem ensures_connectBack (h : index.Tidy none) {internalId : ℕ} {chosen : ℕ × List ℕ}
    (hne : ∀ j ∈ chosen.2, j ≠ internalId) :
    Ensures (index.connectBack K internalId chosen) fun connected ↦
      index.Rewired connected ∧ connected.Tidy none ∧
        (index.Exact → (∀ j ∈ chosen.2, index.Reaches chosen.1 j) →
          index.Reaches chosen.1 internalId → connected.Exact) := by
  rw [connectBack]
  refine Ensures.foldlM (fun between j hj hbetween ↦ ?_) ⟨.refl _, h, fun hexact _ _ ↦ hexact⟩
  obtain ⟨hrewired, htidy, hexact⟩ := hbetween
  refine (ensures_connect htidy (hne j hj) chosen.1).bind ?_
  rintro connected ⟨hconnect, htidy', hexact'⟩
  refine (ensures_shrinkConnections htidy' rfl).mono ?_
  rintro shrunk ⟨hshrink, htidy'', hexact''⟩
  refine ⟨(hrewired.trans hconnect).trans hshrink, htidy'', fun hbase hall hinternal ↦ ?_⟩
  refine hexact'' (hexact' (hexact hbase hall hinternal) ?_ ?_)
  · exact hrewired.reaches.mpr (hall j hj)
  · exact hrewired.reaches.mpr hinternal

theorem ensures_connectAll (h : index.Tidy none) {internalId : ℕ}
    {layerNeighbors : List (ℕ × List ℕ)}
    (hne : ∀ chosen ∈ layerNeighbors, ∀ j ∈ chosen.2, j ≠ internalId) :
    Ensures (layerNeighbors.foldlM (fun index chosen ↦ index.connectBack K internalId chosen)
      index) fun connected ↦ index.Rewired connected ∧ connected.Tidy none ∧
        (index.Exact → (∀ chosen ∈ layerNeighbors, (∀ j ∈ chosen.2, index.Reaches chosen.1 j) ∧
          index.Reaches chosen.1 internalId) → connected.Exact) := by
  refine Ensures.foldlM (fun between chosen hchosen hbetween ↦ ?_)
    ⟨.refl _, h, fun hexact _ ↦ hexact⟩
  obtain ⟨hrewired, htidy, hexact⟩ := hbetween
  refine (ensures_connectBack htidy (hne chosen hchosen)).mono ?_
  rintro connected ⟨hconnect, htidy', hexact'⟩
  refine ⟨hrewired.trans hconnect, htidy', fun hbase hall ↦ ?_⟩
  obtain ⟨hreach, hinternal⟩ := hall chosen hchosen
  exact hexact' (hexact hbase hall) (fun j hj ↦ hrewired.reaches.mpr (hreach j hj))
    (hrewired.reaches.mpr hinternal)

end HnswIndex

end Khive.Hnsw
