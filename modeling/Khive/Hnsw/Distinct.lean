import Khive.Foundation.Ensures
import Khive.Hnsw.Search

/-!
# What a search finds

The search of a layer finds every node once at most, since it enters a node only when it has not
seen it. It stays among the nodes that its entry point is one of, when the links of the layer lead
from such nodes to such nodes. The neighbours that are selected come from what was found, and there
are no more of them than asked for.
-/

namespace Khive.Hnsw

variable {F : Type} {K : Kernels F}

/-! ## Heaps -/

theorem subperm_dropFarthest (ef : ℕ) (results : List (F × ℕ)) :
    (dropFarthest K ef results).Subperm results := by
  rw [dropFarthest]
  split_ifs
  · rcases hpop : popFarthest K results with - | ⟨farthest, others⟩
    · exact .refl _
    · exact (List.sublist_cons_self farthest others).subperm.trans
        (perm_of_popFirst hpop).symm.subperm
  · exact .refl _

theorem nodup_of_subperm {α β : Type} {g : α → β} {l l' : List α} (h : l.Subperm l')
    (hnodup : (l'.map g).Nodup) : (l.map g).Nodup := by
  obtain ⟨between, hperm, hsublist⟩ := h
  exact ((hperm.map g).nodup_iff).mp ((hsublist.map g).nodup hnodup)

namespace HnswSearchContext

variable {ctx : HnswSearchContext F}

/-- What an offer adds is the entry at most. -/
theorem offer_results (ef : ℕ) (e : F × ℕ) :
    (ctx.offer K ef e).results.Subperm (e :: ctx.results) := by
  rw [offer]
  split_ifs
  · exact (List.sublist_cons_self e ctx.results).subperm
  · rw [updateWorst_results]
    exact subperm_dropFarthest ef _

theorem mem_candidates_of_offer {ef : ℕ} {e c : F × ℕ}
    (hc : c ∈ (ctx.offer K ef e).candidates) : c = e ∨ c ∈ ctx.candidates := by
  rw [offer] at hc
  split_ifs at hc
  · exact Or.inr hc
  · rw [updateWorst_candidates] at hc
    exact List.mem_cons.mp hc

/-- The context of a search among the nodes of `P`, before the entries of `batch` are offered. -/
structure Keeps (P : ℕ → Prop) (batch : List (F × ℕ)) (ctx : HnswSearchContext F) : Prop where
  candidates : ∀ e ∈ ctx.candidates, P e.2
  results : ∀ e ∈ ctx.results, P e.2
  visited : ∀ e ∈ ctx.results, e.2 ∈ ctx.visited
  offered : ∀ e ∈ batch, P e.2 ∧ e.2 ∈ ctx.visited
  once : ((batch ++ ctx.results).map Prod.snd).Nodup

variable {P : ℕ → Prop} {batch : List (F × ℕ)}

theorem Keeps.updateWorst (h : ctx.Keeps P batch) : (ctx.updateWorst K).Keeps P batch := by
  refine ⟨?_, ?_, ?_, ?_, ?_⟩
  · rw [updateWorst_candidates]
    exact h.candidates
  · rw [updateWorst_results]
    exact h.results
  · rw [updateWorst_results, updateWorst_visited]
    exact h.visited
  · rw [updateWorst_visited]
    exact h.offered
  · rw [updateWorst_results]
    exact h.once

theorem Keeps.offer {e : F × ℕ} (h : ctx.Keeps P (e :: batch)) (ef : ℕ) :
    (ctx.offer K ef e).Keeps P batch := by
  have hoffer : (ctx.offer K ef e).results.Subperm (e :: ctx.results) := offer_results ef e
  obtain ⟨⟨he, hvisited⟩, hrest⟩ := List.forall_mem_cons.mp h.offered
  have hresults : ∀ r ∈ (ctx.offer K ef e).results, r = e ∨ r ∈ ctx.results :=
    fun r hr ↦ List.mem_cons.mp (hoffer.subset hr)
  refine ⟨?_, ?_, ?_, ?_, ?_⟩
  · intro c hc
    rcases mem_candidates_of_offer hc with rfl | hc
    · exact he
    · exact h.candidates c hc
  · intro r hr
    rcases hresults r hr with rfl | hr
    · exact he
    · exact h.results r hr
  · intro r hr
    rw [offer_visited]
    rcases hresults r hr with rfl | hr
    · exact hvisited
    · exact h.visited r hr
  · rw [offer_visited]
    exact hrest
  · refine nodup_of_subperm ?_ h.once
    have hperm : (batch ++ e :: ctx.results).Perm (e :: batch ++ ctx.results) :=
      List.perm_middle
    exact ((List.subperm_append_left batch).mpr hoffer).trans hperm.subperm

theorem Keeps.offers (h : ctx.Keeps P batch) (ef : ℕ) :
    (batch.foldl (fun ctx e ↦ ctx.offer K ef e) ctx).Keeps P [] := by
  induction batch generalizing ctx with
  | nil => exact h
  | cons e batch ih => exact ih (h.offer ef)

end HnswSearchContext

/-! ## The search -/

/-- The links of the layer lead from nodes of `P` to nodes of `P`. -/
def HnswIndex.Closed (index : HnswIndex F) (layer : ℕ) (P : ℕ → Prop) : Prop :=
  ∀ i node, index.nodes[i]? = some node → P i → ∀ list, node.neighbors[layer]? = some list →
    ∀ j ∈ list, P j

namespace LayerSearch

variable {s : LayerSearch F} {index : HnswIndex F} {ctx : HnswSearchContext F} {P : ℕ → Prop}

/-- The batch holds neighbours that have been visited just now. -/
theorem ensures_collect (neighbors : List ℕ) :
    Ensures (s.collect K index ctx neighbors) fun acc ↦ ctx.visited ⊆ acc.1 ∧
      (∀ e ∈ acc.2, e.1 ∈ neighbors ∧ e.1 ∈ acc.1 ∧ e.1 ∉ ctx.visited) ∧
      (acc.2.map Prod.fst).Nodup := by
  refine Ensures.foldlM (fun acc j hj hacc ↦ ?_) ⟨subset_rfl, by simp, by simp⟩
  obtain ⟨hsubset, hbatch, hnodup⟩ := hacc
  rw [collectOne]
  split_ifs with hmem
  · exact ensures_pure.mpr ⟨hsubset, hbatch, hnodup⟩
  have hmore : ctx.visited ⊆ insert j acc.1 := hsubset.trans (Finset.subset_insert _ _)
  have hbatch' : ∀ e ∈ acc.2, e.1 ∈ neighbors ∧ e.1 ∈ insert j acc.1 ∧ e.1 ∉ ctx.visited :=
    fun e he ↦ ⟨(hbatch e he).1, Finset.mem_insert_of_mem (hbatch e he).2.1, (hbatch e he).2.2⟩
  refine (Ensures.trivial _).bind fun skip _ ↦ ?_
  split_ifs
  · exact ensures_pure.mpr ⟨hmore, hbatch', hnodup⟩
  · refine (Ensures.trivial _).bind fun node _ ↦ ensures_pure.mpr ⟨hmore, ?_, ?_⟩
    · intro e he
      rcases List.mem_append.mp he with he | he
      · exact hbatch' e he
      · obtain rfl := List.mem_singleton.mp he
        exact ⟨hj, Finset.mem_insert_self _ _, fun hin ↦ hmem (hsubset hin)⟩
    · rw [List.map_append, List.nodup_append']
      refine ⟨hnodup, List.nodup_singleton _, ?_⟩
      rintro i hi hsingle
      obtain rfl : i = j := List.mem_singleton.mp hsingle
      obtain ⟨e, he, rfl⟩ := List.mem_map.mp hi
      exact hmem (hbatch e he).2.1

theorem ensures_explore (hclosed : index.Closed s.layer P) (h : ctx.Keeps P []) :
    Ensures (s.explore K index ctx) (Pass.Keeps (HnswSearchContext.Keeps P [])
      (HnswSearchContext.Keeps P [])) := by
  rw [explore]
  split
  · exact ensures_pure.mpr h
  next cDist cId candidates hpop =>
    obtain ⟨hclosest, hothers⟩ := List.forall_mem_cons.mp
      fun e he ↦ h.candidates e ((perm_of_popFirst hpop).mem_iff.mpr he)
    have hpopped : { ctx with candidates := candidates }.Keeps P [] :=
      ⟨hothers, h.results, h.visited, h.offered, h.once⟩
    dsimp only
    split_ifs
    · exact ensures_pure.mpr hpopped
    refine (Ensures.self _).bind fun node hnode ↦ ?_
    split
    · exact ensures_pure.mpr hpopped
    next neighbors hneighbors =>
      refine (ensures_collect neighbors).bind ?_
      rintro ⟨visited, batch⟩ ⟨hsubset, hbatch, hnodup⟩
      have hids := map_snd_distances (K := K) (s := s) index.config.metric batch
      have hmem : ∀ e ∈ s.distances K index.config.metric batch,
          e.2 ∈ neighbors ∧ e.2 ∈ visited ∧ e.2 ∉ ctx.visited := by
        intro e he
        have hmem : e.2 ∈ batch.map Prod.fst := hids ▸ List.mem_map_of_mem he
        obtain ⟨b, hb, hbe⟩ := List.mem_map.mp hmem
        exact hbe ▸ hbatch b hb
      have honce : ((s.distances K index.config.metric batch ++ ctx.results).map
          Prod.snd).Nodup := by
        -- what is new has not been visited, and the results have
        rw [List.map_append, hids, List.nodup_append']
        refine ⟨hnodup, h.once, ?_⟩
        intro i hi hresult
        obtain ⟨b, hb, rfl⟩ := List.mem_map.mp hi
        obtain ⟨e, he, heq⟩ := List.mem_map.mp hresult
        exact (hbatch b hb).2.2 (heq ▸ h.visited e he)
      have hmet : { ctx with candidates := candidates, visited := visited }.Keeps P
          (s.distances K index.config.metric batch) :=
        ⟨hothers, h.results, fun e he ↦ hsubset (h.visited e he), fun e he ↦
          ⟨hclosed cId node hnode hclosest neighbors hneighbors _ (hmem e he).1, (hmem e he).2.1⟩,
          honce⟩
      exact ensures_pure.mpr (hmet.offers s.ef)

/-- The search starts from its entry point. -/
theorem ensures_enter {ep : ℕ} (hep : P ep) :
    Ensures (s.enter K index ⟨[], [], [ep].toFinset, K.maxValue⟩ ep)
      (HnswSearchContext.Keeps P []) := by
  rw [enter]
  split_ifs
  · exact ensures_pure.mpr ⟨by simp, by simp, by simp, by simp, by simp⟩
  · refine (Ensures.trivial _).bind fun node _ ↦ ensures_pure.mpr ?_
    have hone : ∀ e ∈ [s.distanceTo K index.config.metric (ep, node.vector, node.norm)],
        e.2 = ep := List.forall_mem_singleton.mpr rfl
    exact ⟨fun e he ↦ hone e he ▸ hep, fun e he ↦ hone e he ▸ hep,
      fun e he ↦ List.mem_toFinset.mpr (List.mem_singleton.mpr (hone e he)), by simp,
      List.nodup_singleton _⟩

end LayerSearch

namespace HnswIndex

variable {index : HnswIndex F} {P : ℕ → Prop}

theorem ensures_sortByDistance (scored : List (F × ℕ)) :
    Ensures (index.sortByDistance K scored) fun sorted ↦ sorted.Perm scored := by
  rw [sortByDistance]
  refine (Ensures.mapM_key Prod.fst fun e _ ↦ ensures_map.mpr fun _ _ ↦ rfl).bind
    fun keyed hkeyed ↦ ensures_pure.mpr ?_
  have hperm := (List.mergeSort_perm keyed fun a b ↦
    ((K.orderedCmp a.1.1 b.1.1).then (compare a.2 b.2)).isLE).map Prod.fst
  rwa [hkeyed] at hperm

/-- What a list of entries is when they name nodes of `P`, each once. -/
def Found (P : ℕ → Prop) (found : List (F × ℕ)) : Prop :=
  (∀ e ∈ found, P e.2) ∧ (found.map Prod.snd).Nodup

theorem Found.of_perm {found sorted : List (F × ℕ)} (h : Found P found)
    (hperm : sorted.Perm found) : Found P sorted :=
  ⟨fun e he ↦ h.1 e (hperm.mem_iff.mp he), ((hperm.map Prod.snd).nodup_iff).mpr h.2⟩

/-- **The search of a layer** finds each node once, and stays among the nodes of `P`. -/
theorem ensures_searchLayer (query : List F) (queryNorm : F) {ep layer : ℕ} (hep : P ep)
    (hclosed : index.Closed layer P) (ef : ℕ) :
    Ensures (index.searchLayer K query queryNorm [ep] ef layer) (Found P) := by
  rw [searchLayer, searchLayerInner]
  refine Ensures.bind (P := HnswSearchContext.Keeps P []) ?_ fun start hstart ↦ ?_
  · rw [List.foldlM_cons]
    exact (LayerSearch.ensures_enter hep).bind fun ctx hctx ↦ ensures_pure.mpr hctx
  · refine (ensures_loop (fun ctx hctx ↦ LayerSearch.ensures_explore hclosed hctx)
      hstart.updateWorst _).bind fun ctx hctx ↦ ?_
    refine (ensures_sortByDistance ctx.results).mono fun sorted hperm ↦ ?_
    exact Found.of_perm ⟨hctx.results, hctx.once⟩ hperm

/-! ## Selecting neighbours -/

/-- What has been selected, before the entries of `rest` are looked at. -/
structure Selected (P : ℕ → Prop) (m : ℕ) (rest selected : List (F × ℕ)) : Prop where
  ahead : ∀ e ∈ rest, P e.2
  found : Found P selected
  bound : selected.length ≤ m

/-- No entry is selected before it is looked at. -/
def Apart (rest selected : List (F × ℕ)) : Prop := ((rest ++ selected).map Prod.snd).Nodup

theorem ensures_selectDiverse {m : ℕ} {e : F × ℕ} {rest selected : List (F × ℕ)}
    (h : Selected P m (e :: rest) selected) (hapart : Apart (e :: rest) selected) :
    Ensures (index.selectDiverse K m selected e) fun selected ↦
      Selected P m rest selected ∧ Apart rest selected := by
  obtain ⟨he, hrest⟩ := List.forall_mem_cons.mp h.ahead
  have hskip : Selected P m rest selected ∧ Apart rest selected :=
    ⟨⟨hrest, h.found, h.bound⟩, (List.nodup_cons.mp hapart).2⟩
  rw [selectDiverse]
  by_cases hfull : m ≤ selected.length
  · rw [if_pos hfull]
    exact ensures_pure.mpr hskip
  rw [if_neg hfull]
  have htake : Selected P m rest (selected ++ [e]) ∧ Apart rest (selected ++ [e]) := by
    have hperm : ((selected ++ [e]).map Prod.snd).Perm ((e :: selected).map Prod.snd) :=
      (List.perm_append_singleton e selected).map Prod.snd
    have hall : (rest ++ (selected ++ [e])).Perm (e :: rest ++ selected) := by
      rw [← List.append_assoc]
      exact List.perm_append_singleton _ _
    have hapart' : Apart rest (selected ++ [e]) := ((hall.map Prod.snd).nodup_iff).mpr hapart
    refine ⟨⟨hrest, ⟨?_, ?_⟩, ?_⟩, hapart'⟩
    · exact List.forall_mem_append.mpr ⟨h.found.1, List.forall_mem_singleton.mpr he⟩
    · rw [Apart, List.map_append, List.nodup_append'] at hapart'
      exact hapart'.2.1
    · rw [List.length_append, List.length_singleton]
      omega
  refine (Ensures.trivial _).bind fun candidate _ ↦ (Ensures.trivial _).bind fun diverse _ ↦ ?_
  cases diverse with
  | true => exact ensures_pure.mpr htake
  | false =>
    refine ensures_pure.mpr ?_
    split_ifs with hnone
    · obtain rfl := List.isEmpty_iff.mp hnone
      exact htake
    · exact hskip

theorem selected_fill {m : ℕ} {rest selected : List (F × ℕ)} (h : Selected P m rest selected) :
    Selected P m [] (rest.foldl (fill m) selected) := by
  induction rest generalizing selected with
  | nil => exact h
  | cons e rest ih =>
    obtain ⟨he, hrest⟩ := List.forall_mem_cons.mp h.ahead
    refine ih ?_
    rw [fill]
    split_ifs with hskip
    · exact ⟨hrest, h.found, h.bound⟩
    · rw [not_or, not_le] at hskip
      refine ⟨hrest, ⟨?_, ?_⟩, ?_⟩
      · exact List.forall_mem_append.mpr ⟨h.found.1, List.forall_mem_singleton.mpr he⟩
      · rw [List.map_append, List.nodup_append']
        refine ⟨h.found.2, List.nodup_singleton _, fun i hi hsingle ↦ hskip.2 ?_⟩
        obtain rfl : i = e.2 := List.mem_singleton.mp hsingle
        exact hi
      · rw [List.length_append, List.length_singleton]
        omega

/-- **The neighbours selected** are no more than asked for, each once. -/
theorem ensures_selectNeighbors {candidates : List (F × ℕ)} (h : Found P candidates) (m : ℕ) :
    Ensures (index.selectNeighbors K candidates m) fun ids ↦
      (∀ j ∈ ids, P j) ∧ ids.Nodup ∧ ids.length ≤ m := by
  rw [selectNeighbors]
  split_ifs with hfew
  · refine ensures_some.mpr ⟨List.forall_mem_map.mpr h.1, h.2, ?_⟩
    rwa [List.length_map]
  refine (ensures_sortByDistance candidates).bind fun sorted hperm ↦ ?_
  have hsorted := h.of_perm hperm
  have hstart : Selected P m sorted [] ∧ Apart sorted ([] : List (F × ℕ)) := by
    refine ⟨⟨hsorted.1, ⟨by simp, by simp⟩, Nat.zero_le _⟩, ?_⟩
    rw [Apart, List.append_nil]
    exact hsorted.2
  have hdiverse : Ensures (sorted.foldlM (index.selectDiverse K m) []) _ :=
    @Ensures.foldlM_rest _ _ _ (fun rest selected ↦ Selected P m rest selected ∧
      Apart rest selected) sorted (fun selected e rest hboth ↦
        ensures_selectDiverse hboth.1 hboth.2) [] hstart
  refine hdiverse.bind fun selected hselected ↦ ensures_pure.mpr ?_
  have hfill : Selected P m [] (sorted.foldl (fill m) selected) :=
    selected_fill ⟨hsorted.1, hselected.1.found, hselected.1.bound⟩
  refine ⟨List.forall_mem_map.mpr hfill.found.1, hfill.found.2, ?_⟩
  rw [List.length_map]
  exact hfill.bound

end HnswIndex

end Khive.Hnsw
