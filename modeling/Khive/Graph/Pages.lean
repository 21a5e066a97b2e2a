import Khive.Foundation.StableSort
import Khive.Types.Edge

/-!
# Pages of the edges of several namespaces

Without a batched query the runtime fetches the first `offset + limit` edges of every namespace,
sorts them together and cuts the page out. Sorting a part of the edges by the key each namespace is
cut at leaves the rest of the order alone, so the page is the one of all edges unless an edge
before its end was cut off. The fetch bound saturates at `u32::MAX`, and only then can that happen.
-/

namespace Khive.Graph

/-- An edge as the merge sees it; what it only moves is the content. -/
structure Edge (Content : Type) where
  id : Id128
  createdAt : ℤ
  content : Content
deriving DecidableEq

variable {Content : Type}

/-- `(e.created_at, Uuid::from(e.id))`. -/
def sortKey (e : Edge Content) : ℤ ×ₗ Id128 := toLex (e.createdAt, e.id)

/-- `u32::MAX`. -/
def u32Max : ℕ := 2 ^ 32 - 1

/-- `KhiveRuntime::merge_paged_namespace_edges`. -/
def mergePagedNamespaceEdges (namespacePrefixes : List (List (Edge Content)))
    (offset limit : UInt32) : List (Edge Content) :=
  let results := sortOn sortKey namespacePrefixes.flatten
  let start := min offset.toNat results.length
  let stop := min (start + limit.toNat) results.length
  (results.take stop).drop start

/-- `offset.saturating_add(limit)` of the fallback in `list_edges`. -/
def fetchLimit (offset limit : UInt32) : ℕ := min (offset.toNat + limit.toNat) u32Max

/-- The fallback in `list_edges`: `query_edges` gives the first edges of each namespace. -/
def listEdgesFallback (namespaces : List (List (Edge Content))) (offset limit : UInt32) :
    List (Edge Content) :=
  mergePagedNamespaceEdges (namespaces.map fun edges ↦ edges.take (fetchLimit offset limit))
    offset limit

/-! ## The page of all edges -/

/-- All edges in the order of the pages. -/
def globalOrder (namespaces : List (List (Edge Content))) : List (Edge Content) :=
  sortOn sortKey namespaces.flatten

/-- The positions from `offset` up to `offset + limit` of all edges. -/
def globalPage (namespaces : List (List (Edge Content))) (offset limit : UInt32) :
    List (Edge Content) :=
  ((globalOrder namespaces).drop offset.toNat).take limit.toNat

section Pages

variable {namespaces : List (List (Edge Content))} {offset limit : UInt32}

/-- The clamped bounds cut out the same as the bounds themselves. -/
theorem mergePagedNamespaceEdges_eq (namespacePrefixes : List (List (Edge Content))) :
    mergePagedNamespaceEdges namespacePrefixes offset limit =
      ((sortOn sortKey namespacePrefixes.flatten).drop offset.toNat).take limit.toNat := by
  rw [mergePagedNamespaceEdges]
  generalize sortOn sortKey namespacePrefixes.flatten = results
  rcases le_total offset.toNat results.length with hle | hle
  · rw [min_eq_left hle, List.take_drop, ← List.take_eq_take_min]
  · rw [min_eq_right hle, List.drop_eq_nil_of_le hle, List.take_nil]
    exact List.drop_eq_nil_of_le (List.length_take_le' _ _)

theorem flatten_take_sublist (n : ℕ) (namespaces : List (List (Edge Content))) :
    (namespaces.map fun edges ↦ edges.take n).flatten.Sublist namespaces.flatten := by
  induction namespaces with
  | nil => exact List.Sublist.refl _
  | cons edges namespaces ih => exact (List.take_sublist n edges).append ih

/-- What is fetched is sorted as it stands among all edges. -/
theorem sortOn_fetched [DecidableEq Content] (hnodup : namespaces.flatten.Nodup) (n : ℕ) :
    sortOn sortKey (namespaces.map fun edges ↦ edges.take n).flatten =
      (globalOrder namespaces).filter fun e ↦
        decide (e ∈ (namespaces.map fun edges ↦ edges.take n).flatten) := by
  rw [globalOrder, ← sortOn_filter, filter_mem_of_sublist (flatten_take_sublist n _) hnodup]

theorem globalOrder_nodup (hnodup : namespaces.flatten.Nodup) : (globalOrder namespaces).Nodup :=
  (sortOn_perm sortKey _).nodup_iff.mpr hnodup

/-- An edge past the first `n` of its namespace stands past the first `n` of all edges. -/
theorem le_idxOf_globalOrder [DecidableEq Content] (hnodup : namespaces.flatten.Nodup)
    (hsorted : ∀ edges ∈ namespaces, SortedOn sortKey edges) {edges : List (Edge Content)}
    (hedges : edges ∈ namespaces) {n : ℕ} {e : Edge Content} (he : e ∈ edges.drop n) :
    n ≤ (globalOrder namespaces).idxOf e := by
  have hsub := List.sublist_flatten_of_mem hedges
  have hglobal := sublist_sortOn sortKey (hsorted edges hedges) hsub
  exact (le_idxOf_of_mem_drop (hnodup.sublist hsub) he).trans
    (idxOf_le_of_sublist hglobal (globalOrder_nodup hnodup) (List.mem_of_mem_drop he))

theorem mem_globalOrder {e : Edge Content} :
    e ∈ globalOrder namespaces ↔ ∃ edges ∈ namespaces, e ∈ edges := by
  rw [globalOrder, (sortOn_perm sortKey _).mem_iff, List.mem_flatten]

/-- No edge is fetched that lies past the bound of its namespace. -/
theorem not_mem_fetched (hnodup : namespaces.flatten.Nodup) {edges : List (Edge Content)}
    (hedges : edges ∈ namespaces) {n : ℕ} {e : Edge Content} (he : e ∈ edges.drop n) :
    e ∉ (namespaces.map fun edges ↦ edges.take n).flatten := by
  intro hmem
  obtain ⟨taken, htaken, he'⟩ := List.mem_flatten.mp hmem
  obtain ⟨others, hothers, rfl⟩ := List.mem_map.mp htaken
  rw [List.nodup_flatten] at hnodup
  by_cases heq : others = edges
  · subst heq
    exact List.disjoint_take_drop (hnodup.1 others hothers) le_rfl he' he
  · have hsymm : Std.Symm (List.Disjoint : List (Edge Content) → List (Edge Content) → Prop) :=
      ⟨fun _ _ h ↦ h.symm⟩
    exact hnodup.2.forall hothers hedges heq (List.mem_of_mem_take he') (List.mem_of_mem_drop he)

/-- The page is right as long as every edge before its end is fetched. -/
theorem fetched_page [DecidableEq Content] (hnodup : namespaces.flatten.Nodup) {n : ℕ}
    (hfetched : ∀ e ∈ (globalOrder namespaces).take (offset.toNat + limit.toNat),
      e ∈ (namespaces.map fun edges ↦ edges.take n).flatten) :
    mergePagedNamespaceEdges (namespaces.map fun edges ↦ edges.take n) offset limit =
      globalPage namespaces offset limit := by
  rw [mergePagedNamespaceEdges_eq, globalPage, List.take_drop, List.take_drop,
    sortOn_fetched hnodup, take_filter_of_forall fun e he ↦ decide_eq_true (hfetched e he)]

/-- Up to the bound of `u32` everything before the end of the page is fetched. -/
theorem listEdgesFallback_eq_globalPage_of (hnodup : namespaces.flatten.Nodup)
    (hsorted : ∀ edges ∈ namespaces, SortedOn sortKey edges)
    (hlimit : ∀ edges ∈ namespaces, ∀ e ∈ edges.drop u32Max,
      e ∉ (globalOrder namespaces).take (offset.toNat + limit.toNat)) :
    listEdgesFallback namespaces offset limit = globalPage namespaces offset limit := by
  classical
  refine fetched_page hnodup fun e he ↦ ?_
  obtain ⟨edges, hedges, hmem⟩ := mem_globalOrder.mp (List.mem_of_mem_take he)
  refine List.mem_flatten.mpr ⟨_, List.mem_map_of_mem hedges, ?_⟩
  rw [← List.take_append_drop (fetchLimit offset limit) edges, List.mem_append] at hmem
  refine hmem.resolve_right fun hdrop ↦ ?_
  have hlt := (List.mem_take_iff_idxOf_lt (List.mem_of_mem_take he)).mp he
  rcases le_total (offset.toNat + limit.toNat) u32Max with hle | hle
  · -- the whole page is fetched of each namespace
    rw [fetchLimit, min_eq_left hle] at hdrop
    exact absurd (le_idxOf_globalOrder hnodup hsorted hedges hdrop) (not_le.mpr hlt)
  · rw [fetchLimit, min_eq_right hle] at hdrop
    exact hlimit edges hedges e hdrop he

end Pages

/-- The fallback gives the page of all edges exactly when no edge before the end of the page lies
past the first `u32::MAX` edges of its namespace. -/
theorem listEdgesFallback_eq_globalPage_iff (namespaces : List (List (Edge Content)))
    (hnodup : namespaces.flatten.Nodup)
    (hsorted : ∀ edges ∈ namespaces, SortedOn sortKey edges) (offset limit : UInt32) :
    listEdgesFallback namespaces offset limit = globalPage namespaces offset limit ↔
      ∀ edges ∈ namespaces, ∀ e ∈ edges.drop u32Max,
        e ∉ (globalOrder namespaces).take (offset.toNat + limit.toNat) := by
  classical
  refine ⟨fun heq edges hedges e he hmem ↦ ?_, listEdgesFallback_eq_globalPage_of hnodup hsorted⟩
  -- such an edge stands in the page, since it has `u32::MAX` edges before it, and is not fetched
  have hoffset : offset.toNat ≤ u32Max := Nat.le_pred_of_lt offset.toNat_lt
  have hnot := not_mem_fetched hnodup hedges
    ((List.drop_subset_drop_left edges (min_le_right _ _ : fetchLimit offset limit ≤ u32Max)) he)
  have hpage : e ∈ globalPage namespaces offset limit := by
    rw [globalPage, List.take_drop]
    rw [← List.take_append_drop offset.toNat ((globalOrder namespaces).take _), List.mem_append,
      List.take_take, min_eq_left (Nat.le_add_right _ _)] at hmem
    refine hmem.resolve_left fun hbefore ↦ ?_
    have hlt := (List.mem_take_iff_idxOf_lt (List.mem_of_mem_take hbefore)).mp hbefore
    exact absurd (le_idxOf_globalOrder hnodup hsorted hedges he) (by omega)
  rw [← heq, listEdgesFallback, mergePagedNamespaceEdges_eq] at hpage
  have hfetched := List.mem_of_mem_drop (List.mem_of_mem_take hpage)
  exact hnot ((sortOn_perm sortKey _).mem_iff.mp hfetched)

/-- Two namespaces whose edges interleave. -/
theorem listEdgesFallback_eq_globalPage_interleaved :
    listEdgesFallback [[⟨9, 1, ()⟩, ⟨8, 3, ()⟩], [⟨1, 2, ()⟩]] 1 2 =
      globalPage [[⟨9, 1, ()⟩, ⟨8, 3, ()⟩], [⟨1, 2, ()⟩]] 1 2 :=
  (listEdgesFallback_eq_globalPage_iff [[⟨9, 1, ()⟩, ⟨8, 3, ()⟩], [⟨1, 2, ()⟩]] (by decide)
    (by decide) 1 2).mpr (by decide)

/-! ## A namespace past the bound -/

/-- A namespace of `n` edges, one after the other. -/
def ascending (n : ℕ) : List (Edge Unit) :=
  (List.range n).map fun i ↦ ⟨Fin.ofNat _ i, i, ()⟩

theorem ascending_sortKey_lt (n : ℕ) : (ascending n).Pairwise fun a b ↦ sortKey a < sortKey b := by
  rw [ascending, List.pairwise_map]
  refine List.pairwise_lt_range.imp fun {i j} hlt ↦ ?_
  exact Prod.Lex.toLex_lt_toLex.mpr (Or.inl (Int.ofNat_lt.mpr hlt))

/-- The edge past the bound is on no page, although the store has it. The other namespace, which is
empty, only brings the fallback about. -/
theorem listEdgesFallback_ascending {n : ℕ} (hn : u32Max < n) :
    listEdgesFallback [ascending n, []] 0xFFFFFFFF 1 ≠
      globalPage [ascending n, []] 0xFFFFFFFF 1 := by
  have hoffset : (0xFFFFFFFF : UInt32).toNat = u32Max := by decide
  have hflat (edges : List (Edge Unit)) : [edges, []].flatten = edges := by simp
  have hfetched : listEdgesFallback [ascending n, []] 0xFFFFFFFF 1 = [] := by
    rw [listEdgesFallback, mergePagedNamespaceEdges_eq, List.drop_eq_nil_of_le, List.take_nil]
    rw [(sortOn_perm sortKey _).length_eq, hoffset, List.map_cons, List.map_singleton,
      List.take_nil, hflat]
    exact (List.length_take_le _ _).trans (min_le_right _ _)
  have hlength : (globalPage [ascending n, []] 0xFFFFFFFF 1).length = 1 := by
    rw [globalPage, List.length_take, List.length_drop, hoffset, globalOrder,
      (sortOn_perm sortKey _).length_eq, hflat, ascending, List.length_map, List.length_range]
    exact min_eq_left (Nat.le_sub_of_add_le' hn)
  intro heq
  rw [← heq, hfetched] at hlength
  exact absurd hlength (by decide)

/-- The page of one edge at the offset `u32::MAX` of two namespaces, one of them of `2 ^ 32` edges:
two namespaces bring the fallback about, and `list_edges` caps the limit at 1000. -/
theorem not_listEdgesFallback_eq_globalPage :
    ¬∀ namespaces : List (List (Edge Unit)), 2 ≤ namespaces.length → namespaces.flatten.Nodup →
      (∀ edges ∈ namespaces, SortedOn sortKey edges) → ∀ offset limit : UInt32,
        limit.toNat ≤ 1000 →
          listEdgesFallback namespaces offset limit = globalPage namespaces offset limit := by
  intro h
  -- the number stays a variable, so that nothing enumerates the namespace
  obtain ⟨n, hn⟩ : ∃ n, n = u32Max + 1 := ⟨_, rfl⟩
  have hlt := ascending_sortKey_lt n
  refine listEdgesFallback_ascending (hn ▸ Nat.lt_succ_self u32Max)
    (h [ascending n, []] le_rfl ?_ ?_ _ 1 (by decide))
  · rw [List.flatten_cons, List.flatten_singleton, List.append_nil]
    exact hlt.imp fun hab heq ↦ absurd (congrArg sortKey heq) hab.ne
  · rintro edges hedges
    rcases List.mem_cons.mp hedges with rfl | hedges
    · exact hlt.imp fun hab ↦ hab.le
    · obtain rfl := List.mem_singleton.mp hedges
      exact List.Pairwise.nil

end Khive.Graph
