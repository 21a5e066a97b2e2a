import Khive.Hnsw.Index

/-!
# Searching a layer

The search of a layer keeps the candidates it has still to explore, the best results so far and the
nodes it has seen. It goes on from the closest candidate until that one is farther off than all
results. A node becomes a candidate once at most, which bounds the passes.
-/

namespace Khive.Hnsw

variable {F : Type}

/-! ## Heaps -/

section Heap

variable {α : Type} (before : α → α → Bool)

/-- Take an element out that no other one is before. -/
def popFirst : List α → Option (α × List α)
  | [] => none
  | a :: rest =>
    match popFirst rest with
    | none => some (a, [])
    | some (b, others) => if before b a then some (b, a :: others) else some (a, rest)

variable {before}

theorem popFirst_eq_none {l : List α} : popFirst before l = none ↔ l = [] := by
  cases l with
  | nil => exact iff_of_true rfl rfl
  | cons a rest =>
    refine iff_of_false (fun h ↦ ?_) (List.cons_ne_nil _ _)
    rw [popFirst] at h
    split at h
    · cases h
    · split_ifs at h

theorem perm_of_popFirst {l : List α} {a : α} {others : List α}
    (h : popFirst before l = some (a, others)) : l.Perm (a :: others) := by
  induction l generalizing a others with
  | nil => cases h
  | cons c rest ih =>
    rw [popFirst] at h
    split at h
    next hrest =>
      obtain rfl := popFirst_eq_none.mp hrest
      cases h
      exact .refl _
    next b rest' hrest =>
      split_ifs at h
      · -- the first of the rest goes out, and `c` stays
        cases h
        exact ((ih hrest).cons c).trans (.swap _ _ _)
      · cases h
        exact .refl _

end Heap

/-! ## The search -/

variable (K : Kernels F)

/-- The order of the entries of a heap: by distance, then by number. -/
def heapCmp (a b : F × ℕ) : Ordering := (K.orderedCmp a.1 b.1).then (compare a.2 b.2)

def popClosest : List (F × ℕ) → Option ((F × ℕ) × List (F × ℕ)) :=
  popFirst fun a b ↦ heapCmp K a b == .lt

def popFarthest : List (F × ℕ) → Option ((F × ℕ) × List (F × ℕ)) :=
  popFirst fun a b ↦ heapCmp K a b == .gt

/-- Let the farthest entry go where there are too many. -/
def dropFarthest (ef : ℕ) (results : List (F × ℕ)) : List (F × ℕ) :=
  if ef < results.length then ((popFarthest K results).map Prod.snd).getD results else results

structure HnswSearchContext (F : Type) where
  candidates : List (F × ℕ)
  results : List (F × ℕ)
  visited : Finset ℕ
  /-- The distance of the farthest result. -/
  worstDist : F

/-- What stays the same while a layer is searched. -/
structure LayerSearch (F : Type) where
  query : List F
  queryNorm : F
  ef : ℕ
  layer : ℕ
  checkTombstones : Bool
  /-- The quantized query and its factor, where the filter on the arena is on. -/
  quantQuery : Option (List ℤ × F)

namespace HnswSearchContext

variable (ctx : HnswSearchContext F)

def push (e : F × ℕ) : HnswSearchContext F :=
  { ctx with candidates := e :: ctx.candidates, results := e :: ctx.results }

/-- Look at the farthest result. -/
def updateWorst : HnswSearchContext F :=
  match popFarthest K ctx.results with
  | some ((dist, _), _) => { ctx with worstDist := dist }
  | none => ctx

/-- A candidate with its distance, which is dropped where there are results enough and it is
farther off than all of them. -/
def offer (ef : ℕ) (e : F × ℕ) : HnswSearchContext F :=
  if ef ≤ ctx.results.length ∧ K.gt e.1 ctx.worstDist then ctx
  else
    let pushed := ctx.push e
    { pushed with results := dropFarthest K ef pushed.results }.updateWorst K

end HnswSearchContext

namespace LayerSearch

variable (s : LayerSearch F) (index : HnswIndex F)

/-- Whether a node is passed over that is met for the first time. -/
def skips (ctx : HnswSearchContext F) (neighborId : ℕ) : Option Bool :=
  if s.checkTombstones && index.isTombstoned neighborId then some true
  else
    match s.quantQuery with
    | some (queryI8, queryScale) =>
      if s.ef ≤ ctx.results.length then
        (index.quantized.cosineDistanceApprox K neighborId queryI8 queryScale s.queryNorm).map
          fun approx ↦ K.clearlyWorse approx ctx.worstDist
      else some false
    | none => some false

/-- Collect a neighbour that has not been visited. -/
def collectOne (ctx : HnswSearchContext F) (acc : Finset ℕ × List (ℕ × List F × F))
    (neighborId : ℕ) : Option (Finset ℕ × List (ℕ × List F × F)) := do
  if neighborId ∈ acc.1 then return acc
  if ← s.skips K index ctx neighborId then return (insert neighborId acc.1, acc.2)
  let neighbor ← index.nodes[neighborId]?
  return (insert neighborId acc.1, acc.2 ++ [(neighborId, neighbor.vector, neighbor.norm)])

def collect (ctx : HnswSearchContext F) (neighbors : List ℕ) :
    Option (Finset ℕ × List (ℕ × List F × F)) :=
  neighbors.foldlM (s.collectOne K index ctx) (ctx.visited, [])

def distanceTo (metric : DistanceMetric) (e : ℕ × List F × F) : F × ℕ :=
  (K.distance metric s.query s.queryNorm e.2.1 e.2.2, e.1)

/-- The distances of a batch, four at a time for the metrics on products. -/
def distances (metric : DistanceMetric) : List (ℕ × List F × F) → List (F × ℕ)
  | (id₀, c₀) :: (id₁, c₁) :: (id₂, c₂) :: (id₃, c₃) :: rest =>
    if metric ≠ .l2 ∧ ∀ c ∈ [c₀, c₁, c₂, c₃], c.1.length = s.query.length then
      let dists := K.distanceBatch4 metric s.query s.queryNorm #v[c₀, c₁, c₂, c₃]
      dists.toList.zip [id₀, id₁, id₂, id₃] ++ distances metric rest
    else ((id₀, c₀) :: (id₁, c₁) :: (id₂, c₂) :: (id₃, c₃) :: rest).map (s.distanceTo K metric)
  | batch => batch.map (s.distanceTo K metric)

/-- Explore the closest candidate. -/
def explore (ctx : HnswSearchContext F) :
    Option (Pass (HnswSearchContext F) (HnswSearchContext F)) :=
  match popClosest K ctx.candidates with
  | none => pure (.leave ctx)
  | some ((cDist, cId), candidates) =>
    let ctx := { ctx with candidates := candidates }
    if K.gt cDist ctx.worstDist && decide (s.ef ≤ ctx.results.length) then pure (.leave ctx)
    else do
      let node ← index.nodes[cId]?
      match node.neighbors[s.layer]? with
      | none => pure (.again ctx)
      | some neighbors => do
        let (visited, batch) ← s.collect K index ctx neighbors
        let met := { ctx with visited := visited }
        pure (.again ((s.distances K index.config.metric batch).foldl
          (fun ctx e ↦ ctx.offer K s.ef e) met))

/-- Start from an entry point. -/
def enter (ctx : HnswSearchContext F) (ep : ℕ) : Option (HnswSearchContext F) :=
  if s.checkTombstones && index.isTombstoned ep then pure ctx
  else do
    let node ← index.nodes[ep]?
    pure (ctx.push (s.distanceTo K index.config.metric (ep, node.vector, node.norm)))

end LayerSearch

namespace HnswIndex

variable (index : HnswIndex F)

def searchLayerInner (query : List F) (queryNorm : F) (entryPoints : List ℕ) (ef layer : ℕ)
    (filterTombstones : Bool) : Option (List (F × ℕ)) := do
  let useQuant := index.useQuantized && decide (layer = 0) &&
    decide (index.config.metric = .cosine) && !index.quantized.entries.isEmpty
  let s : LayerSearch F :=
    { query := query
      queryNorm := queryNorm
      ef := ef
      layer := layer
      checkTombstones := filterTombstones && decide (0 < index.tombstoneCount)
      quantQuery := if useQuant then some (K.quantize query, K.quantScale query) else none }
  let start ← entryPoints.foldlM (s.enter K index) ⟨[], [], entryPoints.toFinset, K.maxValue⟩
  -- a pass takes a candidate away, and a node becomes one at most once
  let ctx ← loop (s.explore K index) (entryPoints.length + index.nodes.length + 1)
    (start.updateWorst K)
  index.sortByDistance K ctx.results

def searchLayer (query : List F) (queryNorm : F) (entryPoints : List ℕ) (ef layer : ℕ) :
    Option (List (F × ℕ)) :=
  index.searchLayerInner K query queryNorm entryPoints ef layer false

/-! ## Selecting neighbours -/

/-- Whether a candidate is as close to the query as to every selected one. -/
def isDiverse (selected : List (F × ℕ)) (distToQuery : F) (candidate : HnswNode F) : Option Bool :=
  selected.allM fun e ↦ do
    let selNode ← index.nodes[e.2]?
    let distToSelected := K.orderingDistance index.config.metric candidate.vector candidate.norm
      selNode.vector selNode.norm
    pure (K.le distToQuery distToSelected)

def selectDiverse (m : ℕ) (selected : List (F × ℕ)) (e : F × ℕ) : Option (List (F × ℕ)) := do
  if m ≤ selected.length then return selected
  let candidate ← index.nodes[e.2]?
  if ← index.isDiverse K selected e.1 candidate then return selected ++ [e]
  else return if selected.isEmpty then [e] else selected

/-- Take the closest of the rest where the diverse ones are too few. -/
def fill (m : ℕ) (selected : List (F × ℕ)) (e : F × ℕ) : List (F × ℕ) :=
  if m ≤ selected.length ∨ e.2 ∈ selected.map Prod.snd then selected else selected ++ [e]

def selectNeighbors (candidates : List (F × ℕ)) (m : ℕ) : Option (List ℕ) :=
  if candidates.length ≤ m then some (candidates.map Prod.snd)
  else do
    let sorted ← index.sortByDistance K candidates
    let selected ← sorted.foldlM (index.selectDiverse K m) []
    pure ((sorted.foldl (fill m) selected).map Prod.snd)

end HnswIndex

/-! ## Reading within bounds -/

/-- The index holds together well enough to be read: the tables have an entry for each node, and
the neighbours of a node are nodes. -/
structure HnswIndex.Readable (index : HnswIndex F) : Prop where
  ids : index.internalToId.length = index.nodes.length
  neighbors : ∀ node ∈ index.nodes, ∀ list ∈ node.neighbors, ∀ j ∈ list, j < index.nodes.length
  entries : index.quantized.entries.length = index.nodes.length
  data : index.quantized.data.length =
    index.quantized.entries.length * index.quantized.dims

theorem QuantizedArena.returns_getData {arena : QuantizedArena F}
    (h : arena.data.length = arena.entries.length * arena.dims) {idx : ℕ}
    (hidx : idx < arena.entries.length) : Returns (arena.getData idx) fun _ ↦ True := by
  have hbound : idx * arena.dims + arena.dims ≤ arena.data.length := by
    rw [h, ← Nat.succ_mul]
    exact Nat.mul_le_mul_right _ hidx
  rw [getData, if_pos hbound]
  exact returns_some.mpr trivial

/-- The entries of the list name nodes. -/
def InRange (n : ℕ) (l : List (F × ℕ)) : Prop := ∀ e ∈ l, e.2 < n

theorem InRange.of_perm {n : ℕ} {l l' : List (F × ℕ)} (h : InRange n l) (hperm : l.Perm l') :
    InRange n l' := fun e he ↦ h e (hperm.mem_iff.mpr he)

theorem InRange.cons {n : ℕ} {l : List (F × ℕ)} {e : F × ℕ} (h : InRange n l) (he : e.2 < n) :
    InRange n (e :: l) := List.forall_mem_cons.mpr ⟨he, h⟩

theorem InRange.dropFarthest {K : Kernels F} {n : ℕ} {l : List (F × ℕ)} (h : InRange n l)
    (ef : ℕ) : InRange n (dropFarthest K ef l) := by
  rw [Hnsw.dropFarthest]
  split_ifs
  · rcases hpop : popFarthest K l with _ | ⟨farthest, others⟩
    · exact h
    · exact (List.forall_mem_cons.mp (h.of_perm (perm_of_popFirst hpop))).2
  · exact h

/-- What holds of the context at every moment of a search among `n` nodes. -/
structure HnswSearchContext.Valid (n : ℕ) (ctx : HnswSearchContext F) : Prop where
  candidates : InRange n ctx.candidates
  results : InRange n ctx.results
  visited : ctx.visited ⊆ Finset.range n

/-- The candidates, and the nodes that may still become one. -/
def HnswSearchContext.toExplore (n : ℕ) (ctx : HnswSearchContext F) : ℕ :=
  ctx.candidates.length + (n - ctx.visited.card)

namespace HnswSearchContext

variable {K} {ctx : HnswSearchContext F} {n : ℕ}

theorem Valid.push (h : ctx.Valid n) {e : F × ℕ} (he : e.2 < n) : (ctx.push e).Valid n :=
  ⟨h.candidates.cons he, h.results.cons he, h.visited⟩

theorem updateWorst_candidates : (ctx.updateWorst K).candidates = ctx.candidates := by
  rw [updateWorst]
  split <;> rfl

theorem updateWorst_visited : (ctx.updateWorst K).visited = ctx.visited := by
  rw [updateWorst]
  split <;> rfl

theorem updateWorst_results : (ctx.updateWorst K).results = ctx.results := by
  rw [updateWorst]
  split <;> rfl

theorem Valid.updateWorst (h : ctx.Valid n) : (ctx.updateWorst K).Valid n := by
  refine ⟨?_, ?_, ?_⟩
  · rw [updateWorst_candidates]
    exact h.candidates
  · rw [updateWorst_results]
    exact h.results
  · rw [updateWorst_visited]
    exact h.visited

theorem Valid.offer (h : ctx.Valid n) (ef : ℕ) {e : F × ℕ} (he : e.2 < n) :
    (ctx.offer K ef e).Valid n := by
  have hpush := h.push he
  rw [HnswSearchContext.offer]
  split_ifs
  · exact h
  · exact Valid.updateWorst ⟨hpush.candidates, hpush.results.dropFarthest ef, hpush.visited⟩

theorem offer_visited (ef : ℕ) (e : F × ℕ) : (ctx.offer K ef e).visited = ctx.visited := by
  rw [offer]
  split_ifs
  · rfl
  · exact updateWorst_visited

theorem offer_candidates_le (ef : ℕ) (e : F × ℕ) :
    (ctx.offer K ef e).candidates.length ≤ ctx.candidates.length + 1 := by
  rw [offer]
  split_ifs
  · exact Nat.le_succ _
  · rw [updateWorst_candidates]
    exact le_rfl

/-- Offering a batch makes each of its entries a candidate at most. -/
theorem Valid.offers (h : ctx.Valid n) (ef : ℕ) {batch : List (F × ℕ)} (hbatch : InRange n batch) :
    (batch.foldl (fun ctx e ↦ ctx.offer K ef e) ctx).Valid n ∧
      (batch.foldl (fun ctx e ↦ ctx.offer K ef e) ctx).visited = ctx.visited ∧
      (batch.foldl (fun ctx e ↦ ctx.offer K ef e) ctx).candidates.length ≤
        ctx.candidates.length + batch.length := by
  induction batch generalizing ctx with
  | nil => exact ⟨h, rfl, le_rfl⟩
  | cons e batch ih =>
    obtain ⟨he, hrest⟩ := List.forall_mem_cons.mp hbatch
    obtain ⟨hvalid, hvisited, hlength⟩ := ih (h.offer ef he) hrest
    refine ⟨hvalid, hvisited.trans (offer_visited ef e), hlength.trans ?_⟩
    have hone : (ctx.offer K ef e).candidates.length ≤ ctx.candidates.length + 1 :=
      offer_candidates_le ef e
    rw [List.length_cons]
    omega

end HnswSearchContext

namespace LayerSearch

variable {K} {s : LayerSearch F} {index : HnswIndex F} {ctx : HnswSearchContext F}

theorem map_snd_distances (metric : DistanceMetric) (batch : List (ℕ × List F × F)) :
    (s.distances K metric batch).map Prod.snd = batch.map Prod.fst := by
  induction batch using distances.induct K s metric with
  | case1 id₀ c₀ id₁ c₁ id₂ c₂ id₃ c₃ rest h ih =>
    rw [distances, if_pos h, List.map_append, ih, List.map_snd_zip (by simp)]
    rfl
  | case2 id₀ c₀ id₁ c₁ id₂ c₂ id₃ c₃ rest h =>
    rw [distances, if_neg h, List.map_map]
    rfl
  | case3 batch h =>
    rw [distances, List.map_map]
    · rfl
    · exact h

theorem returns_skips (h : index.Readable) {neighborId : ℕ}
    (hneighbor : neighborId < index.nodes.length) :
    Returns (s.skips K index ctx neighborId) fun _ ↦ True := by
  rw [skips]
  by_cases hdead : (s.checkTombstones && index.isTombstoned neighborId) = true
  · rw [if_pos hdead]
    exact returns_some.mpr trivial
  · rw [if_neg hdead]
    split
    · split_ifs
      · rw [returns_map, QuantizedArena.cosineDistanceApprox]
        have hentry : neighborId < index.quantized.entries.length := by rwa [h.entries]
        refine (Returns.getElem? hentry).bind fun entry _ ↦ ?_
        refine (QuantizedArena.returns_getData h.data hentry).bind fun data _ ↦ ?_
        exact returns_pure.mpr trivial
      · exact returns_some.mpr trivial
    · exact returns_some.mpr trivial

/-- What is collected has been visited now, and each node is collected once at most. -/
theorem returns_collect (h : index.Readable) (hctx : ctx.visited ⊆ Finset.range index.nodes.length)
    {neighbors : List ℕ} (hneighbors : ∀ j ∈ neighbors, j < index.nodes.length) :
    Returns (s.collect K index ctx neighbors) fun acc ↦
      acc.1 ⊆ Finset.range index.nodes.length ∧
        acc.2.length + ctx.visited.card ≤ acc.1.card ∧
        ∀ e ∈ acc.2, e.1 < index.nodes.length := by
  refine Returns.foldlM (fun acc j hj hacc ↦ ?_) ⟨hctx, by simp, by simp⟩
  obtain ⟨hsubset, hcard, hbatch⟩ := hacc
  have hlt := hneighbors j hj
  rw [collectOne]
  split_ifs with hmem
  · exact returns_pure.mpr ⟨hsubset, hcard, hbatch⟩
  · have hinsert : insert j acc.1 ⊆ Finset.range index.nodes.length :=
      Finset.insert_subset (Finset.mem_range.mpr hlt) hsubset
    have hmore := Finset.card_insert_of_notMem hmem
    refine (returns_skips h hlt).bind fun skip _ ↦ ?_
    split_ifs
    · refine returns_pure.mpr ⟨hinsert, ?_, hbatch⟩
      show acc.2.length + ctx.visited.card ≤ (insert j acc.1).card
      omega
    · refine (Returns.getElem? hlt).bind fun node _ ↦ returns_pure.mpr ⟨hinsert, ?_, ?_⟩
      · show (acc.2 ++ [_]).length + ctx.visited.card ≤ (insert j acc.1).card
        rw [List.length_append, List.length_singleton]
        omega
      · intro e he
        rcases List.mem_append.mp he with he | he
        · exact hbatch e he
        · obtain rfl := List.mem_singleton.mp he
          exact hlt

/-- **A pass through the search**: it reads nodes of the index only, and brings the number of
nodes that are left to explore down. -/
theorem returns_explore (h : index.Readable) (hctx : ctx.Valid index.nodes.length) :
    Returns (s.explore K index ctx) (Pass.Satisfies (HnswSearchContext.Valid index.nodes.length)
      (HnswSearchContext.toExplore index.nodes.length)
      (HnswSearchContext.Valid index.nodes.length)
      (ctx.toExplore index.nodes.length)) := by
  rw [explore]
  split
  · exact returns_pure.mpr hctx
  next cDist cId candidates hpop =>
    have hperm := perm_of_popFirst hpop
    have hlength : ctx.candidates.length = candidates.length + 1 := hperm.length_eq
    obtain ⟨hclosest, hothers⟩ := List.forall_mem_cons.mp (hctx.candidates.of_perm hperm)
    have hpopped : { ctx with candidates := candidates }.Valid index.nodes.length :=
      ⟨hothers, hctx.results, hctx.visited⟩
    dsimp only
    split_ifs
    · exact returns_pure.mpr hpopped
    · refine (Returns.getElem? hclosest).bind fun node hnode ↦ ?_
      split
      · refine returns_pure.mpr ⟨hpopped, ?_⟩
        show candidates.length + (_ - ctx.visited.card) < ctx.candidates.length + _
        omega
      next neighbors hneighbors =>
        have hbounds := h.neighbors node (List.mem_of_getElem? hnode) neighbors
          (List.mem_of_getElem? hneighbors)
        refine (returns_collect h hctx.visited hbounds).bind ?_
        rintro ⟨visited, batch⟩ ⟨hvisited, hcard, hbatch⟩
        have hids := map_snd_distances (K := K) (s := s) index.config.metric batch
        have hinrange : InRange index.nodes.length
            (s.distances K index.config.metric batch) := by
          intro e he
          have hmem : e.2 ∈ batch.map Prod.fst := hids ▸ List.mem_map_of_mem he
          obtain ⟨b, hb, hbe⟩ := List.mem_map.mp hmem
          exact hbe ▸ hbatch b hb
        have hmet : { ctx with candidates := candidates, visited := visited }.Valid
            index.nodes.length := ⟨hothers, hctx.results, hvisited⟩
        obtain ⟨hvalid, hsame, hmany⟩ := hmet.offers (K := K) s.ef hinrange
        refine returns_pure.mpr ⟨hvalid, ?_⟩
        have hbatchlength := congrArg List.length hids
        rw [List.length_map, List.length_map] at hbatchlength
        have hmax := Finset.card_le_card hvisited
        rw [Finset.card_range] at hmax
        -- what the batch adds to the candidates it takes from the nodes not visited
        rw [HnswSearchContext.toExplore, HnswSearchContext.toExplore, hsame]
        dsimp only at hmax hmany hcard ⊢
        omega

end LayerSearch

namespace HnswIndex.Readable

variable {K} {index : HnswIndex F}

theorem returns_sortByDistance (hids : index.internalToId.length = index.nodes.length)
    {scored : List (F × ℕ)} (hscored : InRange index.nodes.length scored) :
    Returns (index.sortByDistance K scored) fun sorted ↦ sorted.Perm scored := by
  rw [sortByDistance]
  refine (Returns.mapM_key Prod.fst fun e he ↦ returns_map.mpr ?_).bind fun keyed hkeyed ↦
    returns_pure.mpr ?_
  · have hlt : e.2 < index.internalToId.length := hids ▸ hscored e he
    exact (Returns.getElem? hlt).mono fun _ _ ↦ rfl
  have hperm := (List.mergeSort_perm keyed fun a b ↦
    ((K.orderedCmp a.1.1 b.1.1).then (compare a.2 b.2)).isLE).map Prod.fst
  rwa [hkeyed] at hperm

theorem returns_enter (s : LayerSearch F) {entryPoints : List ℕ}
    (hentry : ∀ ep ∈ entryPoints, ep < index.nodes.length) {ctx : HnswSearchContext F}
    (hctx : ctx.Valid index.nodes.length) :
    Returns (entryPoints.foldlM (s.enter K index) ctx) fun start ↦
      start.Valid index.nodes.length ∧
        start.candidates.length ≤ ctx.candidates.length + entryPoints.length := by
  induction entryPoints generalizing ctx with
  | nil => exact returns_pure.mpr ⟨hctx, le_rfl⟩
  | cons ep entryPoints ih =>
    obtain ⟨hep, hrest⟩ := List.forall_mem_cons.mp hentry
    have hone : Returns (s.enter K index ctx ep) fun next ↦ next.Valid index.nodes.length ∧
        next.candidates.length ≤ ctx.candidates.length + 1 := by
      rw [LayerSearch.enter]
      split_ifs
      · exact returns_pure.mpr ⟨hctx, Nat.le_succ _⟩
      · refine (Returns.getElem? hep).bind fun node _ ↦ returns_pure.mpr ?_
        exact ⟨hctx.push hep, le_rfl⟩
    rw [List.foldlM_cons]
    refine hone.bind ?_
    rintro next ⟨hnext, hlength⟩
    refine (ih hrest hnext).mono ?_
    rintro start ⟨hstart, hmany⟩
    refine ⟨hstart, hmany.trans ?_⟩
    rw [List.length_cons]
    omega

/-- **The search of a layer ends**, and what it finds are nodes. -/
theorem returns_searchLayer (h : index.Readable) (query : List F) (queryNorm : F)
    {entryPoints : List ℕ} (hentry : ∀ ep ∈ entryPoints, ep < index.nodes.length)
    (ef layer : ℕ) :
    Returns (index.searchLayer K query queryNorm entryPoints ef layer)
      (InRange index.nodes.length) := by
  have hempty : HnswSearchContext.Valid index.nodes.length
      (⟨[], [], entryPoints.toFinset, K.maxValue⟩ : HnswSearchContext F) := by
    refine ⟨by simp [InRange], by simp [InRange], fun ep hep ↦ ?_⟩
    exact Finset.mem_range.mpr (hentry ep (List.mem_toFinset.mp hep))
  rw [searchLayer, searchLayerInner]
  refine (returns_enter _ hentry hempty).bind ?_
  rintro start ⟨hstart, hlength⟩
  refine (returns_loop (fun ctx hctx ↦ LayerSearch.returns_explore h hctx)
    hstart.updateWorst ?_).bind fun ctx hctx ↦ ?_
  · rw [HnswSearchContext.toExplore, HnswSearchContext.updateWorst_candidates]
    rw [List.length_nil] at hlength
    omega
  · refine (returns_sortByDistance h.ids hctx.results).mono fun sorted hperm ↦ ?_
    exact hctx.results.of_perm hperm.symm

/-! ### Selecting neighbours -/

theorem returns_isDiverse {selected : List (F × ℕ)}
    (hselected : InRange index.nodes.length selected) (distToQuery : F) (candidate : HnswNode F) :
    Returns (index.isDiverse K selected distToQuery candidate) fun _ ↦ True := by
  refine Returns.allM fun e he ↦ ?_
  exact (Returns.getElem? (hselected e he)).bind fun _ _ ↦ returns_pure.mpr trivial

theorem returns_selectDiverse {selected : List (F × ℕ)}
    (hselected : InRange index.nodes.length selected) (m : ℕ) {e : F × ℕ}
    (he : e.2 < index.nodes.length) :
    Returns (index.selectDiverse K m selected e) (InRange index.nodes.length) := by
  rw [selectDiverse]
  by_cases hfull : m ≤ selected.length
  · rw [if_pos hfull]
    exact returns_pure.mpr hselected
  · rw [if_neg hfull]
    refine (Returns.getElem? he).bind fun candidate _ ↦ ?_
    refine (returns_isDiverse hselected e.1 candidate).bind fun diverse _ ↦ ?_
    have hone : InRange index.nodes.length [e] := List.forall_mem_singleton.mpr he
    cases diverse with
    | true => exact returns_pure.mpr (List.forall_mem_append.mpr ⟨hselected, hone⟩)
    | false =>
      refine returns_pure.mpr ?_
      split_ifs
      · exact hone
      · exact hselected

theorem inRange_fill {n m : ℕ} {sorted selected : List (F × ℕ)} (hselected : InRange n selected)
    (hsorted : InRange n sorted) : InRange n (sorted.foldl (fill m) selected) := by
  induction sorted generalizing selected with
  | nil => exact hselected
  | cons e sorted ih =>
    obtain ⟨he, hrest⟩ := List.forall_mem_cons.mp hsorted
    refine ih ?_ hrest
    rw [fill]
    split_ifs
    · exact hselected
    · exact List.forall_mem_append.mpr ⟨hselected, List.forall_mem_singleton.mpr he⟩

theorem returns_selectNeighbors (h : index.Readable) {candidates : List (F × ℕ)}
    (hcandidates : InRange index.nodes.length candidates) (m : ℕ) :
    Returns (index.selectNeighbors K candidates m) fun ids ↦
      ∀ j ∈ ids, j < index.nodes.length := by
  rw [selectNeighbors]
  split_ifs
  · exact returns_some.mpr (List.forall_mem_map.mpr hcandidates)
  · refine (returns_sortByDistance h.ids hcandidates).bind fun sorted hperm ↦ ?_
    have hsorted := hcandidates.of_perm hperm.symm
    have hdiverse : Returns (sorted.foldlM (index.selectDiverse K m) [])
        (InRange index.nodes.length) :=
      Returns.foldlM (fun selected e he hselected ↦
        returns_selectDiverse hselected m (hsorted e he)) (by simp [InRange])
    refine hdiverse.bind fun selected hselected ↦ returns_pure.mpr ?_
    exact List.forall_mem_map.mpr (inRange_fill hselected hsorted)

end HnswIndex.Readable

end Khive.Hnsw
