import Khive.Foundation.Distance
import Khive.Foundation.SortedMap
import Khive.Types.Edge

/-!
# Breadth-first traversal

The traversal asks the graph once a level for the neighbours of its frontier and once for the edges
it took. A node is marked when it is collected, so the levels are those of the distances from the
start whatever the order of the answers. The limit is tested after a node has been pushed: the run
with a limit is a prefix of the run without one, of at least two nodes where there are two.
-/

namespace Khive.Traversal

variable {Content : Type}

/-- An edge; what the traversals only move is the content. -/
structure Edge (Content : Type) where
  id : Id128
  sourceId : Id128
  targetId : Id128
  relation : EdgeRelation
  content : Content
deriving DecidableEq

inductive Direction where
  | out | «in» | both
deriving DecidableEq

/-- The traversals never ask with a limit or a least weight. -/
structure NeighborQuery where
  direction : Direction
  relations : Option (List EdgeRelation)

structure NeighborHit where
  nodeId : Id128
  edgeId : Id128
deriving DecidableEq

/-- A node in a traversal path. -/
structure PathNode (Content : Type) where
  entityId : Id128
  depth : ℕ
  viaEdge : Option (Edge Content)
deriving DecidableEq

structure TraversalOptions where
  maxDepth : ℕ
  direction : Direction
  relations : Option (List EdgeRelation)
  limit : Option UInt32

inductive RuntimeError where
  | notFound (detail : String)
  /-- A map is indexed with a key it does not have, or a chain of parents does not end. -/
  | panicked
deriving DecidableEq

/-- What the runtime asks the store of its namespace. -/
structure GraphStore (Content : Type) where
  substrateExists : Id128 → Bool
  batchNeighbors : List Id128 → NeighborQuery → List (Id128 × NeighborHit)
  getEdges : List Id128 → List (Edge Content)

/-- The edges collected into a map by their ids. -/
def edgeMap (edges : List (Edge Content)) : OrderedMap Id128 (Edge Content) :=
  edges.foldl (fun m e ↦ m.insert e.id e) OrderedMap.empty

/-! ## The traversal -/

/-- A hit is collected unless its node is visited, and marks it. -/
def collectHit (level : Finset Id128 × List (Id128 × Id128)) (hit : Id128 × NeighborHit) :
    Finset Id128 × List (Id128 × Id128) :=
  if hit.2.nodeId ∈ level.1 then level
  else (insert hit.2.nodeId level.1, level.2 ++ [(hit.2.nodeId, hit.2.edgeId)])

/-- The visited nodes after a level, and the new nodes with the edges that led to them. -/
def collectLevel (visited : Finset Id128) (allHits : List (Id128 × NeighborHit)) :
    Finset Id128 × List (Id128 × Id128) :=
  allHits.foldl collectHit (visited, [])

/-- `results.len() >= limit`; without a limit it is `usize::MAX`, which no vector reaches. -/
def atLimit (limit : Option UInt32) (n : ℕ) : Bool :=
  match limit with
  | none => false
  | some limit => decide (limit.toNat ≤ n)

/-- The results and the next frontier after a level; no frontier when the limit stopped it. -/
def pushLevel (limit : Option UInt32) (edges : OrderedMap Id128 (Edge Content)) (nextDepth : ℕ) :
    List (Id128 × Id128) → List (PathNode Content) → List Id128 →
      Except RuntimeError (List (PathNode Content) × Option (List Id128))
  | [], results, frontier => .ok (results, some frontier)
  | (nodeId, edgeId) :: level, results, frontier =>
    match edges.get edgeId with
    | none => .error (.notFound s!"edge {uuidText edgeId} missing")
    | some edge =>
      let results := results ++ [⟨nodeId, nextDepth, some edge⟩]
      if atLimit limit results.length then .ok (results, none)
      else pushLevel limit edges nextDepth level results (frontier ++ [nodeId])

def TraversalOptions.query (options : TraversalOptions) : NeighborQuery where
  direction := options.direction
  relations := options.relations

/-- The loop of `bfs_traverse`, with the levels left to `max_depth`. -/
def bfsLevels (store : GraphStore Content) (options : TraversalOptions) :
    ℕ → ℕ → Finset Id128 → List (PathNode Content) → List Id128 →
      Except RuntimeError (List (PathNode Content))
  | 0, _, _, results, _ => .ok results
  | levels + 1, depth, visited, results, frontier =>
    if frontier = [] then .ok results
    else
      let level := collectLevel visited (store.batchNeighbors frontier options.query)
      if level.2 = [] then .ok results
      else
        let edges := edgeMap (store.getEdges (level.2.map Prod.snd))
        match pushLevel options.limit edges (depth + 1) level.2 results [] with
        | .error e => .error e
        | .ok (results, none) => .ok results
        | .ok (results, some frontier) =>
          bfsLevels store options levels (depth + 1) level.1 results frontier

/-- `KhiveRuntime::bfs_traverse`. -/
def bfsTraverse (store : GraphStore Content) (start : Id128) (options : TraversalOptions) :
    Except RuntimeError (List (PathNode Content)) :=
  if !store.substrateExists start then .ok []
  else bfsLevels store options options.maxDepth 0 {start} [⟨start, 0, none⟩] [start]

/-! ## Answers from one graph -/

/-- An empty list of relations asks for all of them. -/
def NeighborQuery.admits (query : NeighborQuery) (relation : EdgeRelation) : Bool :=
  match query.relations with
  | none => true
  | some relations => relations.isEmpty || decide (relation ∈ relations)

/-- The edge leads from a node to another in the direction that is asked. -/
def Direction.Leads (direction : Direction) (e : Edge Content) (u v : Id128) : Prop :=
  match direction with
  | .out => e.sourceId = u ∧ e.targetId = v
  | .«in» => e.targetId = u ∧ e.sourceId = v
  | .both => e.sourceId = u ∧ e.targetId = v ∨ e.targetId = u ∧ e.sourceId = v

/-- The edge answers the query. -/
def NeighborQuery.Joins (query : NeighborQuery) (e : Edge Content) (u v : Id128) : Prop :=
  query.admits e.relation = true ∧ query.direction.Leads e u v

/-- One step of a traversal. -/
def Adjacent (edges : List (Edge Content)) (query : NeighborQuery) (u v : Id128) : Prop :=
  ∃ e ∈ edges, query.Joins e u v

/-- The store answers from these edges, in any order and with any repetitions. -/
structure Answers (store : GraphStore Content) (edges : List (Edge Content)) : Prop where
  eq_of_id : ∀ e ∈ edges, ∀ f ∈ edges, e.id = f.id → e = f
  batchNeighbors : ∀ frontier query src hit, (src, hit) ∈ store.batchNeighbors frontier query ↔
    src ∈ frontier ∧ ∃ e ∈ edges, e.id = hit.edgeId ∧ query.Joins e src hit.nodeId
  getEdges : ∀ ids e, e ∈ store.getEdges ids ↔ e ∈ edges ∧ e.id ∈ ids

section EdgeMap

theorem get_foldl_insert {m : OrderedMap Id128 (Edge Content)} {fetched : List (Edge Content)}
    {e : Edge Content} (heq : ∀ f ∈ fetched, f.id = e.id → f = e)
    (he : e ∈ fetched ∨ m.get e.id = some e) :
    (fetched.foldl (fun m e ↦ m.insert e.id e) m).get e.id = some e := by
  induction fetched generalizing m with
  | nil => exact he.resolve_left List.not_mem_nil
  | cons f fetched ih =>
    refine ih (fun g hg ↦ heq g (List.mem_cons_of_mem f hg)) ?_
    rw [OrderedMap.get_insert]
    split_ifs with hid
    · exact Or.inr (congrArg some (heq f List.mem_cons_self hid.symm))
    · refine he.imp_left fun hmem ↦ (List.mem_cons.mp hmem).resolve_left ?_
      rintro rfl
      exact hid rfl

variable {store : GraphStore Content} {edges : List (Edge Content)}

/-- The map of the fetched edges holds each edge that was asked for. -/
theorem Answers.get_edgeMap (h : Answers store edges) {ids : List Id128} {e : Edge Content}
    (he : e ∈ edges) (hid : e.id ∈ ids) : (edgeMap (store.getEdges ids)).get e.id = some e := by
  refine get_foldl_insert (fun f hf ↦ ?_) (Or.inl ((h.getEdges ids e).mpr ⟨he, hid⟩))
  exact h.eq_of_id f ((h.getEdges ids f).mp hf).1 e he

/-- The nodes that are hit are the ones a step leads to. -/
theorem Answers.exists_hit (h : Answers store edges) {frontier : List Id128}
    {query : NeighborQuery} {v : Id128} :
    (∃ hit ∈ store.batchNeighbors frontier query, hit.2.nodeId = v) ↔
      ∃ w, w ∈ frontier ∧ Adjacent edges query w v := by
  constructor
  · rintro ⟨hit, hmem, rfl⟩
    obtain ⟨hsrc, e, he, -, hjoins⟩ := (h.batchNeighbors _ _ _ _).mp hmem
    exact ⟨hit.1, hsrc, e, he, hjoins⟩
  · rintro ⟨w, hw, e, he, hjoins⟩
    exact ⟨(w, ⟨v, e.id⟩), (h.batchNeighbors _ _ _ _).mpr ⟨hw, e, he, rfl, hjoins⟩, rfl⟩

end EdgeMap

/-! ### The store of a graph -/

section StoreOf

/-- The hits of one edge at a source. -/
def NeighborQuery.hits (query : NeighborQuery) (src : Id128) (e : Edge Content) :
    List NeighborHit :=
  let outHits := if e.sourceId = src then [⟨e.targetId, e.id⟩] else []
  let inHits := if e.targetId = src then [⟨e.sourceId, e.id⟩] else []
  if query.admits e.relation then
    match query.direction with
    | .out => outHits
    | .«in» => inHits
    | .both => outHits ++ inHits
  else []

/-- A store that answers from these edges, where every node exists. -/
def storeOf (edges : List (Edge Content)) : GraphStore Content where
  substrateExists _ := true
  batchNeighbors frontier query :=
    frontier.flatMap fun src ↦ (edges.flatMap (query.hits src)).map fun hit ↦ (src, hit)
  getEdges ids := edges.filter fun e ↦ ids.contains e.id

theorem mem_hits {query : NeighborQuery} {src : Id128} {e : Edge Content} {hit : NeighborHit} :
    hit ∈ query.hits src e ↔ e.id = hit.edgeId ∧ query.Joins e src hit.nodeId := by
  obtain ⟨nodeId, edgeId⟩ := hit
  obtain ⟨direction, relations⟩ := query
  rw [NeighborQuery.hits, NeighborQuery.Joins]
  by_cases hadmits : (⟨direction, relations⟩ : NeighborQuery).admits e.relation = true
  · cases direction <;>
      by_cases hout : e.sourceId = src <;> by_cases hin : e.targetId = src <;>
        simp [hadmits, Direction.Leads, hout, hin] <;> tauto
  · simp [hadmits]

theorem answers_storeOf {edges : List (Edge Content)}
    (hid : ∀ e ∈ edges, ∀ f ∈ edges, e.id = f.id → e = f) : Answers (storeOf edges) edges where
  eq_of_id := hid
  batchNeighbors frontier query src hit := by
    simp only [storeOf, List.mem_flatMap, List.mem_map, Prod.mk.injEq, mem_hits]
    constructor
    · rintro ⟨_, hsrc, _, ⟨e, he, hjoins⟩, rfl, rfl⟩
      exact ⟨hsrc, e, he, hjoins⟩
    · rintro ⟨hsrc, e, he, hjoins⟩
      exact ⟨src, hsrc, hit, ⟨e, he, hjoins⟩, rfl, rfl⟩
  getEdges ids e := by rw [storeOf, List.mem_filter, List.contains_iff_mem]

end StoreOf

/-! ## One level -/

section Level

/-- What is collected from the hits: the nodes not visited before, each once. -/
structure Collected (visited : Finset Id128) (hits : List (Id128 × NeighborHit))
    (level : Finset Id128 × List (Id128 × Id128)) : Prop where
  marked : ∀ v, v ∈ level.1 ↔ v ∈ visited ∨ v ∈ level.2.map Prod.fst
  new : ∀ v, v ∈ level.2.map Prod.fst ↔ v ∉ visited ∧ ∃ hit ∈ hits, hit.2.nodeId = v
  nodup : (level.2.map Prod.fst).Nodup
  hit : ∀ p ∈ level.2, ∃ hit ∈ hits, p = (hit.2.nodeId, hit.2.edgeId)

theorem Collected.collectHit {visited : Finset Id128} {hits : List (Id128 × NeighborHit)}
    {level : Finset Id128 × List (Id128 × Id128)} (h : Collected visited hits level)
    (hit : Id128 × NeighborHit) :
    Collected visited (hits ++ [hit]) (collectHit level hit) := by
  rw [Traversal.collectHit]
  split_ifs with hmarked
  · refine ⟨h.marked, fun v ↦ ?_, h.nodup, fun p hp ↦ ?_⟩
    · rw [h.new]
      refine and_congr_right fun hv ↦ ⟨fun hex ↦ ?_, fun hex ↦ ?_⟩
      · obtain ⟨other, hother, rfl⟩ := hex
        exact ⟨other, List.mem_append_left _ hother, rfl⟩
      · obtain ⟨other, hother, rfl⟩ := hex
        rcases List.mem_append.mp hother with hother | hother
        · exact ⟨other, hother, rfl⟩
        · -- the node of the hit is marked and was not visited, so a hit before led to it
          obtain rfl := List.mem_singleton.mp hother
          exact ((h.new _).mp (((h.marked _).mp hmarked).resolve_left hv)).2
    · obtain ⟨other, hother, rfl⟩ := h.hit p hp
      exact ⟨other, List.mem_append_left _ hother, rfl⟩
  · have hnot := (h.marked hit.2.nodeId).not.mp hmarked
    rw [not_or] at hnot
    refine ⟨fun v ↦ ?_, fun v ↦ ?_, ?_, fun p hp ↦ ?_⟩
    · rw [Finset.mem_insert, h.marked, List.map_append, List.mem_append, List.map_singleton,
        List.mem_singleton]
      tauto
    · rw [List.map_append, List.mem_append, List.map_singleton, List.mem_singleton, h.new]
      simp only [List.mem_append, List.mem_singleton, or_and_right, exists_or, exists_eq_left]
      constructor
      · rintro (⟨hv, hex⟩ | rfl)
        · exact ⟨hv, Or.inl hex⟩
        · exact ⟨hnot.1, Or.inr rfl⟩
      · rintro ⟨hv, hex | rfl⟩
        · exact Or.inl ⟨hv, hex⟩
        · exact Or.inr rfl
    · rw [List.map_append, List.map_singleton]
      refine List.nodup_append.mpr ⟨h.nodup, List.nodup_singleton _, ?_⟩
      intro v hv w hw heq
      rw [heq, List.mem_singleton.mp hw] at hv
      exact hnot.2 hv
    · rcases List.mem_append.mp hp with hp | hp
      · obtain ⟨other, hother, rfl⟩ := h.hit p hp
        exact ⟨other, List.mem_append_left _ hother, rfl⟩
      · exact ⟨hit, List.mem_append_right _ (List.mem_singleton_self hit),
          List.mem_singleton.mp hp⟩

theorem collected_collectLevel (visited : Finset Id128) (hits : List (Id128 × NeighborHit)) :
    Collected visited hits (collectLevel visited hits) := by
  induction hits using List.reverseRecOn with
  | nil => constructor <;> simp [collectLevel]
  | append_singleton hits hit ih =>
    rw [collectLevel, List.foldl_append]
    exact ih.collectHit hit

/-- The results a level adds. -/
def levelNodes (edges : OrderedMap Id128 (Edge Content)) (nextDepth : ℕ)
    (level : List (Id128 × Id128)) : List (PathNode Content) :=
  level.map fun p ↦ ⟨p.1, nextDepth, edges.get p.2⟩

variable {edges : OrderedMap Id128 (Edge Content)} {nextDepth : ℕ} {level : List (Id128 × Id128)}
  {results : List (PathNode Content)} {frontier : List Id128}

/-- Without a limit the whole level is pushed. -/
theorem pushLevel_none (hfound : ∀ p ∈ level, (edges.get p.2).isSome) :
    pushLevel none edges nextDepth level results frontier =
      .ok (results ++ levelNodes edges nextDepth level, some (frontier ++ level.map Prod.fst)) := by
  induction level generalizing results frontier with
  | nil => simp [pushLevel, levelNodes]
  | cons p level ih =>
    obtain ⟨edge, hedge⟩ := Option.isSome_iff_exists.mp (hfound p List.mem_cons_self)
    rw [pushLevel, hedge]
    simp only [atLimit, Bool.false_eq_true, if_false]
    rw [ih fun q hq ↦ hfound q (List.mem_cons_of_mem p hq)]
    simp [levelNodes, hedge]

/-- A limit stops the push at the first node that reaches it, and tests only after a push. -/
theorem pushLevel_some {limit : UInt32} (hfound : ∀ p ∈ level, (edges.get p.2).isSome) :
    pushLevel (some limit) edges nextDepth level results frontier =
      if results.length + level.length < max limit.toNat (results.length + 1) then
        .ok (results ++ levelNodes edges nextDepth level, some (frontier ++ level.map Prod.fst))
      else
        .ok ((results ++ levelNodes edges nextDepth level).take
          (max limit.toNat (results.length + 1)), none) := by
  induction level generalizing results frontier with
  | nil => simp [pushLevel, levelNodes]
  | cons p level ih =>
    obtain ⟨edge, hedge⟩ := Option.isSome_iff_exists.mp (hfound p List.mem_cons_self)
    rw [pushLevel, hedge]
    have hlen : (results ++ [(⟨p.1, nextDepth, some edge⟩ : PathNode Content)]).length =
        results.length + 1 := by simp
    simp only [atLimit, hlen, decide_eq_true_eq, List.length_cons]
    by_cases hreached : limit.toNat ≤ results.length + 1
    · rw [if_pos hreached, max_eq_right hreached, if_neg (by omega)]
      simp [levelNodes, hedge, List.take_append]
    · have hmax : max limit.toNat (results.length + 1 + 1) =
          max limit.toNat (results.length + 1) := by omega
      rw [if_neg hreached, ih fun q hq ↦ hfound q (List.mem_cons_of_mem p hq), hlen, hmax,
        Nat.add_right_comm, Nat.add_assoc]
      simp [levelNodes, hedge]

end Level

end Khive.Traversal
