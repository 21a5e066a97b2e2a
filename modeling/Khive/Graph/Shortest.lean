import Khive.Graph.Traversal

/-!
# Shortest paths

Two searches by levels, along the edges from the start and against them from the end, take turns
until one of them reaches a node that the other has seen. As long as none did, no path is as short
as the levels together, so the first meeting is on a shortest path. The chain of parents behind the
meeting and the chain of children ahead of it are spliced into the path.
-/

namespace Khive.Traversal

variable {Content : Type}

/-- How a search reached a node: its depth, the node before it, and the edge between them. The
search from the end keeps the child here. -/
structure Reached where
  depth : ℕ
  via : Option Id128
  edgeId : Option Id128
deriving DecidableEq

/-- What one level of a search makes of its map, its next frontier and the meeting. -/
structure Expansion where
  seen : OrderedMap Id128 Reached
  next : List Id128
  meeting : Option (Id128 × ℕ)

/-- The better of the meetings, if the other search has seen the node. -/
def meet (maxDepth : ℕ) (other : OrderedMap Id128 Reached) (nodeId : Id128) (newDepth : ℕ)
    (meeting : Option (Id128 × ℕ)) : Option (Id128 × ℕ) :=
  match other.get nodeId with
  | none => meeting
  | some reached =>
    let total := newDepth + reached.depth
    if total ≤ maxDepth ∧ (meeting.all fun best ↦ total < best.2) = true then some (nodeId, total)
    else meeting

/-- The body of the loop over the hits of a level. -/
def expandHit (maxDepth : ℕ) (other : OrderedMap Id128 Reached) (s : Expansion)
    (hit : Id128 × NeighborHit) : Except RuntimeError Expansion :=
  if (s.seen.get hit.2.nodeId).isSome then .ok s
  else
    match s.seen.get hit.1 with
    | none => .error .panicked
    | some source =>
      .ok {
        seen := s.seen.insert hit.2.nodeId ⟨source.depth + 1, some hit.1, some hit.2.edgeId⟩
        next := s.next ++ [hit.2.nodeId]
        meeting := meet maxDepth other hit.2.nodeId (source.depth + 1) s.meeting }

/-- One level of a search; without a frontier there is nothing to ask. -/
def expand (store : GraphStore Content) (maxDepth : ℕ) (direction : Direction)
    (frontier : List Id128) (seen other : OrderedMap Id128 Reached)
    (meeting : Option (Id128 × ℕ)) : Except RuntimeError Expansion :=
  if frontier = [] then .ok ⟨seen, [], meeting⟩
  else
    (store.batchNeighbors frontier ⟨direction, none⟩).foldlM (expandHit maxDepth other)
      ⟨seen, [], meeting⟩

/-- The two searches and the best meeting. -/
structure Search where
  fwd : OrderedMap Id128 Reached
  fwdFrontier : List Id128
  bwd : OrderedMap Id128 Reached
  bwdFrontier : List Id128
  meeting : Option (Id128 × ℕ)

/-- The searches before the loop. -/
def Search.start (source target : Id128) : Search where
  fwd := OrderedMap.empty.insert source ⟨0, none, none⟩
  fwdFrontier := [source]
  bwd := OrderedMap.empty.insert target ⟨0, none, none⟩
  bwdFrontier := [target]
  meeting := none

/-- The loop of `shortest_path`, with the rounds left while `current_depth <= max_depth`. -/
def searchLevels (store : GraphStore Content) (maxDepth : ℕ) :
    ℕ → Search → Except RuntimeError Search
  | 0, s => .ok s
  | rounds + 1, s =>
    if s.fwdFrontier = [] ∧ s.bwdFrontier = [] then .ok s
    else
      match expand store maxDepth .out s.fwdFrontier s.fwd s.bwd s.meeting with
      | .error e => .error e
      | .ok forward =>
        let s := { s with
          fwd := forward.seen, fwdFrontier := forward.next, meeting := forward.meeting }
        if s.meeting.isSome then .ok s
        else
          match expand store maxDepth .«in» s.bwdFrontier s.bwd s.fwd s.meeting with
          | .error e => .error e
          | .ok backward =>
            let s := { s with
              bwd := backward.seen, bwdFrontier := backward.next, meeting := backward.meeting }
            if s.meeting.isSome then .ok s else searchLevels store maxDepth rounds s

/-- The nodes from the meeting back to the start, each with the edge that reached it. The loop has
no bound in the source; here it panics past one, and `shortestPath_spec` shows it never does. -/
def parentChain (fwd : OrderedMap Id128 Reached) :
    ℕ → Id128 → Except RuntimeError (List (Id128 × Option Id128))
  | 0, _ => .error .panicked
  | bound + 1, cur =>
    match fwd.get cur with
    | none => .error .panicked
    | some reached =>
      match reached.via with
      | some parent =>
        (parentChain fwd bound parent).map fun chain ↦ (cur, reached.edgeId) :: chain
      | none => .ok [(cur, reached.edgeId)]

/-- The nodes after the meeting up to the end, each with the edge that leads to it, which the map
keeps at the node before. -/
def childChain (bwd : OrderedMap Id128 Reached) :
    ℕ → Id128 → Except RuntimeError (List (Id128 × Option Id128))
  | 0, _ => .error .panicked
  | bound + 1, cur =>
    match bwd.get cur with
    | some ⟨_, some child, edgeId⟩ =>
      (childChain bwd bound child).map fun chain ↦ (child, edgeId) :: chain
    | _ => .ok []

/-- The path through the two chains. -/
def splice (store : GraphStore Content) (fwdChain bwdChain : List (Id128 × Option Id128)) :
    List (PathNode Content) :=
  let pathEdges := edgeMap (store.getEdges ((fwdChain ++ bwdChain).filterMap Prod.snd))
  let path := fwdChain.mapIdx fun i p ↦
    ⟨p.1, i, if i = 0 then none else p.2.bind pathEdges.get⟩
  path ++ bwdChain.mapIdx fun i p ↦ ⟨p.1, path.length + i, p.2.bind pathEdges.get⟩

/-- `KhiveRuntime::shortest_path`. -/
def shortestPath (store : GraphStore Content) (source target : Id128) (maxDepth : ℕ) :
    Except RuntimeError (Option (List (PathNode Content))) :=
  if !store.substrateExists source || !store.substrateExists target then .ok none
  else if source = target then .ok (some [⟨source, 0, none⟩])
  else
    match searchLevels store maxDepth (maxDepth + 1) (Search.start source target) with
    | .error e => .error e
    | .ok s =>
      match s.meeting with
      | none => .ok none
      | some (mid, _) => do
        let fwdChain ← parentChain s.fwd (maxDepth + 1) mid
        let bwdChain ← childChain s.bwd (maxDepth + 1) mid
        return some (splice store fwdChain.reverse bwdChain)

/-! ## Levels -/

section Levels

variable {store : GraphStore Content} {edges : List (Edge Content)} {query : NeighborQuery}
  {origin : Id128}

/-- Every entry is the origin's, or names an edge from a node one less deep. -/
structure Tree (edges : List (Edge Content)) (query : NeighborQuery) (origin : Id128)
    (seen : OrderedMap Id128 Reached) : Prop where
  distance : ∀ v reached, seen.get v = some reached →
    IsDistance (Adjacent edges query) reached.depth origin v
  entry : ∀ v reached, seen.get v = some reached →
    v = origin ∧ reached = ⟨0, none, none⟩ ∨
      ∃ p parent, seen.get p = some parent ∧ ∃ e ∈ edges, query.Joins e p v ∧
        reached = ⟨parent.depth + 1, some p, some e.id⟩

theorem tree_origin : Tree edges query origin (OrderedMap.empty.insert origin ⟨0, none, none⟩) := by
  have hget : ∀ v reached, (OrderedMap.empty.insert origin ⟨0, none, none⟩ :
      OrderedMap Id128 Reached).get v = some reached → v = origin ∧ reached = ⟨0, none, none⟩ := by
    intro v reached h
    rw [OrderedMap.get_insert] at h
    split_ifs at h with hv
    · exact ⟨hv, (Option.some.inj h).symm⟩
    · cases h
  refine ⟨fun v reached h ↦ ?_, fun v reached h ↦ Or.inl (hget v reached h)⟩
  obtain ⟨rfl, rfl⟩ := hget v reached h
  exact isDistance_zero.mpr rfl

/-- An edge from a seen node to a new one, at its distance. -/
theorem Tree.insert {seen : OrderedMap Id128 Reached} (h : Tree edges query origin seen)
    {p v : Id128} {parent : Reached} {e : Edge Content} (hp : seen.get p = some parent)
    (hnew : seen.get v = none) (he : e ∈ edges) (hjoins : query.Joins e p v)
    (hdist : IsDistance (Adjacent edges query) (parent.depth + 1) origin v) :
    Tree edges query origin (seen.insert v ⟨parent.depth + 1, some p, some e.id⟩) := by
  have hkeep : ∀ w reached, seen.get w = some reached →
      (seen.insert v ⟨parent.depth + 1, some p, some e.id⟩).get w = some reached := by
    intro w reached hw
    rw [OrderedMap.get_insert, if_neg, hw]
    rintro rfl
    exact absurd (hnew.symm.trans hw) (by simp)
  constructor
  · intro w reached hw
    rw [OrderedMap.get_insert] at hw
    split_ifs at hw with heq
    · subst heq
      obtain rfl := Option.some.inj hw
      exact hdist
    · exact h.distance w reached hw
  · intro w reached hw
    rw [OrderedMap.get_insert] at hw
    split_ifs at hw with heq
    · subst heq
      obtain rfl := Option.some.inj hw
      exact Or.inr ⟨p, parent, hkeep p parent hp, e, he, hjoins, rfl⟩
    · rcases h.entry w reached hw with hroot | ⟨q, above, hq, f, hf, hleads, rfl⟩
      · exact Or.inl hroot
      · exact Or.inr ⟨q, above, hkeep q above hq, f, hf, hleads, rfl⟩

/-- The search has seen the nodes up to a distance, and its frontier is at it. -/
def SearchedTo (edges : List (Edge Content)) (query : NeighborQuery) (origin : Id128) (k : ℕ)
    (seen : OrderedMap Id128 Reached) (frontier : List Id128) : Prop :=
  Explored (Adjacent edges query) origin k (fun v ↦ (seen.get v).isSome) (· ∈ frontier)

theorem searchedTo_origin : SearchedTo edges query origin 0
    (OrderedMap.empty.insert origin ⟨0, none, none⟩) [origin] := by
  refine (explored_zero _ origin).congr (fun v ↦ ?_) fun v ↦ List.mem_singleton
  rw [OrderedMap.get_insert]
  by_cases hv : v = origin <;> simp [hv]

/-- No node is seen by both searches within the bound. -/
def Apart (maxDepth : ℕ) (seen other : OrderedMap Id128 Reached) : Prop :=
  ∀ v f r, seen.get v = some f → other.get v = some r → maxDepth < f.depth + r.depth

/-- Two different origins are apart, within any bound. -/
theorem apart_origins {maxDepth : ℕ} {source target : Id128} (hne : source ≠ target) :
    Apart maxDepth (OrderedMap.empty.insert source ⟨0, none, none⟩)
      (OrderedMap.empty.insert target ⟨0, none, none⟩) := by
  intro v f r hf hr
  rw [OrderedMap.get_insert] at hf hr
  split_ifs at hf hr with hsource htarget
  · exact absurd (hsource.symm.trans htarget) hne
  · cases hr
  · cases hf
  · cases hf

/-- A level of the search after some of its hits. -/
structure Expanding (edges : List (Edge Content)) (query : NeighborQuery) (origin : Id128)
    (maxDepth k : ℕ) (seen other : OrderedMap Id128 Reached) (hits : List (Id128 × NeighborHit))
    (s : Expansion) : Prop where
  tree : Tree edges query origin s.seen
  marked : ∀ v, (s.seen.get v).isSome ↔ (seen.get v).isSome ∨ v ∈ s.next
  new : ∀ v, v ∈ s.next ↔ ¬(seen.get v).isSome ∧ ∃ hit ∈ hits, hit.2.nodeId = v
  missed : s.meeting = none → ∀ v ∈ s.next, ∀ reached, other.get v = some reached →
    maxDepth < k + 1 + reached.depth
  met : ∀ mid total, s.meeting = some (mid, total) → mid ∈ s.next ∧
    ∃ reached, other.get mid = some reached ∧ total = k + 1 + reached.depth ∧ total ≤ maxDepth

theorem meet_eq_none {maxDepth newDepth : ℕ} {other : OrderedMap Id128 Reached} {v : Id128}
    {meeting : Option (Id128 × ℕ)} (h : meet maxDepth other v newDepth meeting = none) :
    meeting = none ∧
      ∀ reached, other.get v = some reached → maxDepth < newDepth + reached.depth := by
  rw [meet] at h
  rcases hget : other.get v with - | reached
  · rw [hget] at h
    exact ⟨h, by simp⟩
  · rw [hget] at h
    simp only at h
    split_ifs at h with hcond
    subst h
    refine ⟨rfl, ?_⟩
    rintro _ ⟨⟩
    exact not_le.mp fun hle ↦ hcond ⟨hle, rfl⟩

theorem meet_eq_some {maxDepth newDepth total : ℕ} {other : OrderedMap Id128 Reached}
    {v mid : Id128} {meeting : Option (Id128 × ℕ)}
    (h : meet maxDepth other v newDepth meeting = some (mid, total)) :
    meeting = some (mid, total) ∨ mid = v ∧ ∃ reached, other.get v = some reached ∧
      total = newDepth + reached.depth ∧ total ≤ maxDepth := by
  rw [meet] at h
  rcases hget : other.get v with - | reached
  · rw [hget] at h
    exact Or.inl h
  · rw [hget] at h
    simp only at h
    split_ifs at h with hcond
    · obtain ⟨rfl, rfl⟩ := Prod.mk.inj (Option.some.inj h)
      exact Or.inr ⟨rfl, reached, rfl, rfl, hcond.1⟩
    · exact Or.inl h

variable {maxDepth k : ℕ} {seen other : OrderedMap Id128 Reached} {frontier : List Id128}
  {hits : List (Id128 × NeighborHit)} {s : Expansion}

/-- One hit keeps the level as it should be. -/
theorem Expanding.expandHit (h : Expanding edges query origin maxDepth k seen other hits s)
    (hlevel : SearchedTo edges query origin k seen frontier) {src : Id128} {hit : NeighborHit}
    (hsrc : src ∈ frontier) {e : Edge Content} (he : e ∈ edges) (hid : e.id = hit.edgeId)
    (hjoins : query.Joins e src hit.nodeId) :
    ∃ s', expandHit maxDepth other s (src, hit) = .ok s' ∧
      Expanding edges query origin maxDepth k seen other (hits ++ [(src, hit)]) s' := by
  have hmem : ∀ v, (∃ h ∈ hits ++ [(src, hit)], h.2.nodeId = v) ↔
      (∃ h ∈ hits, h.2.nodeId = v) ∨ hit.nodeId = v := by
    intro v
    simp only [List.mem_append, List.mem_singleton, or_and_right, exists_or, exists_eq_left]
  rw [Traversal.expandHit]
  by_cases hseen : (s.seen.get hit.nodeId).isSome = true
  · rw [if_pos hseen]
    refine ⟨s, rfl, h.tree, h.marked, fun v ↦ ?_, h.missed, h.met⟩
    rw [h.new, hmem]
    refine and_congr_right fun hv ↦ ⟨Or.inl, fun hor ↦ ?_⟩
    rcases hor with hex | rfl
    · exact hex
    · exact ((h.new _).mp (((h.marked _).mp hseen).resolve_left hv)).2
  rw [if_neg hseen]
  -- the source is on the frontier, so its entry has the depth of the level
  have hdist := (hlevel.frontier src).mp hsrc
  have hsrcSeen : (s.seen.get src).isSome :=
    (h.marked src).mpr (Or.inl ((hlevel.seen src).mpr ⟨k, le_rfl, hdist⟩))
  obtain ⟨source, hsource⟩ := Option.isSome_iff_exists.mp hsrcSeen
  have hdepth : source.depth = k := (h.tree.distance src source hsource).unique hdist
  have hnot := (h.marked hit.nodeId).not.mp hseen
  rw [not_or] at hnot
  have hnew : IsDistance (Adjacent edges query) (k + 1) origin hit.nodeId := by
    refine isDistance_succ.mpr ⟨fun j hj hd ↦ ?_, src, hdist, e, he, hjoins⟩
    exact hnot.1 ((hlevel.seen _).mpr ⟨j, hj, hd⟩)
  rw [hsource]
  refine ⟨_, rfl, ?_, fun v ↦ ?_, fun v ↦ ?_, fun hnone v hv reached hreached ↦ ?_,
    fun mid total hsome ↦ ?_⟩
  · rw [← hid]
    exact h.tree.insert hsource (Option.not_isSome_iff_eq_none.mp hseen) he hjoins (hdepth ▸ hnew)
  · rw [OrderedMap.get_insert, List.mem_append, List.mem_singleton]
    split_ifs with heq
    · simp [heq]
    · rw [h.marked]
      tauto
  · rw [List.mem_append, List.mem_singleton, h.new, hmem]
    constructor
    · rintro (⟨hv, hex⟩ | rfl)
      · exact ⟨hv, Or.inl hex⟩
      · exact ⟨hnot.1, Or.inr rfl⟩
    · rintro ⟨hv, hex | rfl⟩
      · exact Or.inl ⟨hv, hex⟩
      · exact Or.inr rfl
  · obtain ⟨hbefore, hmissed⟩ := meet_eq_none hnone
    rcases List.mem_append.mp hv with hv | hv
    · exact h.missed hbefore v hv reached hreached
    · obtain rfl := List.mem_singleton.mp hv
      exact hdepth ▸ hmissed reached hreached
  · rw [List.mem_append, List.mem_singleton]
    rcases meet_eq_some hsome with hbefore | ⟨rfl, reached, hreached, rfl, hle⟩
    · exact (h.met mid total hbefore).imp_left Or.inl
    · exact ⟨Or.inr rfl, reached, hreached, by rw [hdepth], hle⟩

/-- A level of the search: what it has seen afterwards, and what its meeting says. -/
theorem expand_spec (maxDepth : ℕ) (other : OrderedMap Id128 Reached)
    (hanswers : Answers store edges) {direction : Direction}
    (htree : Tree edges ⟨direction, none⟩ origin seen)
    (hlevel : SearchedTo edges ⟨direction, none⟩ origin k seen frontier) :
    ∃ s, expand store maxDepth direction frontier seen other none = .ok s ∧
      Tree edges ⟨direction, none⟩ origin s.seen ∧
      SearchedTo edges ⟨direction, none⟩ origin (k + 1) s.seen s.next ∧
      (s.meeting = none → ∀ v ∈ s.next, ∀ reached, other.get v = some reached →
        maxDepth < k + 1 + reached.depth) ∧
      ∀ mid total, s.meeting = some (mid, total) → mid ∈ s.next ∧
        ∃ reached, other.get mid = some reached ∧ total = k + 1 + reached.depth ∧
          total ≤ maxDepth := by
  have hstart : Expanding edges ⟨direction, none⟩ origin maxDepth k seen other []
      ⟨seen, [], none⟩ :=
    ⟨htree, by simp, by simp, by simp, by simp⟩
  rw [expand]
  by_cases hfrontier : frontier = []
  · subst hfrontier
    rw [if_pos rfl]
    refine ⟨_, rfl, htree, hlevel.of_empty fun _ ↦ List.not_mem_nil, hstart.missed, hstart.met⟩
  rw [if_neg hfrontier]
  -- hit by hit: each is an edge from the frontier
  have hrun : ∀ hits, (∀ hit ∈ hits, hit ∈ store.batchNeighbors frontier ⟨direction, none⟩) →
      ∃ s, hits.foldlM (expandHit maxDepth other) ⟨seen, [], none⟩ = .ok s ∧
        Expanding edges ⟨direction, none⟩ origin maxDepth k seen other hits s := by
    intro hits hmem
    induction hits using List.reverseRecOn with
    | nil => exact ⟨_, rfl, hstart⟩
    | append_singleton hits hit ih =>
      obtain ⟨s, hs, hexpanding⟩ := ih fun h hh ↦ hmem h (List.mem_append_left _ hh)
      obtain ⟨hsrc, e, he, hid, hjoins⟩ := (hanswers.batchNeighbors _ _ _ _).mp
        (hmem hit (List.mem_append_right _ (List.mem_singleton_self hit)))
      obtain ⟨s', hs', hexpanding'⟩ := hexpanding.expandHit hlevel hsrc he hid hjoins
      refine ⟨s', ?_, hexpanding'⟩
      rw [List.foldlM_append, hs]
      change List.foldlM (Traversal.expandHit maxDepth other) s [hit] = _
      rw [List.foldlM_cons, hs']
      rfl
  obtain ⟨s, hs, hexpanding⟩ := hrun _ fun _ h ↦ h
  refine ⟨s, hs, hexpanding.tree, hlevel.next (fun v ↦ ?_) hexpanding.marked, hexpanding.missed,
    hexpanding.met⟩
  rw [hexpanding.new, hanswers.exists_hit]

theorem Apart.symm (h : Apart maxDepth seen other) : Apart maxDepth other seen :=
  fun v f r hf hr ↦ Nat.add_comm r.depth f.depth ▸ h v r f hr hf

/-- An entry of a seen node has a depth up to the level. -/
theorem SearchedTo.depth_le (h : SearchedTo edges query origin k seen frontier)
    (htree : Tree edges query origin seen) {v : Id128} {reached : Reached}
    (hv : seen.get v = some reached) : reached.depth ≤ k := by
  obtain ⟨j, hj, hdist⟩ := (h.seen v).mp (Option.isSome_iff_exists.mpr ⟨reached, hv⟩)
  exact (htree.distance v reached hv).unique hdist ▸ hj

/-- The node at a distance up to the level has an entry of that depth. -/
theorem SearchedTo.exists_entry (h : SearchedTo edges query origin k seen frontier)
    (htree : Tree edges query origin seen) {v : Id128} {j : ℕ} (hj : j ≤ k)
    (hdist : IsDistance (Adjacent edges query) j origin v) :
    ∃ reached, seen.get v = some reached ∧ reached.depth = j := by
  obtain ⟨reached, hreached⟩ := Option.isSome_iff_exists.mp ((h.seen v).mpr ⟨j, hj, hdist⟩)
  exact ⟨reached, hreached, (htree.distance v reached hreached).unique hdist⟩

/-- A level without a meeting keeps the searches apart. -/
theorem SearchedTo.apart {seen' : OrderedMap Id128 Reached} {next : List Id128}
    (h : SearchedTo edges query origin k seen frontier) (htree : Tree edges query origin seen)
    (h' : SearchedTo edges query origin (k + 1) seen' next) (htree' : Tree edges query origin seen')
    (hapart : Apart maxDepth seen other)
    (hmissed : ∀ v ∈ next, ∀ reached, other.get v = some reached →
      maxDepth < k + 1 + reached.depth) : Apart maxDepth seen' other := by
  intro v f r hf hr
  have hdist := htree'.distance v f hf
  rcases Nat.le_succ_iff.mp (h'.depth_le htree' hf) with hle | heq
  · obtain ⟨f', hf', hdepth⟩ := h.exists_entry htree hle hdist
    exact hdepth ▸ hapart v f' r hf' hr
  · rw [heq] at hdist ⊢
    exact hmissed v ((h'.frontier v).mpr hdist) r hr

end Levels

/-! ## Meeting -/

section Meeting

variable {store : GraphStore Content} {edges : List (Edge Content)} {source target : Id128}
  {maxDepth a b : ℕ} {fwd bwd : OrderedMap Id128 Reached} {fwdFrontier bwdFrontier : List Id128}

/-- One step along an edge. -/
def Step (edges : List (Edge Content)) (u v : Id128) : Prop :=
  ∃ e ∈ edges, e.sourceId = u ∧ e.targetId = v

theorem adjacent_out (edges : List (Edge Content)) : Adjacent edges ⟨.out, none⟩ = Step edges := by
  funext u v
  simp [Adjacent, Step, NeighborQuery.Joins, NeighborQuery.admits, Direction.Leads]

theorem adjacent_in (edges : List (Edge Content)) :
    Adjacent edges ⟨.«in», none⟩ = fun u v ↦ Step edges v u := by
  funext u v
  simp [Adjacent, Step, NeighborQuery.Joins, NeighborQuery.admits, Direction.Leads, and_comm]

/-- The search from the start has gone to one depth and the search from the end to another. -/
structure Searched (edges : List (Edge Content)) (source target : Id128) (a b : ℕ)
    (fwd : OrderedMap Id128 Reached) (fwdFrontier : List Id128) (bwd : OrderedMap Id128 Reached)
    (bwdFrontier : List Id128) : Prop where
  fwdTree : Tree edges ⟨.out, none⟩ source fwd
  fwdLevel : SearchedTo edges ⟨.out, none⟩ source a fwd fwdFrontier
  bwdTree : Tree edges ⟨.«in», none⟩ target bwd
  bwdLevel : SearchedTo edges ⟨.«in», none⟩ target b bwd bwdFrontier

namespace Searched

variable (h : Searched edges source target a b fwd fwdFrontier bwd bwdFrontier)
include h

theorem steps_fwd {v : Id128} {reached : Reached} (hv : fwd.get v = some reached) :
    IsDistance (Step edges) reached.depth source v :=
  adjacent_out edges ▸ h.fwdTree.distance v reached hv

theorem steps_bwd {v : Id128} {reached : Reached} (hv : bwd.get v = some reached) :
    IsDistance (Step edges) reached.depth v target := by
  have hdist := h.bwdTree.distance v reached hv
  rw [adjacent_in] at hdist
  exact isDistance_swap.mp hdist

theorem exists_fwd {v : Id128} {j : ℕ} (hj : j ≤ a) (hdist : IsDistance (Step edges) j source v) :
    ∃ reached, fwd.get v = some reached ∧ reached.depth = j :=
  h.fwdLevel.exists_entry h.fwdTree hj (adjacent_out edges ▸ hdist)

theorem exists_bwd {v : Id128} {j : ℕ} (hj : j ≤ b) (hdist : IsDistance (Step edges) j v target) :
    ∃ reached, bwd.get v = some reached ∧ reached.depth = j := by
  refine h.bwdLevel.exists_entry h.bwdTree hj ?_
  rw [adjacent_in]
  exact isDistance_swap.mpr hdist

/-- If no node is seen from both ends within the bound, no path is that short. -/
theorem not_isDistance (hapart : Apart maxDepth fwd bwd) {d : ℕ} (hd : d ≤ maxDepth)
    (hlevels : d ≤ a + b) : ¬IsDistance (Step edges) d source target := by
  intro hdist
  -- the node of the path that both searches have seen
  obtain ⟨j, k, rfl, hj, hk⟩ : ∃ j k, d = j + k ∧ j ≤ a ∧ k ≤ b :=
    ⟨min a d, d - min a d, by omega, by omega, by omega⟩
  obtain ⟨w, hfwd, hbwd⟩ := hdist.split
  obtain ⟨f, hf, rfl⟩ := h.exists_fwd hj hfwd
  obtain ⟨r, hr, rfl⟩ := h.exists_bwd hk hbwd
  exact absurd (hapart w f r hf hr) (not_lt.mpr hd)

/-- If every path is as long as the levels, a node where the searches meet is on a shortest one. -/
theorem isDistance_of_meeting {v : Id128} {f r : Reached} (hf : fwd.get v = some f)
    (hr : bwd.get v = some r)
    (hshort : ∀ d < f.depth + r.depth, ¬IsDistance (Step edges) d source target) :
    IsDistance (Step edges) (f.depth + r.depth) source target := by
  have hsteps : Steps (Step edges) (f.depth + r.depth) source target :=
    steps_add.mpr ⟨v, (h.steps_fwd hf).1, (h.steps_bwd hr).1⟩
  obtain ⟨d, hd, hdist⟩ := exists_isDistance_of_steps hsteps
  rcases hd.lt_or_eq with hlt | rfl
  · exact absurd hdist (hshort d hlt)
  · exact hdist

end Searched

/-- The node is seen from both ends, on a shortest path within the bound. -/
def Meets (edges : List (Edge Content)) (source target : Id128) (maxDepth : ℕ)
    (fwd bwd : OrderedMap Id128 Reached) (mid : Id128) : Prop :=
  ∃ f r, fwd.get mid = some f ∧ bwd.get mid = some r ∧ f.depth + r.depth ≤ maxDepth ∧
    IsDistance (Step edges) (f.depth + r.depth) source target

namespace Searched

/-- A level along the edges. -/
theorem forward (hanswers : Answers store edges)
    (h : Searched edges source target a b fwd fwdFrontier bwd bwdFrontier)
    (hapart : Apart maxDepth fwd bwd) :
    ∃ s, expand store maxDepth .out fwdFrontier fwd bwd none = .ok s ∧
      Searched edges source target (a + 1) b s.seen s.next bwd bwdFrontier ∧
      (s.meeting = none → Apart maxDepth s.seen bwd) ∧
      ∀ mid total, s.meeting = some (mid, total) →
        Meets edges source target maxDepth s.seen bwd mid := by
  obtain ⟨s, hs, htree, hlevel, hmissed, hmet⟩ :=
    expand_spec maxDepth bwd hanswers h.fwdTree h.fwdLevel
  have hnext : Searched edges source target (a + 1) b s.seen s.next bwd bwdFrontier :=
    ⟨htree, hlevel, h.bwdTree, h.bwdLevel⟩
  refine ⟨s, hs, hnext, fun hnone ↦ h.fwdLevel.apart h.fwdTree hlevel htree hapart (hmissed hnone),
    fun mid total hsome ↦ ?_⟩
  obtain ⟨hmid, r, hr, rfl, hle⟩ := hmet mid total hsome
  obtain ⟨f, hf, hdepth⟩ := hlevel.exists_entry htree le_rfl ((hlevel.frontier mid).mp hmid)
  have hrle := h.bwdLevel.depth_le h.bwdTree hr
  refine ⟨f, r, hf, hr, by rwa [hdepth], hnext.isDistance_of_meeting hf hr fun d hd ↦ ?_⟩
  exact h.not_isDistance hapart (by omega) (by omega)

/-- A level against the edges. -/
theorem backward (hanswers : Answers store edges)
    (h : Searched edges source target a b fwd fwdFrontier bwd bwdFrontier)
    (hapart : Apart maxDepth fwd bwd) :
    ∃ s, expand store maxDepth .«in» bwdFrontier bwd fwd none = .ok s ∧
      Searched edges source target a (b + 1) fwd fwdFrontier s.seen s.next ∧
      (s.meeting = none → Apart maxDepth fwd s.seen) ∧
      ∀ mid total, s.meeting = some (mid, total) →
        Meets edges source target maxDepth fwd s.seen mid := by
  obtain ⟨s, hs, htree, hlevel, hmissed, hmet⟩ :=
    expand_spec maxDepth fwd hanswers h.bwdTree h.bwdLevel
  have hnext : Searched edges source target a (b + 1) fwd fwdFrontier s.seen s.next :=
    ⟨h.fwdTree, h.fwdLevel, htree, hlevel⟩
  refine ⟨s, hs, hnext, fun hnone ↦ ?_, fun mid total hsome ↦ ?_⟩
  · exact (h.bwdLevel.apart h.bwdTree hlevel htree hapart.symm (hmissed hnone)).symm
  obtain ⟨hmid, f, hf, rfl, hle⟩ := hmet mid total hsome
  obtain ⟨r, hr, hdepth⟩ := hlevel.exists_entry htree le_rfl ((hlevel.frontier mid).mp hmid)
  have hfle := h.fwdLevel.depth_le h.fwdTree hf
  refine ⟨f, r, hf, hr, by omega, hnext.isDistance_of_meeting hf hr fun d hd ↦ ?_⟩
  exact h.not_isDistance hapart (by omega) (by omega)

end Searched

/-- The end of the search: a meeting on a shortest path, or no path within the bound. -/
structure Settled (edges : List (Edge Content)) (source target : Id128) (maxDepth : ℕ)
    (s : Search) : Prop where
  fwdTree : Tree edges ⟨.out, none⟩ source s.fwd
  bwdTree : Tree edges ⟨.«in», none⟩ target s.bwd
  met : ∀ mid total, s.meeting = some (mid, total) →
    Meets edges source target maxDepth s.fwd s.bwd mid
  missed : s.meeting = none → ∀ d ≤ maxDepth, ¬IsDistance (Step edges) d source target

theorem searchLevels_spec (hanswers : Answers store edges) (rounds : ℕ) (s : Search)
    (h : Searched edges source target a a s.fwd s.fwdFrontier s.bwd s.bwdFrontier)
    (hapart : Apart maxDepth s.fwd s.bwd) (hmeeting : s.meeting = none)
    (hrounds : maxDepth < a + rounds) :
    ∃ s', searchLevels store maxDepth rounds s = .ok s' ∧
      Settled edges source target maxDepth s' := by
  induction rounds generalizing a s with
  | zero =>
    refine ⟨s, rfl, h.fwdTree, h.bwdTree, by simp [hmeeting], fun _ d hd ↦ ?_⟩
    exact h.not_isDistance hapart hd (by omega)
  | succ rounds ih =>
    rw [searchLevels]
    by_cases hempty : s.fwdFrontier = [] ∧ s.bwdFrontier = []
    · -- both searches have seen all they can reach
      rw [if_pos hempty]
      refine ⟨s, rfl, h.fwdTree, h.bwdTree, by simp [hmeeting], fun _ d hd ↦ ?_⟩
      have hall : Searched edges source target (a + d) a s.fwd s.fwdFrontier s.bwd
          s.bwdFrontier := by
        refine ⟨h.fwdTree, h.fwdLevel.of_empty_le (fun v ↦ ?_) (Nat.le_add_right a d), h.bwdTree,
          h.bwdLevel⟩
        rw [hempty.1]
        exact List.not_mem_nil
      exact hall.not_isDistance hapart hd (by omega)
    rw [if_neg hempty, hmeeting]
    obtain ⟨forward, hforward, hsearched, hmissed, hmet⟩ := h.forward hanswers hapart
    rw [hforward]
    simp only
    rcases hmid : forward.meeting with - | meeting
    · obtain ⟨backward, hbackward, hsearched', hmissed', hmet'⟩ :=
        hsearched.backward hanswers (hmissed hmid)
      simp only [Option.isSome_none, Bool.false_eq_true, if_false, hbackward]
      rcases hmid' : backward.meeting with - | meeting
      · exact ih _ hsearched' (hmissed' hmid') rfl (by omega)
      · refine ⟨_, rfl, hsearched'.fwdTree, hsearched'.bwdTree, ?_, by simp⟩
        rintro mid total ⟨⟩
        exact hmet' mid total hmid'
    · refine ⟨_, rfl, hsearched.fwdTree, hsearched.bwdTree, ?_, by simp⟩
      rintro mid total ⟨⟩
      exact hmet mid total hmid

end Meeting

/-! ## The path -/

section Path

variable {store : GraphStore Content} {edges : List (Edge Content)} {source target : Id128}

/-- A list of nodes with the edges to them leads from a node to another. -/
inductive Leads (edges : List (Edge Content)) : Id128 → List (Id128 × Option Id128) → Id128 → Prop
  | nil (u : Id128) : Leads edges u [] u
  | cons {e : Edge Content} {steps : List (Id128 × Option Id128)} {v : Id128} (he : e ∈ edges)
      (hsteps : Leads edges e.targetId steps v) :
      Leads edges e.sourceId ((e.targetId, some e.id) :: steps) v

theorem Leads.append {u v w : Id128} {steps others : List (Id128 × Option Id128)}
    (h : Leads edges u steps v) (hothers : Leads edges v others w) :
    Leads edges u (steps ++ others) w := by
  induction h with
  | nil u => exact hothers
  | cons he _ ih => exact Leads.cons he (ih hothers)

/-- The parents behind a node lead to it from the start. -/
theorem parentChain_spec {fwd : OrderedMap Id128 Reached}
    (htree : Tree edges ⟨.out, none⟩ source fwd) {bound : ℕ} {cur : Id128} {reached : Reached}
    (hcur : fwd.get cur = some reached) (hbound : reached.depth < bound) :
    ∃ chain steps, parentChain fwd bound cur = .ok chain ∧
      chain.reverse = (source, none) :: steps ∧ steps.length = reached.depth ∧
      Leads edges source steps cur := by
  induction bound generalizing cur reached with
  | zero => omega
  | succ bound ih =>
    rw [parentChain, hcur]
    rcases htree.entry cur reached hcur with ⟨rfl, rfl⟩ | ⟨p, parent, hp, e, he, hjoins, rfl⟩
    · exact ⟨_, [], rfl, rfl, rfl, Leads.nil _⟩
    · obtain ⟨chain, steps, hchain, hreverse, hlength, hleads⟩ :=
        ih hp (Nat.lt_of_succ_lt_succ hbound)
      obtain ⟨-, rfl, rfl⟩ := hjoins
      refine ⟨(e.targetId, some e.id) :: chain, steps ++ [(e.targetId, some e.id)], ?_, ?_, ?_,
        hleads.append (Leads.cons he (Leads.nil _))⟩
      · simp only [hchain]
        rfl
      · rw [List.reverse_cons, hreverse, List.cons_append]
      · rw [List.length_append, hlength, List.length_singleton]

/-- The children ahead of a node lead from it to the end. -/
theorem childChain_spec {bwd : OrderedMap Id128 Reached}
    (htree : Tree edges ⟨.«in», none⟩ target bwd) {bound : ℕ} {cur : Id128} {reached : Reached}
    (hcur : bwd.get cur = some reached) (hbound : reached.depth < bound) :
    ∃ steps, childChain bwd bound cur = .ok steps ∧ steps.length = reached.depth ∧
      Leads edges cur steps target := by
  induction bound generalizing cur reached with
  | zero => omega
  | succ bound ih =>
    rw [childChain, hcur]
    rcases htree.entry cur reached hcur with ⟨rfl, rfl⟩ | ⟨p, parent, hp, e, he, hjoins, rfl⟩
    · exact ⟨[], rfl, rfl, Leads.nil _⟩
    · obtain ⟨steps, hsteps, hlength, hleads⟩ := ih hp (Nat.lt_of_succ_lt_succ hbound)
      obtain ⟨-, rfl, rfl⟩ := hjoins
      refine ⟨(e.targetId, some e.id) :: steps, ?_, ?_, Leads.cons he hleads⟩
      · simp only [hsteps]
        rfl
      · rw [List.length_cons, hlength]

/-- The nodes of a path from a depth on. -/
def pathFrom (fetched : Id128 → Option (Edge Content)) :
    ℕ → List (Id128 × Option Id128) → List (PathNode Content)
  | _, [] => []
  | depth, p :: steps => ⟨p.1, depth, p.2.bind fetched⟩ :: pathFrom fetched (depth + 1) steps

theorem mapIdx_eq_pathFrom (fetched : Id128 → Option (Edge Content)) (depth : ℕ)
    (steps : List (Id128 × Option Id128)) :
    (steps.mapIdx fun i p ↦ (⟨p.1, depth + i, p.2.bind fetched⟩ : PathNode Content)) =
      pathFrom fetched depth steps := by
  induction steps generalizing depth with
  | nil => rfl
  | cons p steps ih =>
    rw [List.mapIdx_cons, pathFrom, ← ih]
    simp only [Nat.add_zero, Nat.add_assoc, Nat.add_comm 1]

theorem pathFrom_append (fetched : Id128 → Option (Edge Content)) (depth : ℕ)
    (steps others : List (Id128 × Option Id128)) :
    pathFrom fetched depth (steps ++ others) =
      pathFrom fetched depth steps ++ pathFrom fetched (depth + steps.length) others := by
  induction steps generalizing depth with
  | nil => rfl
  | cons p steps ih =>
    rw [List.cons_append, pathFrom, pathFrom, ih, List.cons_append, List.length_cons,
      Nat.add_right_comm, Nat.add_assoc]

/-- The two chains as one path. -/
theorem splice_eq (store : GraphStore Content) (steps others : List (Id128 × Option Id128)) :
    splice store ((source, none) :: steps) others =
      ⟨source, 0, none⟩ :: pathFrom
        (edgeMap (store.getEdges ((steps ++ others).filterMap Prod.snd))).get 1
        (steps ++ others) := by
  rw [splice, List.mapIdx_cons, pathFrom_append, ← mapIdx_eq_pathFrom, ← mapIdx_eq_pathFrom]
  simp [Nat.add_comm]

/-- One node of a path after another. -/
def Follows (edges : List (Edge Content)) (previous node : PathNode Content) : Prop :=
  node.depth = previous.depth + 1 ∧ ∃ e ∈ edges, node.viaEdge = some e ∧
    e.sourceId = previous.entityId ∧ e.targetId = node.entityId

/-- A path of a length from one node to another. -/
structure IsPath (edges : List (Edge Content)) (source target : Id128) (distance : ℕ)
    (path : List (PathNode Content)) : Prop where
  head : path.head? = some ⟨source, 0, none⟩
  last : path.getLast?.map PathNode.entityId = some target
  length : path.length = distance + 1
  depths : path.map PathNode.depth = List.range (distance + 1)
  joined : path.IsChain (Follows edges)

theorem Leads.isChain {u v : Id128} {steps : List (Id128 × Option Id128)}
    (h : Leads edges u steps v) {fetched : Id128 → Option (Edge Content)}
    (hfetched : ∀ e ∈ edges, e.id ∈ steps.filterMap Prod.snd → fetched e.id = some e)
    (depth : ℕ) (via : Option (Edge Content)) :
    (⟨u, depth, via⟩ :: pathFrom fetched (depth + 1) steps).IsChain (Follows edges) := by
  induction h generalizing depth via with
  | nil u => exact List.isChain_singleton _
  | @cons e steps v he _ ih =>
    have hget := hfetched e he (by simp)
    rw [pathFrom]
    refine List.isChain_cons_cons.mpr ⟨⟨rfl, e, he, hget, rfl, rfl⟩, ih (fun f hf hid ↦ ?_) _ _⟩
    exact hfetched f hf (by simp [hid])

theorem Leads.getLast {u v : Id128} {steps : List (Id128 × Option Id128)}
    (h : Leads edges u steps v) (fetched : Id128 → Option (Edge Content)) (depth : ℕ)
    (via : Option (Edge Content)) :
    (⟨u, depth, via⟩ :: pathFrom fetched (depth + 1) steps).getLast?.map PathNode.entityId =
      some v := by
  induction h generalizing depth via with
  | nil u => rfl
  | cons _ _ ih => exact ih _ _

theorem map_depth_pathFrom (fetched : Id128 → Option (Edge Content)) (depth : ℕ)
    (steps : List (Id128 × Option Id128)) :
    (pathFrom fetched depth steps).map PathNode.depth = List.range' depth steps.length := by
  induction steps generalizing depth with
  | nil => rfl
  | cons p steps ih =>
    rw [pathFrom, List.map_cons, ih, List.length_cons, List.range'_succ]

/-- Nodes that lead to the end are a path once their edges are fetched. -/
theorem Leads.isPath (hanswers : Answers store edges) {steps : List (Id128 × Option Id128)}
    (h : Leads edges source steps target) :
    IsPath edges source target steps.length (⟨source, 0, none⟩ ::
      pathFrom (edgeMap (store.getEdges (steps.filterMap Prod.snd))).get 1 steps) where
  head := rfl
  last := h.getLast _ 0 none
  length := by
    have hlength := congrArg List.length (map_depth_pathFrom
      (edgeMap (store.getEdges (steps.filterMap Prod.snd))).get 1 steps)
    rw [List.length_map, List.length_range'] at hlength
    rw [List.length_cons, hlength]
  depths := by
    rw [List.map_cons, map_depth_pathFrom, List.range_eq_range', List.range'_succ]
  joined := h.isChain (fun _ he hid ↦ hanswers.get_edgeMap he hid) 0 none

end Path

/-- `shortest_path` finds a path exactly when the distance is within the bound, and the path is as
long as the distance. -/
theorem shortestPath_spec {store : GraphStore Content} {edges : List (Edge Content)}
    {source target : Id128} {maxDepth : ℕ} (hanswers : Answers store edges)
    (hsource : store.substrateExists source = true)
    (htarget : store.substrateExists target = true) :
    ∃ found, shortestPath store source target maxDepth = .ok found ∧
      (found.isSome ↔ ∃ d ≤ maxDepth, IsDistance (Step edges) d source target) ∧
      ∀ path, found = some path → ∃ d, IsDistance (Step edges) d source target ∧
        IsPath edges source target d path := by
  rw [shortestPath, hsource, htarget]
  simp only [Bool.not_true, Bool.or_self, Bool.false_eq_true, if_false]
  by_cases heq : source = target
  · subst heq
    rw [if_pos rfl]
    have hzero : IsDistance (Step edges) 0 source source := isDistance_zero.mpr rfl
    refine ⟨_, rfl, iff_of_true rfl ⟨0, Nat.zero_le _, hzero⟩, ?_⟩
    rintro _ ⟨⟩
    exact ⟨0, hzero, rfl, rfl, rfl, rfl, List.isChain_singleton _⟩
  rw [if_neg heq]
  have hsearched : Searched edges source target 0 0
      (OrderedMap.empty.insert source ⟨0, none, none⟩) [source]
      (OrderedMap.empty.insert target ⟨0, none, none⟩) [target] :=
    ⟨tree_origin, searchedTo_origin, tree_origin, searchedTo_origin⟩
  have hrounds : maxDepth < 0 + (maxDepth + 1) := by omega
  obtain ⟨s, hs, hsettled⟩ := searchLevels_spec hanswers (maxDepth + 1)
    (Search.start source target) hsearched (apart_origins heq) rfl hrounds
  rw [hs]
  simp only
  rcases hmeeting : s.meeting with - | ⟨mid, total⟩
  · refine ⟨none, rfl, iff_of_false (by simp) ?_, by simp⟩
    rintro ⟨d, hd, hdist⟩
    exact hsettled.missed hmeeting d hd hdist
  -- the two halves of the path are read off the trees at the meeting point
  obtain ⟨f, r, hf, hr, hle, hdist⟩ := hsettled.met mid total hmeeting
  have hfbound : f.depth < maxDepth + 1 := by omega
  have hrbound : r.depth < maxDepth + 1 := by omega
  obtain ⟨fwdChain, steps, hfwd, hreverse, hlength, hleads⟩ :=
    parentChain_spec hsettled.fwdTree hf hfbound
  obtain ⟨others, hbwd, hlength', hleads'⟩ := childChain_spec hsettled.bwdTree hr hrbound
  refine ⟨some (splice store fwdChain.reverse others), ?_, iff_of_true rfl ⟨_, hle, hdist⟩, ?_⟩
  · simp only [hfwd, hbwd]
    rfl
  · rintro _ ⟨⟩
    have hpath := (hleads.append hleads').isPath hanswers
    rw [List.length_append, hlength, hlength'] at hpath
    rw [hreverse, splice_eq]
    exact ⟨_, hdist, hpath⟩

section Sample

/-- Two ways from node 0 to node 3, the direct one last. -/
def sampleDetour : List (Edge Unit) :=
  [⟨10, 0, 1, .linksTo, ()⟩, ⟨11, 1, 2, .linksTo, ()⟩, ⟨12, 2, 3, .linksTo, ()⟩,
    ⟨13, 0, 2, .linksTo, ()⟩]

theorem shortestPath_spec_detour :
    ∃ found, shortestPath (storeOf sampleDetour) 0 3 4 = .ok found ∧
      (found.isSome ↔ ∃ d ≤ 4, IsDistance (Step sampleDetour) d 0 3) ∧
      ∀ path, found = some path → ∃ d, IsDistance (Step sampleDetour) d 0 3 ∧
        IsPath sampleDetour 0 3 d path :=
  shortestPath_spec (answers_storeOf (by decide)) rfl rfl

end Sample

end Khive.Traversal
