import Khive.Foundation.Returns
import Khive.Vamana.Frontier

/-!
# Greedy search

A greedy search takes the best unexpanded candidate from its queue and offers the neighbours that it
has not seen before. The queue is the bounded frontier, or the plain beam; the search is the same.
Every operation on the frontier keeps it the best of what was offered, with a mark on exactly the
candidates that were taken, so that no node is taken twice.
-/

namespace Khive

namespace Vamana

open Beam

variable {δ : Type} [LinearOrder δ]

/-! ## The search -/

/-- What a search does with its queue. -/
structure Queue (δ Q : Type) where
  new : Q
  insert : Q → ℕ → δ → Q
  takeNext : Q → Option ((ℕ × δ) × Q)
  candidates : Q → List (Candidate δ)

def frontierQueue (capacity : ℕ) : Queue δ (Frontier δ) where
  new := Frontier.new capacity
  insert := Frontier.insert
  takeNext := Frontier.takeNext
  candidates := Frontier.entries

def beamQueue (capacity : ℕ) : Queue δ (List (Candidate δ)) where
  new := []
  insert := beamOffer capacity
  takeNext := beamTake
  candidates beam := beam

/-- What a search looks at: the lists of neighbours, the distance of every row to the query, and
the tombstones. Reading a list or a row that is not there panics. -/
structure Graph (δ : Type) where
  adjacency : List (List ℕ)
  distances : List δ
  tombstoned : ℕ → Bool

structure GreedySearchResult (δ : Type) where
  results : List (ℕ × δ)
  expanded : List (ℕ × δ)

/-- The variables of a search. -/
structure SearchState (δ Q : Type) where
  queue : Q
  visited : List ℕ
  expanded : List (ℕ × δ)

section Search

variable {Q : Type} (queue : Queue δ Q) (graph : Graph δ)

/-- Offer a neighbour that is neither tombstoned nor visited. -/
def offerNeighbor (s : SearchState δ Q) (neighbor : ℕ) : Option (SearchState δ Q) :=
  if graph.tombstoned neighbor then some s
  else if s.visited.contains neighbor then some s
  else do
    let d ← graph.distances[neighbor]?
    pure { s with
      queue := queue.insert s.queue neighbor d
      visited := neighbor :: s.visited }

/-- Expand the next candidate. -/
def searchPass (s : SearchState δ Q) :
    Option (Pass (SearchState δ Q) (SearchState δ Q)) :=
  match queue.takeNext s.queue with
  | none => pure (.leave s)
  | some (current, taken) => do
    let neighbors ← graph.adjacency[current.1]?
    let s ← neighbors.foldlM (offerNeighbor queue graph)
      { s with queue := taken, expanded := s.expanded ++ [current] }
    pure (.again s)

/-- The search over a queue. -/
def searchWith (passes start k : ℕ) : Option (GreedySearchResult δ) :=
  if graph.tombstoned start then some ⟨[], []⟩
  else do
    let startDist ← graph.distances[start]?
    let s ← loop (searchPass queue graph) passes
      ⟨queue.insert queue.new start startDist, [start], []⟩
    let live := (queue.candidates s.queue).filter fun c ↦ !graph.tombstoned c.id
    pure ⟨(live.take k).map fun c ↦ (c.id, c.distance), s.expanded⟩

end Search

def greedySearchInner (graph : Graph δ) (start k searchListSize passes : ℕ) :
    Option (GreedySearchResult δ) :=
  searchWith (frontierQueue (max searchListSize k)) graph passes start k

/-- The search over the plain beam. -/
def plainSearch (graph : Graph δ) (start k searchListSize passes : ℕ) :
    Option (GreedySearchResult δ) :=
  searchWith (beamQueue (max searchListSize k)) graph passes start k

/-! ## One search -/

/-- The states of the two searches: the frontier refines the beam, and everything in it was
visited. -/
structure SameSearch (capacity : ℕ) (s : SearchState δ (Frontier δ))
    (t : SearchState δ (List (Candidate δ))) : Prop where
  refines : Refines s.queue capacity t.queue
  visited : s.visited = t.visited
  expanded : s.expanded = t.expanded
  seen : ∀ c ∈ t.queue, c.id ∈ t.visited

section Same

variable {capacity : ℕ} {graph : Graph δ}

theorem SameSearch.offer {s : SearchState δ (Frontier δ)} {t : SearchState δ (List (Candidate δ))}
    (h : SameSearch capacity s t) (neighbor : ℕ) : Related (SameSearch capacity)
      (offerNeighbor (frontierQueue capacity) graph s neighbor)
      (offerNeighbor (beamQueue capacity) graph t neighbor) := by
  rw [offerNeighbor, offerNeighbor, h.visited]
  split_ifs with htombstoned hvisited
  · exact .inr ⟨s, t, rfl, rfl, h⟩
  · exact .inr ⟨s, t, rfl, rfl, h⟩
  · rcases hd : graph.distances[neighbor]? with - | d
    · exact .inl ⟨rfl, rfl⟩
    · have hnew : ∀ c ∈ t.queue, c.id ≠ neighbor := by
        rintro c hc rfl
        exact hvisited (List.contains_iff_mem.mpr (h.seen c hc))
      refine .inr ⟨_, _, rfl, rfl, h.refines.insert d hnew, rfl, h.expanded, fun c hc ↦ ?_⟩
      rcases mem_beamOffer hc with rfl | hc
      · exact List.mem_cons_self
      · exact List.mem_cons_of_mem _ (h.seen c hc)

theorem SameSearch.pass {s : SearchState δ (Frontier δ)} {t : SearchState δ (List (Candidate δ))}
    (h : SameSearch capacity s t) :
    Related (Pass.Related (SameSearch capacity) (SameSearch capacity))
      (searchPass (frontierQueue capacity) graph s)
      (searchPass (beamQueue capacity) graph t) := by
  rw [searchPass, searchPass]
  rcases h.refines.takeNext with ⟨hs, ht⟩ | ⟨taken, frontier, beam, hs, ht, hrefines⟩
  · have hs' : (frontierQueue capacity).takeNext s.queue = none := hs
    have ht' : (beamQueue capacity).takeNext t.queue = none := ht
    rw [hs', ht']
    exact related_some h
  · have hs' : (frontierQueue capacity).takeNext s.queue = some (taken, frontier) := hs
    have ht' : (beamQueue capacity).takeNext t.queue = some (taken, beam) := ht
    rw [hs', ht']
    have hstart : SameSearch capacity
        { s with queue := frontier, expanded := s.expanded ++ [taken] }
        { t with queue := beam, expanded := t.expanded ++ [taken] } := by
      refine ⟨hrefines, h.visited, by rw [h.expanded], fun c hc ↦ ?_⟩
      have hids := map_id_of_beamTake ht
      obtain ⟨d, hd, hid⟩ := List.mem_map.mp (hids ▸ List.mem_map_of_mem hc)
      exact hid ▸ h.seen d hd
    refine (related_refl graph.adjacency[taken.1]?).bind ?_
    rintro neighbors _ rfl
    exact (Related.foldlM (fun s t neighbor h ↦ h.offer neighbor) hstart neighbors).bind
      fun s' t' h' ↦ related_some h'

/-- Both searches come to the same result, or both panic or are cut off. -/
theorem greedySearchInner_eq_plainSearch (start k searchListSize passes : ℕ) :
    greedySearchInner graph start k searchListSize passes =
      plainSearch graph start k searchListSize passes := by
  rw [greedySearchInner, plainSearch, searchWith, searchWith]
  split_ifs with htombstoned
  · rfl
  · rcases hd : graph.distances[start]? with - | d
    · rfl
    · have hstart : SameSearch (max searchListSize k)
          (⟨(frontierQueue (max searchListSize k)).insert (frontierQueue (max searchListSize k)).new
            start d, [start], []⟩ : SearchState δ (Frontier δ))
          ⟨(beamQueue (max searchListSize k)).insert (beamQueue (max searchListSize k)).new start d,
            [start], []⟩ := by
        refine ⟨(refines_new _).insert d fun c hc ↦ absurd hc List.not_mem_nil, rfl, rfl, ?_⟩
        intro c hc
        rcases mem_beamOffer hc with rfl | hc
        · exact List.mem_cons_self
        · exact absurd hc List.not_mem_nil
      have hpass : ∀ s t, SameSearch (max searchListSize k) s t →
          Related (Pass.Related (SameSearch (max searchListSize k))
            (SameSearch (max searchListSize k)))
              (searchPass (frontierQueue (max searchListSize k)) graph s)
              (searchPass (beamQueue (max searchListSize k)) graph t) := fun s t h ↦ h.pass
      simp only [Option.bind_eq_bind, Option.bind_some]
      rcases related_loop hpass hstart passes with ⟨hs, ht⟩ | ⟨s, t, hs, ht, h⟩
      · rw [hs, ht]
        rfl
      · have hcandidates : (frontierQueue (max searchListSize k)).candidates s.queue =
            (beamQueue (max searchListSize k)).candidates t.queue := h.refines.entries
        rw [hs, ht, Option.bind_some, Option.bind_some, hcandidates, h.expanded]

end Same

/-! ## The search ends -/

/-- Every list of neighbours and every row is there. -/
structure Graph.WellFormed (graph : Graph δ) : Prop where
  rows : graph.distances.length = graph.adjacency.length
  neighbors : ∀ neighbors ∈ graph.adjacency, ∀ v ∈ neighbors, v < graph.adjacency.length

/-- What holds between the passes: the frontier keeps track of the visited nodes and has marked the
expanded ones, each of which was expanded once. -/
structure Searching (graph : Graph δ) (capacity : ℕ) (s : SearchState δ (Frontier δ)) : Prop where
  tracks : ∃ offered, s.visited = (offered.map idOf).reverse ∧
    Tracks capacity offered (s.expanded.map Prod.fst) s.queue
  visited_lt : ∀ v ∈ s.visited, v < graph.adjacency.length
  nodup : (s.expanded.map Prod.fst).Nodup

section Ending

variable {graph : Graph δ} {capacity : ℕ} {s : SearchState δ (Frontier δ)}

theorem Searching.expanded_lt (h : Searching graph capacity s) :
    ∀ v ∈ s.expanded.map Prod.fst, v < graph.adjacency.length := by
  obtain ⟨offered, hvisited, htracks⟩ := h.tracks
  intro v hv
  refine h.visited_lt v ?_
  rw [hvisited, List.mem_reverse]
  exact htracks.taken_offered v hv

/-- There are no more expansions than nodes. -/
theorem Searching.length_le (h : Searching graph capacity s) :
    s.expanded.length ≤ graph.adjacency.length := by
  have hsub : s.expanded.map Prod.fst ⊆ List.range graph.adjacency.length := fun v hv ↦
    List.mem_range.mpr (h.expanded_lt v hv)
  have hle := (List.subperm_of_subset h.nodup hsub).length_le
  rwa [List.length_map, List.length_range] at hle

/-- Offering a neighbour expands nothing. -/
theorem Searching.offer (h : Searching graph capacity s) (hwf : graph.WellFormed) {neighbor : ℕ}
    (hneighbor : neighbor < graph.adjacency.length) :
    Returns (offerNeighbor (frontierQueue capacity) graph s neighbor) fun s' ↦
      Searching graph capacity s' ∧ s'.expanded = s.expanded := by
  rw [offerNeighbor]
  split_ifs with htombstoned hvisited
  · exact returns_some.mpr ⟨h, rfl⟩
  · exact returns_some.mpr ⟨h, rfl⟩
  · rw [← hwf.rows] at hneighbor
    refine (Returns.getElem? hneighbor).bind fun d _ ↦ returns_pure.mpr ⟨⟨?_, ?_, h.nodup⟩, rfl⟩
    · obtain ⟨offered, heq, htracks⟩ := h.tracks
      refine ⟨offered ++ [toLex (d, neighbor)], ?_, htracks.insert d fun hmem ↦ hvisited ?_⟩
      · rw [List.map_append, List.reverse_append, ← heq]
        rfl
      · rw [List.contains_iff_mem, heq, List.mem_reverse]
        exact hmem
    · intro v hv
      rcases List.mem_cons.mp hv with rfl | hv
      · exact hwf.rows ▸ hneighbor
      · exact h.visited_lt v hv

theorem Searching.pass (h : Searching graph capacity s) (hwf : graph.WellFormed) :
    Returns (searchPass (frontierQueue capacity) graph s)
      (Pass.Satisfies (Searching graph capacity)
        (fun s ↦ graph.adjacency.length - s.expanded.length)
        (fun s ↦ (s.expanded.map Prod.fst).Nodup)
        (graph.adjacency.length - s.expanded.length)) := by
  obtain ⟨offered, hvisited, htracks⟩ := h.tracks
  rw [searchPass]
  rcases htracks.takeNext with ⟨hnone, -⟩ | ⟨best, f, hsome, -, hfree, hoffered, htracks'⟩
  · have hnone' : (frontierQueue capacity).takeNext s.queue = none := hnone
    rw [hnone']
    exact returns_pure.mpr h.nodup
  · have hsome' : (frontierQueue capacity).takeNext s.queue =
        some ((best.id, best.distance), f) := hsome
    rw [hsome']
    have hbest : best.id < graph.adjacency.length := by
      refine h.visited_lt _ ?_
      rw [hvisited, List.mem_reverse]
      exact hoffered
    -- the candidate was not expanded before, since `takeNext` gives out each one once
    have hstart : Searching graph capacity { s with
        queue := f, expanded := s.expanded ++ [(best.id, best.distance)] } := by
      refine ⟨⟨offered, hvisited, ?_⟩, h.visited_lt, ?_⟩
      · rw [List.map_append]
        exact htracks'
      · rw [List.map_append, List.nodup_append]
        refine ⟨h.nodup, List.nodup_singleton _, fun a ha b hb heq ↦ hfree ?_⟩
        have hid : b = best.id := List.mem_singleton.mp hb
        rwa [← hid, ← heq]
    refine (Returns.getElem? hbest).bind fun neighbors hneighbors ↦ ?_
    have hall := hwf.neighbors neighbors (List.mem_of_getElem? hneighbors)
    have hfold : Returns (neighbors.foldlM (offerNeighbor (frontierQueue capacity) graph)
        { s with queue := f, expanded := s.expanded ++ [(best.id, best.distance)] })
          fun s' ↦ Searching graph capacity s' ∧
            s'.expanded = s.expanded ++ [(best.id, best.distance)] := by
      refine Returns.foldlM (fun t v hv ⟨ht, heq⟩ ↦ ?_) ⟨hstart, rfl⟩
      exact (ht.offer hwf (hall v hv)).mono fun t' ⟨ht', heq'⟩ ↦ ⟨ht', heq'.trans heq⟩
    refine hfold.bind fun s' ⟨hs', hexpanded⟩ ↦ returns_pure.mpr ⟨hs', ?_⟩
    have hle := hs'.length_le
    dsimp only
    rw [hexpanded, List.length_append, List.length_singleton] at hle ⊢
    omega

/-- The search ends, after no more passes than there are nodes, and expands no node twice. -/
theorem greedySearchInner_returns (hwf : graph.WellFormed) {start : ℕ}
    (hstart : start < graph.adjacency.length) (k searchListSize : ℕ) {passes : ℕ}
    (hpasses : graph.adjacency.length < passes) :
    Returns (greedySearchInner graph start k searchListSize passes) fun r ↦
      (r.expanded.map Prod.fst).Nodup := by
  rw [greedySearchInner, searchWith]
  split_ifs with htombstoned
  · exact returns_some.mpr List.nodup_nil
  · refine (Returns.getElem? (hwf.rows ▸ hstart)).bind fun d _ ↦ ?_
    have hinit : Searching graph (max searchListSize k)
        ⟨(frontierQueue (max searchListSize k)).insert (frontierQueue (max searchListSize k)).new
          start d, [start], []⟩ := by
      refine ⟨⟨[toLex (d, start)], rfl, (tracks_new _).insert d List.not_mem_nil⟩, fun v hv ↦ ?_,
        List.nodup_nil⟩
      rwa [List.mem_singleton.mp hv]
    refine (returns_loop (fun s hs ↦ Searching.pass hs hwf) hinit
      (lt_of_le_of_lt (Nat.sub_le _ _) hpasses)).bind fun s hs ↦ returns_pure.mpr hs

end Ending

/-! ## The frontier and the beam -/

/-- The frontier is the re-sorted beam: after any calls that offer distinct ids its entries are the
best of what was offered, its cursor is at the first entry that was not taken, which is what the
next call takes, and a search over it is the search over the plain beam, which ends and expands
every node at most once. -/
theorem frontier_eq_beam :
    (∀ (capacity : ℕ) (ops : List (Op δ)), ((offeredBy ops).map idOf).Nodup →
      (runOps capacity ops).1.entries.map Candidate.key = best capacity (offeredBy ops) ∧
      (∀ c ∈ (runOps capacity ops).1.entries,
        (c.expanded = true ↔ c.id ∈ (runOps capacity ops).2)) ∧
      (runOps capacity ops).1.cursor = firstUnexpanded (runOps capacity ops).1.entries ∧
      (runOps capacity ops).1.takeNext.map Prod.fst =
        ((runOps capacity ops).1.entries.find? fun c ↦ !c.expanded).map
          fun c ↦ (c.id, c.distance)) ∧
    ∀ (graph : Graph δ) (start k searchListSize : ℕ),
      (∀ passes, greedySearchInner graph start k searchListSize passes =
        plainSearch graph start k searchListSize passes) ∧
      (graph.WellFormed → start < graph.adjacency.length →
        ∀ passes, graph.adjacency.length < passes →
          Returns (greedySearchInner graph start k searchListSize passes) fun r ↦
            (r.expanded.map Prod.fst).Nodup) := by
  constructor
  · intro capacity ops hdistinct
    have htracks := @tracks_runOps _ _ capacity _ hdistinct
    refine ⟨htracks.keys, htracks.marks, htracks.refines.cursor, ?_⟩
    rcases htracks.takeNext with ⟨hnone, hfind⟩ | ⟨best, f, hsome, hfind, -⟩
    · rw [hnone, hfind]
      rfl
    · rw [hsome, hfind]
      rfl
  · intro graph start k searchListSize
    exact ⟨greedySearchInner_eq_plainSearch start k searchListSize, fun hwf hstart passes hpasses ↦
      greedySearchInner_returns hwf hstart k searchListSize hpasses⟩

/-- Three nodes, the first next to the others. -/
def sampleGraph : Graph ℕ := ⟨[[1, 2], [0], [0]], [5, 3, 4], fun _ ↦ false⟩

theorem frontier_eq_beam_sample :
    greedySearchInner sampleGraph 0 1 2 4 = plainSearch sampleGraph 0 1 2 4 ∧
      Returns (greedySearchInner sampleGraph 0 1 2 4) fun r ↦ (r.expanded.map Prod.fst).Nodup := by
  obtain ⟨-, hsearch⟩ := @frontier_eq_beam ℕ _
  obtain ⟨hsame, hends⟩ := hsearch sampleGraph 0 1 2
  exact ⟨hsame 4, hends ⟨rfl, by decide⟩ (by decide) 4 (by decide)⟩

-- the start is evicted, and was expanded before
example : (greedySearchInner sampleGraph 0 1 2 4).map (·.expanded) =
    some [(0, 5), (1, 3), (2, 4)] := by decide

end Vamana

end Khive
