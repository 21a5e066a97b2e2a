import Khive.Gtd.Dependency

/-!
# Batches of dependency links

A batch of links between tasks is checked against the stored edges and the batch itself: no proposed
edge may close a cycle of the two together. Every proposed edge has a search of its own, from its
target to its source, over the proposed edges and the stored ones, which are read page by page. As
long as no bound cuts a search off, the batch is accepted exactly when no cycle goes through a
proposed edge, whatever their order. A bound cuts a search off only where the nodes it can reach
are too many, or have too many edges, for it (`Exceeds`).
-/

namespace Khive

namespace Gtd

open Relation

/-- `DEPENDENCY_EDGE_MAX_SCANNED_NEIGHBORS`. -/
def dependencyEdgeMaxScannedNeighbors : ℕ := 20000

/-- `DEPENDENCY_EDGE_PAGE_SIZE`. -/
def dependencyEdgePageSize : ℕ := 256

structure LinkSpec where
  sourceId : Id128
  targetId : Id128
  relation : EdgeRelation

/-- Where a page ends. -/
structure NeighborCursor where
  weight : Binary64
  nodeId : Id128
  edgeId : Id128

structure NeighborHit where
  nodeId : Id128
  edgeId : Id128
  weight : Binary64

def NeighborHit.cursor (hit : NeighborHit) : NeighborCursor := ⟨hit.weight, hit.nodeId, hit.edgeId⟩

/-- The stored edges: `neighbors_page` reads the outgoing `depends_on` edges of a node in its page
order, from the first or from behind a cursor. -/
structure GraphStore where
  outgoing : Id128 → List NeighborHit
  neighborsPage : Id128 → ℕ → Option NeighborCursor → List NeighborHit
  firstPage : ∀ node limit, neighborsPage node limit none = (outgoing node).take limit
  pageAfter : ∀ node before hit rest limit, outgoing node = before ++ hit :: rest →
    neighborsPage node limit (some hit.cursor) = rest.take limit

/-! ## Refusals -/

/-- The bounds of a search. -/
inductive WalkBound
  | nodes
  | edges
  | scannedNeighbors
  deriving DecidableEq

/-- What a batch of links is refused for. -/
inductive LinkError
  | targetNotFound (target : Id128)
  | targetNotTask (target : Id128) (kind : String)
  | selfDependency (source : Id128)
  | cycle (source target : Id128)
  | bound (b : WalkBound)
  deriving DecidableEq

/-- The error that is reported. -/
def LinkError.runtimeError (lib : Libraries) : LinkError → RuntimeError
  | targetNotFound target => .notFound ("depends_on target " ++ uuidText target ++ " not found")
  | targetNotTask target kind => .invalidInput ("depends_on target " ++ uuidText target ++
      " must be a task note; got " ++ debugText lib.unprintable kind.toList)
  | selfDependency source => .invalidInput ("depends_on link would create a dependency cycle: task "
      ++ uuidText source ++ " cannot depend on itself")
  | cycle source target => .invalidInput ("depends_on link would create a dependency cycle: " ++
      uuidText source ++ " -> " ++ uuidText target ++ " closes a path back to " ++ uuidText source)
  | bound .nodes => .invalidInput ("depends_on edge cycle validation exceeded the " ++
      toString dependencyWalkMaxNodes ++ "-node safety bound")
  | bound .edges => .invalidInput ("depends_on edge cycle validation exceeded the " ++
      toString dependencyWalkMaxNodes ++ "-edge safety bound")
  | bound .scannedNeighbors => .invalidInput ("depends_on edge cycle validation exceeded the " ++
      toString dependencyEdgeMaxScannedNeighbors ++ "-scanned-neighbor safety bound")

/-! ## Searching -/

section Search

variable (notes : NoteStore) (graph : GraphStore)

/-- The live task of an identifier. -/
def isTask (id : Id128) : Bool := (notes.get id).any fun note ↦ note.kind == "task"

/-- The pages of a node that have been read: where they end, the live tasks on them, and how many
neighbours all pages of the search held. -/
structure PageScan where
  after : Option NeighborCursor
  persistedTargets : List Id128
  scannedNeighbors : ℕ

/-- The hits that are live tasks. -/
def liveTargets (hits : List NeighborHit) : List Id128 :=
  let liveTasks := ((getNotesBatch notes (hits.map NeighborHit.nodeId)).filter fun note ↦
    note.kind == "task").map Note.id
  (hits.filter fun hit ↦ liveTasks.contains hit.nodeId).map NeighborHit.nodeId

/-- Read a page. -/
def readPage (current : Id128) (remaining : ℕ) (s : PageScan) :
    Option (Pass PageScan (Except WalkBound (List Id128 × ℕ))) :=
  let rawRemaining := dependencyEdgeMaxScannedNeighbors - s.scannedNeighbors
  let limit := min dependencyEdgePageSize (rawRemaining + 1)
  let hits := graph.neighborsPage current limit s.after
  match hits.getLast? with
  | none => some (.leave (.ok (s.persistedTargets, s.scannedNeighbors)))
  | some last =>
    let scannedNeighbors := s.scannedNeighbors + hits.length
    let persistedTargets := s.persistedTargets ++ liveTargets notes hits
    if remaining < persistedTargets.length then some (.leave (.error .edges))
    else if dependencyEdgeMaxScannedNeighbors < scannedNeighbors then
      some (.leave (.error .scannedNeighbors))
    else if hits.length < limit then some (.leave (.ok (persistedTargets, scannedNeighbors)))
    else some (.again ⟨some last.cursor, persistedTargets, scannedNeighbors⟩)

def readPages (current : Id128) (remaining scannedNeighbors : ℕ) :
    Option (Except WalkBound (List Id128 × ℕ)) :=
  loop (readPage notes graph current remaining) (dependencyEdgeMaxScannedNeighbors + 1)
    ⟨none, [], scannedNeighbors⟩

/-- The proposed targets of a node. -/
def proposedTargets (proposed : List (Id128 × Id128)) (current : Id128) : List Id128 :=
  (proposed.filter fun link ↦ link.1 == current).map Prod.snd

/-- What visiting a node comes to, which is the `n`-th. The budget is the number of edges traversed
and of neighbours scanned. -/
def expandNode (proposed : List (Id128 × Id128)) : Worklist.Expand Id128 (ℕ × ℕ) WalkBound :=
  fun n spent current ↦
    if dependencyWalkMaxNodes < n then some (.error .nodes)
    else
      let targets := proposedTargets proposed current
      let traversedEdges := spent.1 + targets.length
      let remaining := dependencyWalkMaxNodes - traversedEdges
      if remaining = 0 then some (.error .edges)
      else if isTask notes current then
        (readPages notes graph current remaining spent.2).map fun
          | .error b => .error b
          | .ok (persistedTargets, scannedNeighbors) =>
            .ok ((traversedEdges + persistedTargets.length, scannedNeighbors),
              targets ++ persistedTargets.mergeSort)
      else some (.ok ((traversedEdges, spent.2), targets))

def edgePathReaches (start goal : Id128) (proposed : List (Id128 × Id128)) :
    Option (Except WalkBound Bool) :=
  loop (Worklist.next (expandNode notes graph proposed) goal) (dependencyWalkMaxNodes + 2)
    ⟨[start], ∅, (0, 0)⟩

/-! ## Checking a batch -/

/-- The dependencies between tasks among the links. -/
def taskLinks : List LinkSpec → Except LinkError (List (Id128 × Id128))
  | [] => .ok []
  | link :: rest =>
    if link.relation ≠ .dependsOn then taskLinks rest
    else if !isTask notes link.sourceId then taskLinks rest
    else match notes.get link.targetId with
    | none => .error (.targetNotFound link.targetId)
    | some target =>
      if target.kind ≠ "task" then .error (.targetNotTask link.targetId target.kind)
      else (taskLinks rest).map ((link.sourceId, link.targetId) :: ·)

/-- The proposed edges in order, up to the first that is refused. -/
def checkLinks (proposed : List (Id128 × Id128)) :
    List (Id128 × Id128) → Option (Except LinkError Unit)
  | [] => some (.ok ())
  | (source, target) :: rest =>
    if source = target then some (.error (.selfDependency source))
    else (edgePathReaches notes graph target source proposed).bind fun
      | .error b => some (.error (.bound b))
      | .ok true => some (.error (.cycle source target))
      | .ok false => checkLinks proposed rest

def validateDependencyLinks (links : List LinkSpec) : Option (Except LinkError Unit) :=
  match taskLinks notes links with
  | .error e => some (.error e)
  | .ok proposed => checkLinks notes graph proposed proposed

end Search

/-! ## The graph -/

section Graph

variable {notes : NoteStore} {graph : GraphStore} {proposed : List (Id128 × Id128)}
  {links : List LinkSpec} {u v : Id128}

/-- A stored edge between live tasks. -/
def Persisted (notes : NoteStore) (graph : GraphStore) (u v : Id128) : Prop :=
  isTask notes u = true ∧ isTask notes v = true ∧ v ∈ (graph.outgoing u).map NeighborHit.nodeId

/-- The stored and the proposed edges. -/
def Joined (notes : NoteStore) (graph : GraphStore) (proposed : List (Id128 × Id128))
    (u v : Id128) : Prop :=
  (u, v) ∈ proposed ∨ Persisted notes graph u v

/-- The targets of stored edges that are live tasks. -/
theorem liveTargets_eq (hits : List NeighborHit) :
    liveTargets notes hits = (hits.map NeighborHit.nodeId).filter (isTask notes) := by
  have hlive : ∀ hit ∈ hits, (((getNotesBatch notes (hits.map NeighborHit.nodeId)).filter
      fun note ↦ note.kind == "task").map Note.id).contains hit.nodeId =
        isTask notes hit.nodeId := by
    intro hit hhit
    rw [Bool.eq_iff_iff, List.contains_iff_mem, List.mem_map, isTask, Option.any_eq_true]
    constructor
    · rintro ⟨note, hnote, hid⟩
      obtain ⟨hmem, hkind⟩ := List.mem_filter.mp hnote
      obtain ⟨id, -, hget⟩ := List.mem_filterMap.mp hmem
      rw [Table.key_of_get hget] at hid
      exact ⟨note, hid ▸ hget, hkind⟩
    · rintro ⟨note, hget, hkind⟩
      exact ⟨note, List.mem_filter.mpr ⟨List.mem_filterMap.mpr
        ⟨hit.nodeId, List.mem_map_of_mem hhit, hget⟩, hkind⟩, Table.key_of_get hget⟩
  rw [liveTargets, List.filter_congr hlive, List.filter_map]
  rfl

theorem liveTargets_append (hits hits' : List NeighborHit) :
    liveTargets notes (hits ++ hits') = liveTargets notes hits ++ liveTargets notes hits' := by
  rw [liveTargets_eq, liveTargets_eq, liveTargets_eq, List.map_append, List.filter_append]

/-! ## Reading the pages of a node -/

/-- The pages that have been read are the front of the node's edges. -/
structure HasRead (notes : NoteStore) (graph : GraphStore) (current : Id128)
    (remaining scannedBefore : ℕ) (s : PageScan) (front rest : List NeighborHit) : Prop where
  outgoing : graph.outgoing current = front ++ rest
  targets : s.persistedTargets = liveTargets notes front
  cursor : s.after = front.getLast?.map NeighborHit.cursor
  within : s.persistedTargets.length ≤ remaining
  scanned : s.scannedNeighbors = scannedBefore + front.length

/-- What the pages of a node come to: its live targets, within what remains, or a bound that they
exceed. -/
def PagesRead (notes : NoteStore) (graph : GraphStore) (current : Id128)
    (remaining scannedBefore : ℕ) : Except WalkBound (List Id128 × ℕ) → Prop
  | .ok (targets, scanned) => targets = liveTargets notes (graph.outgoing current) ∧
      targets.length ≤ remaining ∧ scanned = scannedBefore + (graph.outgoing current).length
  | .error .nodes => False
  | .error .edges => remaining < (liveTargets notes (graph.outgoing current)).length
  | .error .scannedNeighbors =>
    dependencyEdgeMaxScannedNeighbors < scannedBefore + (graph.outgoing current).length

section Pages

variable {current : Id128} {remaining scannedBefore : ℕ} {s : PageScan}
  {front rest : List NeighborHit}

theorem HasRead.neighborsPage (h : HasRead notes graph current remaining scannedBefore s front rest)
    (limit : ℕ) : graph.neighborsPage current limit s.after = rest.take limit := by
  obtain ⟨hout, -, hafter, -, -⟩ := h
  rcases List.eq_nil_or_concat front with rfl | ⟨before, hit, rfl⟩
  · rw [hafter, List.getLast?_nil, Option.map_none, graph.firstPage, hout, List.nil_append]
  · rw [List.concat_eq_append] at hout hafter
    rw [List.getLast?_concat, Option.map_some] at hafter
    rw [List.append_assoc] at hout
    rw [hafter, graph.pageAfter current before hit rest limit hout]

/-- What has been read of a node is part of it. -/
theorem HasRead.length_liveTargets_le
    (h : HasRead notes graph current remaining scannedBefore s front rest) (limit : ℕ) :
    (liveTargets notes (front ++ rest.take limit)).length ≤
      (liveTargets notes (graph.outgoing current)).length := by
  conv_rhs => rw [h.outgoing, ← List.take_append_drop limit rest, ← List.append_assoc,
    liveTargets_append, List.length_append]
  exact Nat.le_add_right _ _

theorem HasRead.length_le
    (h : HasRead notes graph current remaining scannedBefore s front rest) (limit : ℕ) :
    s.scannedNeighbors + (rest.take limit).length ≤
      scannedBefore + (graph.outgoing current).length := by
  have htake := List.length_take_le' limit rest
  rw [h.scanned, h.outgoing, List.length_append]
  omega

/-- A page is the next piece of the node's edges, and a short one is the last. -/
theorem returns_readPage (h : HasRead notes graph current remaining scannedBefore s front rest) :
    Returns (readPage notes graph current remaining s)
      (Pass.Satisfies
        (fun s ↦ ∃ front rest, HasRead notes graph current remaining scannedBefore s front rest)
        (fun s ↦ dependencyEdgeMaxScannedNeighbors - s.scannedNeighbors)
        (PagesRead notes graph current remaining scannedBefore)
        (dependencyEdgeMaxScannedNeighbors - s.scannedNeighbors)) := by
  rw [readPage, h.neighborsPage]
  have hlimit : 0 < min dependencyEdgePageSize
      (dependencyEdgeMaxScannedNeighbors - s.scannedNeighbors + 1) :=
    Nat.lt_min.mpr ⟨by decide, Nat.succ_pos _⟩
  generalize min dependencyEdgePageSize
    (dependencyEdgeMaxScannedNeighbors - s.scannedNeighbors + 1) = limit at hlimit ⊢
  dsimp only
  rcases List.eq_nil_or_concat (rest.take limit) with hpage | ⟨init, last, hpage⟩
  · -- nothing is left
    obtain rfl : rest = [] := (List.take_eq_nil_iff.mp hpage).resolve_left hlimit.ne'
    have houtgoing : graph.outgoing current = front := h.outgoing.trans (List.append_nil front)
    rw [List.take_nil]
    refine returns_some.mpr ⟨?_, h.within, ?_⟩
    · rw [houtgoing, h.targets]
    · rw [houtgoing, h.scanned]
  · rw [List.concat_eq_append] at hpage
    have hlast : (rest.take limit).getLast? = some last := by
      rw [hpage, List.getLast?_concat]
    rw [hlast]
    dsimp only
    have hread : s.persistedTargets ++ liveTargets notes (rest.take limit) =
        liveTargets notes (front ++ rest.take limit) := by
      rw [liveTargets_append, h.targets]
    rw [hread]
    split_ifs with hedges hscanned hshort
    · exact returns_some.mpr (hedges.trans_le (h.length_liveTargets_le limit))
    · exact returns_some.mpr (hscanned.trans_le (h.length_le limit))
    · -- a short page is the last
      have hall : rest.take limit = rest := by
        refine List.take_of_length_le (Nat.le_of_lt ?_)
        rw [List.length_take] at hshort
        omega
      refine returns_some.mpr ⟨?_, not_lt.mp hedges, ?_⟩
      · rw [hall, h.outgoing]
      · rw [hall, h.scanned, h.outgoing, List.length_append, Nat.add_assoc]
    · -- a full page moves the cursor to its last edge
      refine returns_some.mpr ⟨⟨front ++ rest.take limit, rest.drop limit, ?_, rfl, ?_,
        not_lt.mp hedges, ?_⟩, ?_⟩
      · rw [h.outgoing, List.append_assoc, List.take_append_drop]
      · rw [List.getLast?_append, hlast, Option.some_or, Option.map_some]
      · rw [h.scanned, List.length_append, Nat.add_assoc]
      · have hpos : 0 < (rest.take limit).length := by
          rw [hpage, List.length_append]
          exact Nat.lt_add_left _ Nat.one_pos
        dsimp only
        omega

theorem returns_readPages (current : Id128) (remaining scannedNeighbors : ℕ) :
    Returns (readPages notes graph current remaining scannedNeighbors)
      (PagesRead notes graph current remaining scannedNeighbors) := by
  have hstart : HasRead notes graph current remaining scannedNeighbors
      ⟨none, [], scannedNeighbors⟩ [] (graph.outgoing current) :=
    ⟨rfl, rfl, rfl, Nat.zero_le _, rfl⟩
  have hstep : ∀ s : PageScan,
      (∃ front rest, HasRead notes graph current remaining scannedNeighbors s front rest) →
      Returns (readPage notes graph current remaining s)
        (Pass.Satisfies
          (fun s ↦ ∃ front rest, HasRead notes graph current remaining scannedNeighbors s front rest)
          (fun s ↦ dependencyEdgeMaxScannedNeighbors - s.scannedNeighbors)
          (PagesRead notes graph current remaining scannedNeighbors)
          (dependencyEdgeMaxScannedNeighbors - s.scannedNeighbors)) := by
    rintro s ⟨front, rest, h⟩
    exact returns_readPage h
  exact returns_loop hstep ⟨[], _, hstart⟩ (Nat.lt_succ_of_le (Nat.sub_le _ _))

end Pages

/-! ## The search -/

theorem mem_proposedTargets : v ∈ proposedTargets proposed u ↔ (u, v) ∈ proposed := by
  rw [proposedTargets, List.mem_map]
  constructor
  · rintro ⟨⟨source, target⟩, hlink, rfl⟩
    obtain ⟨hmem, hsource⟩ := List.mem_filter.mp hlink
    rwa [← eq_of_beq hsource]
  · intro h
    exact ⟨(u, v), List.mem_filter.mpr ⟨h, beq_self_eq_true _⟩, rfl⟩

theorem explores_expandNode : Worklist.Explores (expandNode notes graph proposed)
    (Joined notes graph proposed) fun spent ↦ dependencyWalkMaxNodes - spent.1 := by
  intro n spent current
  rw [expandNode]
  dsimp only
  split_ifs with hnodes hedges htask
  · exact returns_some.mpr fun _ _ hr ↦ by cases hr
  · exact returns_some.mpr fun _ _ hr ↦ by cases hr
  · refine returns_map.mpr ((returns_readPages current _ _).mono fun result hresult ↦ ?_)
    rintro ⟨traversedEdges, scanned⟩ targets hr
    rcases result with b | ⟨persistedTargets, scannedNeighbors⟩
    · cases hr
    · obtain ⟨hlive, hwithin, -⟩ := hresult
      obtain ⟨hspent, rfl⟩ := Prod.mk.inj (Except.ok.inj hr)
      obtain ⟨rfl, rfl⟩ := Prod.mk.inj hspent
      refine ⟨?_, fun v ↦ ?_⟩
      · rw [List.length_append, List.length_mergeSort]
        dsimp only
        omega
      · rw [List.mem_append, mem_proposedTargets, List.mem_mergeSort, hlive, liveTargets_eq,
          List.mem_filter, Joined, Persisted, and_comm (a := v ∈ _)]
        exact or_congr_right (and_iff_right htask).symm
  · refine returns_some.mpr ?_
    rintro ⟨traversedEdges, scanned⟩ targets hr
    obtain ⟨hspent, rfl⟩ := Prod.mk.inj (Except.ok.inj hr)
    obtain ⟨rfl, rfl⟩ := Prod.mk.inj hspent
    refine ⟨?_, fun v ↦ ?_⟩
    · dsimp only
      omega
    · rw [mem_proposedTargets, Joined, Persisted]
      exact (or_iff_left fun h ↦ htask h.1).symm

/-! ## What a search costs -/

/-- The edges that are traversed for a node: its proposed edges and, for a live task, its stored
edges to live tasks. -/
def edgesOut (notes : NoteStore) (graph : GraphStore) (proposed : List (Id128 × Id128))
    (u : Id128) : ℕ :=
  (proposedTargets proposed u).length +
    if isTask notes u then (liveTargets notes (graph.outgoing u)).length else 0

/-- The neighbours that are scanned for a node. -/
def scannedOut (notes : NoteStore) (graph : GraphStore) (u : Id128) : ℕ :=
  if isTask notes u then (graph.outgoing u).length else 0

/-- The nodes are more than a search may visit, or have more edges than it may traverse or scan. -/
def TooMany (notes : NoteStore) (graph : GraphStore) (proposed : List (Id128 × Id128)) :
    WalkBound → Finset Id128 → Prop
  | .nodes, nodes => dependencyWalkMaxNodes < nodes.card
  | .edges, nodes => dependencyWalkMaxNodes ≤ ∑ u ∈ nodes, edgesOut notes graph proposed u
  | .scannedNeighbors, nodes =>
    dependencyEdgeMaxScannedNeighbors < ∑ u ∈ nodes, scannedOut notes graph u

/-- Among the nodes that can be reached there are too many for a bound. -/
def Exceeds (notes : NoteStore) (graph : GraphStore) (proposed : List (Id128 × Id128))
    (start : Id128) (b : WalkBound) : Prop :=
  ∃ nodes : Finset Id128, (∀ u ∈ nodes, ReflTransGen (Joined notes graph proposed) start u) ∧
    TooMany notes graph proposed b nodes

/-- What has been spent is what the visited nodes cost. -/
def PaidFor (notes : NoteStore) (graph : GraphStore) (proposed : List (Id128 × Id128))
    (visited : Finset Id128) (spent : ℕ × ℕ) : Prop :=
  spent.1 = ∑ u ∈ visited, edgesOut notes graph proposed u ∧
    spent.2 = ∑ u ∈ visited, scannedOut notes graph u

/-- What visiting the `n`-th node costs. -/
def Costs (notes : NoteStore) (graph : GraphStore) (proposed : List (Id128 × Id128)) (n : ℕ)
    (spent : ℕ × ℕ) (current : Id128) : Except WalkBound ((ℕ × ℕ) × List Id128) → Prop
  | .ok (spent', _) => spent'.1 = spent.1 + edgesOut notes graph proposed current ∧
      spent'.2 = spent.2 + scannedOut notes graph current
  | .error .nodes => dependencyWalkMaxNodes < n
  | .error .edges => dependencyWalkMaxNodes ≤ spent.1 + edgesOut notes graph proposed current
  | .error .scannedNeighbors =>
    dependencyEdgeMaxScannedNeighbors < spent.2 + scannedOut notes graph current

theorem returns_expandNode (n : ℕ) (spent : ℕ × ℕ) (current : Id128) :
    Returns (expandNode notes graph proposed n spent current)
      (Costs notes graph proposed n spent current) := by
  rw [expandNode]
  dsimp only
  split_ifs with hnodes hedges htask
  · exact returns_some.mpr hnodes
  · refine returns_some.mpr ?_
    rw [Costs, edgesOut]
    omega
  · refine returns_map.mpr ((returns_readPages current _ spent.2).mono fun result hresult ↦ ?_)
    rcases result with (- | - | -) | ⟨persistedTargets, scannedNeighbors⟩
    · exact hresult.elim
    · rw [PagesRead] at hresult
      dsimp only
      rw [Costs, edgesOut, if_pos htask]
      omega
    · rw [PagesRead] at hresult
      dsimp only
      rw [Costs, scannedOut, if_pos htask]
      exact hresult
    · -- all pages were read
      obtain ⟨rfl, -, rfl⟩ := hresult
      dsimp only
      rw [Costs, edgesOut, scannedOut, if_pos htask, if_pos htask]
      exact ⟨Nat.add_assoc _ _ _, rfl⟩
  · refine returns_some.mpr ?_
    rw [Costs, edgesOut, scannedOut, if_neg htask, if_neg htask]
    exact ⟨rfl, rfl⟩

/-- A node costs its edges, and a bound that is hit is exceeded. -/
theorem accounts_expandNode : Worklist.Accounts (expandNode notes graph proposed)
    (PaidFor notes graph proposed) (TooMany notes graph proposed) where
  pays := by
    rintro visited spent current spent' targets ⟨hedges, hscanned⟩ hnew h
    obtain ⟨hedges', hscanned'⟩ := (returns_expandNode _ _ _).of_eq h
    refine ⟨?_, ?_⟩
    · rw [hedges', Finset.sum_insert hnew, hedges, Nat.add_comm]
    · rw [hscanned', Finset.sum_insert hnew, hscanned, Nat.add_comm]
  refuses := by
    rintro visited spent current b ⟨hedges, hscanned⟩ hnew h
    have hcosts := (returns_expandNode _ _ _).of_eq h
    rcases b with - | - | -
    · rw [TooMany, Finset.card_insert_of_notMem hnew]
      exact hcosts
    · rw [TooMany, Finset.sum_insert hnew, ← hedges, Nat.add_comm]
      exact hcosts
    · rw [TooMany, Finset.sum_insert hnew, ← hscanned, Nat.add_comm]
      exact hcosts

/-- A search that is not cut off finds its goal when it can be reached, and only a bound that is
exceeded cuts it off. -/
theorem returns_edgePathReaches (start goal : Id128) :
    Returns (edgePathReaches notes graph start goal proposed)
      (Worklist.Answers (Joined notes graph proposed) (TooMany notes graph proposed) start goal) :=
  Worklist.returns_search_accounted explores_expandNode accounts_expandNode start goal ⟨rfl, rfl⟩
    (Nat.lt_succ_of_le (by rw [Nat.sub_zero, Nat.add_comm]))

/-! ## Accepted batches -/

/-- A bound was hit. -/
def HitsBound (r : Except LinkError Unit) : Prop := ∃ b, r = .error (.bound b)

/-- A bound is exceeded behind the target of one of the links. -/
def ExceedsBound (notes : NoteStore) (graph : GraphStore) (proposed rest : List (Id128 × Id128)) :
    Prop :=
  ∃ link ∈ rest, ∃ b, Exceeds notes graph proposed link.2 b

theorem returns_checkLinks (rest : List (Id128 × Id128)) :
    Returns (checkLinks notes graph proposed rest) fun r ↦
      (HitsBound r → ExceedsBound notes graph proposed rest) ∧
      (¬HitsBound r → (r = .ok () ↔ ∀ link ∈ rest,
        ¬ReflTransGen (Joined notes graph proposed) link.2 link.1)) := by
  induction rest with
  | nil =>
    refine returns_some.mpr ⟨?_, fun _ ↦ iff_of_true rfl fun _ h ↦ absurd h List.not_mem_nil⟩
    rintro ⟨b, hb⟩
    cases hb
  | cons link rest ih =>
    obtain ⟨source, target⟩ := link
    rw [checkLinks]
    -- a refusal for a cycle, of a self link or of one that was found
    have hrefused : ∀ {e : LinkError}, (∀ b, e ≠ .bound b) →
        ReflTransGen (Joined notes graph proposed) target source →
        (HitsBound (.error e) → ExceedsBound notes graph proposed ((source, target) :: rest)) ∧
        (¬HitsBound (.error e) → ((Except.error e : Except LinkError Unit) = .ok () ↔
          ∀ link ∈ (source, target) :: rest,
            ¬ReflTransGen (Joined notes graph proposed) link.2 link.1)) := by
      intro e he hwalk
      refine ⟨fun ⟨b, hb⟩ ↦ (he b (Except.error.inj hb)).elim, fun _ ↦ ?_⟩
      exact iff_of_false (by simp) fun h ↦ h _ List.mem_cons_self hwalk
    split_ifs with hself
    · subst hself
      exact returns_some.mpr (hrefused (by simp) ReflTransGen.refl)
    · refine (returns_edgePathReaches target source).bind fun r hr ↦ ?_
      rcases r with b | - | -
      · refine returns_some.mpr ⟨fun _ ↦ ⟨_, List.mem_cons_self, b, hr⟩, fun hbound ↦ ?_⟩
        exact (hbound ⟨b, rfl⟩).elim
      · have hwalk : ¬ReflTransGen (Joined notes graph proposed) target source :=
          mt hr.mpr Bool.false_ne_true
        refine ih.mono fun r hrest ↦ ⟨fun hbound ↦ ?_, fun hbound ↦ (hrest.2 hbound).trans ?_⟩
        · obtain ⟨link, hlink, hexceeds⟩ := hrest.1 hbound
          exact ⟨link, List.mem_cons_of_mem _ hlink, hexceeds⟩
        · rw [List.forall_mem_cons, and_iff_right hwalk]
      · exact returns_some.mpr (hrefused (by simp) (hr.mp rfl))

/-- Links between live tasks are all checked. -/
theorem taskLinks_eq (hlinks : ∀ link ∈ links, link.relation = .dependsOn ∧
      isTask notes link.sourceId = true ∧ isTask notes link.targetId = true) :
    taskLinks notes links = .ok (links.map fun link ↦ (link.sourceId, link.targetId)) := by
  induction links with
  | nil => rfl
  | cons link rest ih =>
    obtain ⟨⟨hrelation, hsource, htarget⟩, hrest⟩ := List.forall_mem_cons.mp hlinks
    obtain ⟨target, hget, hkind⟩ := (Option.any_eq_true _ _).mp htarget
    rw [taskLinks, if_neg (not_not.mpr hrelation), hsource, if_neg (by decide), hget]
    dsimp only
    rw [if_neg (not_not.mpr (eq_of_beq hkind)), ih hrest]
    rfl

/-- The edge lies on a cycle. -/
def OnCycle (R : Id128 → Id128 → Prop) (u v : Id128) : Prop := R u v ∧ ReflTransGen R v u

/-- A cycle without proposed edges is one of stored edges. -/
theorem persisted_of_cycle
    (h : ∀ link ∈ proposed, ¬OnCycle (Joined notes graph proposed) link.1 link.2)
    (hcycle : TransGen (Joined notes graph proposed) u u) :
    TransGen (Persisted notes graph) u u := by
  -- a proposed edge with a way back would lie on a cycle
  have hstep : ∀ {a b}, Joined notes graph proposed a b →
      ReflTransGen (Joined notes graph proposed) b a → Persisted notes graph a b := by
    intro a b hab hback
    refine hab.resolve_left fun hmem ↦ ?_
    exact h _ hmem ⟨hab, hback⟩
  have hwalk : ∀ {v}, TransGen (Joined notes graph proposed) u v →
      ReflTransGen (Joined notes graph proposed) v u → TransGen (Persisted notes graph) u v := by
    intro v hwalk
    induction hwalk with
    | single hfirst => exact fun hback ↦ TransGen.single (hstep hfirst hback)
    | @tail a b hto hlast ih =>
      intro hback
      have hclose : ReflTransGen (Joined notes graph proposed) b a :=
        hback.trans hto.to_reflTransGen
      exact (ih (ReflTransGen.head hlast hback)).tail (hstep hlast hclose)
  exact hwalk hcycle ReflTransGen.refl

end Graph

/-- The edges that the links propose. -/
def proposedEdges (links : List LinkSpec) : List (Id128 × Id128) :=
  links.map fun link ↦ (link.sourceId, link.targetId)

/-- **A batch** of links between live tasks for which no bound is hit is accepted exactly when no
cycle goes through a proposed edge; then it adds no cycle, and the order of the links does not
matter. A bound is hit only where the nodes behind a proposed target exceed it. -/
theorem validateDependencyLinks_spec (notes : NoteStore) (graph : GraphStore)
    (links : List LinkSpec) (hlinks : ∀ link ∈ links, link.relation = .dependsOn ∧
      isTask notes link.sourceId = true ∧ isTask notes link.targetId = true) :
    ∃ r, validateDependencyLinks notes graph links = some r ∧
      (HitsBound r → ExceedsBound notes graph (proposedEdges links) (proposedEdges links)) ∧
      (¬HitsBound r →
        (r = .ok () ↔ ∀ link ∈ proposedEdges links,
          ¬OnCycle (Joined notes graph (proposedEdges links)) link.1 link.2) ∧
        (r = .ok () → (∀ u, ¬TransGen (Persisted notes graph) u u) →
          ∀ u, ¬TransGen (Joined notes graph (proposedEdges links)) u u) ∧
        ∀ links' r', links'.Perm links → validateDependencyLinks notes graph links' = some r' →
          ¬HitsBound r' → (r' = .ok () ↔ r = .ok ())) := by
  have hspec : ∀ links : List LinkSpec, (∀ link ∈ links, link.relation = .dependsOn ∧
      isTask notes link.sourceId = true ∧ isTask notes link.targetId = true) →
      Returns (validateDependencyLinks notes graph links) fun r ↦
        (HitsBound r → ExceedsBound notes graph (proposedEdges links) (proposedEdges links)) ∧
        (¬HitsBound r → (r = .ok () ↔ ∀ link ∈ proposedEdges links,
          ¬OnCycle (Joined notes graph (proposedEdges links)) link.1 link.2)) := by
    intro links hlinks
    rw [validateDependencyLinks, taskLinks_eq hlinks]
    refine (returns_checkLinks _).mono fun r hr ↦ ⟨hr.1, fun hbound ↦ (hr.2 hbound).trans ?_⟩
    refine forall₂_congr fun link hmem ↦ not_congr ?_
    exact (and_iff_right (Or.inl hmem)).symm
  obtain ⟨r, hr, hexceeds, haccepted⟩ := hspec links hlinks
  refine ⟨r, hr, hexceeds, fun hbound ↦ ⟨haccepted hbound, fun hok hacyclic u hcycle ↦ ?_, ?_⟩⟩
  · exact hacyclic u (persisted_of_cycle ((haccepted hbound).mp hok) hcycle)
  · intro links' r' hperm hr' hbound'
    have hedges : (proposedEdges links').Perm (proposedEdges links) := hperm.map _
    have hjoined : Joined notes graph (proposedEdges links') =
        Joined notes graph (proposedEdges links) := by
      funext u v
      rw [Joined, Joined, hedges.mem_iff]
    have hlinks' := fun link hlink ↦ hlinks link (hperm.mem_iff.mp hlink)
    have haccepted' := ((hspec links' hlinks').of_eq hr').2 hbound'
    rw [haccepted', haccepted hbound, hjoined]
    exact forall_congr' fun link ↦ imp_congr_left hedges.mem_iff

/-! ## An example -/

/-- Three tasks. -/
def threeTasks : NoteStore :=
  ⟨[⟨1, "task", "local", none⟩, ⟨2, "task", "local", none⟩, ⟨3, "task", "local", none⟩], by decide⟩

/-- One stored edge, from the second task to the third. -/
def oneEdge : GraphStore where
  outgoing u := if u = 2 then [⟨3, 7, .zero⟩] else []
  neighborsPage u limit
    | none => (if u = 2 then [⟨3, 7, .zero⟩] else []).take limit
    | some _ => []
  firstPage _ _ := rfl
  pageAfter u before hit rest limit h := by
    have hlength := congrArg List.length h
    rw [List.length_append, List.length_cons] at hlength
    have hle : (if u = 2 then [(⟨3, 7, .zero⟩ : NeighborHit)] else []).length ≤ 1 := by
      split_ifs <;> simp
    obtain rfl : rest = [] := List.length_eq_zero_iff.mp (by omega)
    exact List.take_nil.symm

/-- The first task may depend on the second, which leads to the third and not back. -/
theorem validateDependencyLinks_sample :
    validateDependencyLinks threeTasks oneEdge [⟨1, 2, .dependsOn⟩] = some (.ok ()) ∧
      ∀ link ∈ proposedEdges [⟨1, 2, .dependsOn⟩],
        ¬OnCycle (Joined threeTasks oneEdge (proposedEdges [⟨1, 2, .dependsOn⟩])) link.1 link.2 := by
  have hok : validateDependencyLinks threeTasks oneEdge [⟨1, 2, .dependsOn⟩] = some (.ok ()) := by
    decide +kernel
  obtain ⟨r, hr, -, h⟩ := validateDependencyLinks_spec threeTasks oneEdge
    [⟨1, 2, .dependsOn⟩] (by decide)
  obtain rfl := Option.some.inj (hr.symm.trans hok)
  refine ⟨hok, (h ?_).1.mp rfl⟩
  rintro ⟨b, hb⟩
  cases hb

/-- Links that close a cycle between them are found out by the first, and a link back along the
stored edge as well. -/
example : validateDependencyLinks threeTasks oneEdge [⟨1, 2, .dependsOn⟩, ⟨2, 1, .dependsOn⟩] =
      some (.error (.cycle 1 2)) ∧
    validateDependencyLinks threeTasks oneEdge [⟨3, 2, .dependsOn⟩] =
      some (.error (.cycle 3 2)) := by decide +kernel

end Gtd

end Khive
