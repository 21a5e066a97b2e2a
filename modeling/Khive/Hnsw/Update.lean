import Khive.Hnsw.Search

/-!
# Updating the index

Inserting a vector under a new id appends a node and connects it to nodes that are found by search,
layer by layer. Deleting puts a tombstone on the node, and a rebuild takes the nodes under
tombstones out and numbers the others anew.
-/

namespace Khive.Hnsw

variable {F : Type} (K : Kernels F)

namespace HnswIndex

variable (index : HnswIndex F)

/-! ## The memory budget -/

def memoryUsage : ℕ :=
  let numNodes := index.nodes.length
  let dims := index.config.dimensions
  let perNode := dims * 4 + (24 + 24 + 8 + 4)
  let layerVecs := (index.nodes.map fun node ↦ node.neighbors.length * 24).sum
  let neighborEntries := (index.nodes.map fun node ↦ (node.neighbors.map List.length).sum).sum
  let neighborsTotal := neighborEntries * 8 + layerVecs
  let mappingOverhead := numNodes * 40 + numNodes * 16
  let quantizedOverhead := numNodes * dims + numNodes * 8
  numNodes * perNode + neighborsTotal + mappingOverhead + index.tombstones.length +
    quantizedOverhead

def estimateInsertCost : ℕ :=
  let dims := index.config.dimensions
  let perNode := dims * 4 + (24 + 24 + 8 + 4)
  let expectedNeighbors := index.config.mMax0 * 8 + 24
  perNode + expectedNeighbors + (40 + 16) + (dims + 8)

/-- The budget check for a new node. -/
def checkBudget : Except RetrievalError Unit :=
  match index.config.memoryBudget with
  | none => .ok ()
  | some limit =>
    let current := index.memoryUsage
    let cost := index.estimateInsertCost
    if limit < current + cost then .error (.budgetExceeded current cost limit) else .ok ()

/-! ## Connecting -/

/-- Append empty layers up to this one. -/
def padTo (layer : ℕ) (lists : List (List ℕ)) : List (List ℕ) :=
  lists ++ List.replicate (layer + 1 - lists.length) []

def setNeighbors (id : ℕ) (lists : List (List ℕ)) : HnswIndex F :=
  { index with nodes := index.nodes.modify id fun node ↦ { node with neighbors := lists } }

def connect (source target layer : ℕ) : Option (HnswIndex F) := do
  let node ← index.nodes[source]?
  let lists := padTo layer node.neighbors
  let list := lists.getD layer []
  pure (index.setNeighbors source
    (if target ∈ list then lists else lists.set layer (list ++ [target])))

def shrinkConnections (id layer m : ℕ) : Option (HnswIndex F) := do
  let node ← index.nodes[id]?
  match node.neighbors[layer]? with
  | none => pure index
  | some neighborIds =>
    if neighborIds.length ≤ m then pure index
    else do
      let scored ← neighborIds.mapM fun nId ↦ do
        let n ← index.nodes[nId]?
        pure (K.orderingDistance index.config.metric node.vector node.norm n.vector n.norm, nId)
      let sorted ← index.sortByDistance K scored
      pure (index.setNeighbors id (node.neighbors.set layer ((sorted.take m).map Prod.snd)))

/-- The bound on the neighbours of a node in a layer. -/
def maxNeighbors (layer : ℕ) : ℕ := if layer = 0 then index.config.mMax0 else index.config.m

/-- Connect the neighbours chosen in one layer back to the node. -/
def connectBack (internalId : ℕ) (chosen : ℕ × List ℕ) : Option (HnswIndex F) :=
  chosen.2.foldlM (fun index neighborId ↦ do
    let connected ← index.connect neighborId internalId chosen.1
    connected.shrinkConnections K neighborId chosen.1 (connected.maxNeighbors chosen.1)) index

/-! ## Inserting -/

/-- Search from the top layer down to the one above the node's own. -/
def descend (vector : List F) (queryNorm : F) (level entryPoint : ℕ) : Option ℕ :=
  (List.range' (level + 1) (index.maxLevel - level)).reverse.foldlM
    (fun nearest l ↦ do
      let found ← index.searchLayer K vector queryNorm [nearest] 1 l
      pure ((found.head?.map Prod.snd).getD nearest)) entryPoint

/-- Choose the neighbours in one layer, and go on from the closest node there. -/
def chooseLayer (vector : List F) (queryNorm : F) (acc : ℕ × List (ℕ × List ℕ)) (l : ℕ) :
    Option (ℕ × List (ℕ × List ℕ)) := do
  let candidates ←
    index.searchLayer K vector queryNorm [acc.1] index.config.efConstruction l
  let neighbors ← index.selectNeighbors K candidates (index.maxNeighbors l)
  pure ((candidates.head?.map Prod.snd).getD acc.1, acc.2 ++ [(l, neighbors)])

/-- The neighbours in the layers of a node, from the top one down. -/
def chooseNeighbors (vector : List F) (queryNorm : F) (level nearest : ℕ) :
    Option (List (ℕ × List ℕ)) := do
  let (_, layerNeighbors) ← (List.range (min level index.maxLevel + 1)).reverse.foldlM
    (index.chooseLayer K vector queryNorm) (nearest, [])
  pure layerNeighbors

def placeNeighbors (lists : List (List ℕ)) (layerNeighbors : List (ℕ × List ℕ)) :
    List (List ℕ) :=
  layerNeighbors.foldl (fun lists chosen ↦ (padTo chosen.1 lists).set chosen.1 chosen.2) lists

def pushNode (id : NodeId) (node : HnswNode F) : HnswIndex F :=
  { index with
    quantized := index.quantized.push K node.vector node.norm
    nodes := index.nodes ++ [node]
    idToInternal := index.idToInternal.insert id index.nodes.length
    internalToId := index.internalToId ++ [id] }

/-- A node above all layers becomes the entry point. -/
def raiseTo (level internalId : ℕ) : HnswIndex F :=
  if index.maxLevel < level then { index with entryPoint := some internalId, maxLevel := level }
  else index

/-- The insertion of a new node. The level drawn at random is given. -/
def insertNode (id : NodeId) (vector : List F) (draw : ℕ) :
    Option (Except RetrievalError Unit × HnswIndex F) :=
  let level := min draw levelLimit
  let node := HnswNode.new K vector level
  let internalId := index.nodes.length
  if index.nodes.isEmpty then
    some (.ok (), { index.pushNode K id node with
      entryPoint := some internalId
      maxLevel := level
      additionsSinceRebuild := index.additionsSinceRebuild + 1 })
  else
    match index.entryPoint with
    | none =>
      some (.error (.hnsw "HNSW invariant violated: no entry point despite non-empty index"), index)
    | some entryPoint => do
      let nearest ← index.descend K vector node.norm level entryPoint
      let layerNeighbors ← index.chooseNeighbors K vector node.norm level nearest
      let newNode := { node with neighbors := placeNeighbors node.neighbors layerNeighbors }
      let connected ← layerNeighbors.foldlM
        (fun index chosen ↦ index.connectBack K internalId chosen) (index.pushNode K id newNode)
      pure (.ok (), { connected.raiseTo level internalId with
        additionsSinceRebuild := index.additionsSinceRebuild + 1 })

/-- A new vector under the id of a live node. The edges stay. -/
def updateVector (iid : ℕ) (vector : List F) : Option (HnswIndex F) := do
  let node ← index.nodes[iid]?
  let updated := node.updateVector K vector
  let quantized ← index.quantized.update K iid vector updated.norm
  pure { index with nodes := index.nodes.set iid updated, quantized := quantized }

/-! ## Deleting -/

/-- The first live node among the neighbours of a node, those of the highest layer first. -/
def liveNeighbor (node : HnswNode F) : Option ℕ :=
  node.neighbors.reverse.flatten.find? fun j ↦ !index.isTombstoned j

def repairEntryPointAfterDelete (tombstonedId : ℕ) : Option (HnswIndex F) :=
  if index.entryPoint = some tombstonedId then do
    let node ← index.nodes[tombstonedId]?
    match index.liveNeighbor node with
    | some neighborId => pure { index with entryPoint := some neighborId }
    | none =>
      let live := (List.range index.nodes.length).find? fun iid ↦ !index.isTombstoned iid
      pure { index with entryPoint := live }
  else some index

def delete (id : NodeId) : Option (Bool × HnswIndex F) :=
  match index.idToInternal.get id with
  | none => some (false, index)
  | some iid => do
    let tombstones := index.tombstones ++
      List.replicate (iid + 1 - index.tombstones.length) false
    if tombstones.getD iid false then pure (false, { index with tombstones := tombstones })
    else do
      let repaired ← repairEntryPointAfterDelete
        { index with
          tombstones := tombstones.set iid true
          tombstoneCount := index.tombstoneCount + 1 } iid
      pure (true, repaired)

/-! ## Rebuilding -/

structure RebuildStats where
  nodesBefore : ℕ
  nodesRemoved : ℕ
  nodesAfter : ℕ
  edgesCleaned : ℕ
  entryPointUpdated : Bool
  deriving DecidableEq

/-- The nodes without a tombstone, in order. -/
def survivors : List ℕ :=
  (List.range index.nodes.length).filter fun iid ↦ !index.isTombstoned iid

/-- The new numbers of these nodes, counting on from `next`. -/
def numberFrom (next : ℕ) : List ℕ → List (Option ℕ)
  | [] => []
  | old :: rest =>
    if index.isTombstoned old then none :: numberFrom next rest
    else some next :: numberFrom (next + 1) rest

def oldToNew : List (Option ℕ) := index.numberFrom 0 (List.range index.nodes.length)

def remapNode (old : ℕ) : Option (HnswNode F) := do
  let node ← index.nodes[old]?
  let lists ← node.neighbors.mapM fun neighbors ↦
    (neighbors.mapM fun oldNid ↦ index.oldToNew[oldNid]?).map List.reduceOption
  pure { node with neighbors := lists }

def pickTop (best : Option (HnswNode F × ℕ)) (e : HnswNode F × ℕ) : Option (HnswNode F × ℕ) :=
  match best with
  | none => some e
  | some b => if b.1.maxLayer ≤ e.1.maxLayer then some e else some b

/-- `max_by_key`: the last of the nodes whose top layer is highest. -/
def topNode (nodes : List (HnswNode F)) : Option ℕ :=
  (nodes.zipIdx.foldl pickTop none).map Prod.snd

def edgeCount (nodes : List (HnswNode F)) : ℕ :=
  (nodes.map fun node ↦ (node.neighbors.map List.length).sum).sum

/-- The entry point under its new number, or a new one where it is gone. -/
def newEntryPoint (newNodes : List (HnswNode F)) : Option (Option ℕ) :=
  match index.entryPoint with
  | some ep => if index.isTombstoned ep then some (topNode newNodes) else index.oldToNew[ep]?
  | none => some (topNode newNodes)

def compacted (newInternalToId : List NodeId) (newNodes : List (HnswNode F))
    (entryPoint : Option ℕ) : HnswIndex F :=
  { index with
    nodes := newNodes
    idToInternal := newInternalToId.zipIdx.foldl (fun table e ↦ table.insert e.1 e.2) .empty
    internalToId := newInternalToId
    entryPoint := entryPoint
    maxLevel := (newNodes.map HnswNode.maxLayer).foldl max 0
    tombstones := []
    tombstoneCount := 0
    additionsSinceRebuild := 0
    quantized := newNodes.foldl (fun arena node ↦ arena.push K node.vector node.norm)
      index.quantized.clear }

def rebuild : Option (RebuildStats × HnswIndex F) := do
  -- the capacity of the new vectors
  guard (index.tombstoneCount ≤ index.nodes.length)
  let newInternalToId ← index.survivors.mapM index.externalId
  let newNodes ← index.survivors.mapM index.remapNode
  let entryPoint ← index.newEntryPoint newNodes
  let stats : RebuildStats :=
    { nodesBefore := index.nodes.length
      nodesRemoved := index.tombstoneCount
      nodesAfter := newNodes.length
      edgesCleaned := edgeCount (index.survivors.filterMap fun old ↦ index.nodes[old]?) -
        edgeCount newNodes
      entryPointUpdated := index.entryPoint.any index.isTombstoned }
  pure (stats, index.compacted K newInternalToId newNodes entryPoint)

def clear : HnswIndex F :=
  { index with
    nodes := []
    idToInternal := .empty
    internalToId := []
    tombstones := []
    tombstoneCount := 0
    quantized := index.quantized.clear
    entryPoint := none
    maxLevel := 0
    additionsSinceRebuild := 0 }

/-! ## Insertion -/

/-- The insertion of an id that is not in the tables. -/
def insertFresh (id : NodeId) (vector : List F) (draw : ℕ) :
    Option (Except RetrievalError Unit × HnswIndex F) :=
  match index.checkBudget with
  | .error e => some (.error e, index)
  | .ok () => index.insertNode K id vector draw

/-- `insert_inner`: what it returns, and the index it leaves. -/
def insert (id : NodeId) (vector : List F) (draw : ℕ) :
    Option (Except RetrievalError Unit × HnswIndex F) :=
  if vector.length ≠ index.config.dimensions then
    some (.error (.dimensionMismatch index.config.dimensions vector.length), index)
  else
    match validateFiniteVector K vector with
    | .error e => some (.error e, index)
    | .ok () =>
      match index.idToInternal.get id with
      | none => index.insertFresh K id vector draw
      | some iid =>
        if index.isTombstoned iid then do
          -- the old slot of the id goes away with all others under tombstones
          let (_, rebuilt) ← index.rebuild K
          rebuilt.insertFresh K id vector draw
        else do
          let updated ← index.updateVector K iid vector
          pure (.ok (), updated)

end HnswIndex

end Khive.Hnsw
