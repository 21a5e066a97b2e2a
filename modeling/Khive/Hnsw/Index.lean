import Khive.Foundation.Returns
import Khive.Foundation.SortedMap
import Khive.Types.Edge

/-!
# The HNSW index

A graph over vectors in layers. The nodes are numbered from zero in the order of their insertion;
callers know them by id, and two tables lead from the one to the other. A deleted node stays in the
graph under a tombstone until the index is rebuilt. Beside the nodes the index keeps an arena of
quantized vectors, in the same order.

Numbers of type `f32` and the kernels over them are the fields of `Kernels`. A computation that
reads past the end of a vector panics, and one that may do so is in `Option`.
-/

namespace Khive.Hnsw

/-- `NodeId`: sixteen bytes. Their order is that of the number they spell. -/
abbrev NodeId := Id128

inductive DistanceMetric where
  | cosine
  | dot
  | l2
  deriving DecidableEq

/-- `MAX_LEVEL`. -/
def levelLimit : ℕ := 64

structure HnswConfig where
  m : ℕ
  mMax0 : ℕ
  efConstruction : ℕ
  dimensions : ℕ
  metric : DistanceMetric
  memoryBudget : Option ℕ
  deriving DecidableEq

inductive RetrievalError where
  | dimensionMismatch (expected actual : ℕ)
  | budgetExceeded (currentUsage itemSize limit : ℕ)
  | hnsw (message : String)
  | nonFiniteVector (reason : String)
  deriving DecidableEq

/-! ## Numbers -/

/-- `QuantMeta`. -/
structure QuantMeta (F : Type) where
  scale : F
  norm : F
  deriving DecidableEq

/-- What the index computes with numbers of type `f32`. -/
structure Kernels (F : Type) where
  isFinite : F → Bool
  isNan : F → Bool
  /-- `partial_cmp` of two numbers of which neither is a NaN. -/
  partialCmp : F → F → Ordering
  display : F → String
  /-- `f32::MAX`. -/
  maxValue : F
  /-- The square root of the sum of the squares. -/
  norm : List F → F
  /-- `resolve_distance_fn`, of a vector with its norm to another. -/
  distance : DistanceMetric → List F → F → List F → F → F
  /-- `hnsw_distance_batch4_from_dots` of the products that the batch kernel finds. -/
  distanceBatch4 : DistanceMetric → List F → F → Vector (List F × F) 4 → Vector F 4
  /-- `compute_ordering_distance`. -/
  orderingDistance : DistanceMetric → List F → F → List F → F → F
  /-- The factor that takes the largest of the finite elements to 127. -/
  quantScale : List F → F
  /-- An element times the factor, rounded and clamped; zero where it is not finite. -/
  quantElement : F → F → ℤ
  /-- `cosine_distance_approx` of an entry of the arena to a query with its factor and norm. -/
  cosineDistanceApprox : QuantMeta F → List ℤ → List ℤ → F → F → F
  /-- Whether a distance is above the worst one by a tenth and a hundredth. -/
  clearlyWorse : F → F → Bool

namespace Kernels

variable {F : Type} (K : Kernels F)

/-- The operator `>` of `f32`. -/
def gt (a b : F) : Bool := !K.isNan a && !K.isNan b && K.partialCmp a b == .gt

/-- The operator `<=` of `f32`. -/
def le (a b : F) : Bool := !K.isNan a && !K.isNan b && K.partialCmp a b != .gt

/-- `OrderedF32::cmp`. -/
def orderedCmp (a b : F) : Ordering :=
  match K.isNan a, K.isNan b with
  | true, true => .eq
  | true, false => .gt
  | false, true => .lt
  | false, false => K.partialCmp a b

/-- The quantized elements of a vector. -/
def quantize (vector : List F) : List ℤ := vector.map fun v ↦ K.quantElement v (K.quantScale vector)

end Kernels

variable {F : Type} (K : Kernels F)

/-- `validate_finite_vector`. -/
def validateFiniteVector (vector : List F) : Except RetrievalError Unit :=
  match vector.zipIdx.find? fun e ↦ !K.isFinite e.1 with
  | some (v, i) => .error (.nonFiniteVector s!"element at index {i} is {K.display v}")
  | none => .ok ()

/-! ## Nodes -/

structure HnswNode (F : Type) where
  vector : List F
  /-- Under each layer the neighbours in it. -/
  neighbors : List (List ℕ)
  maxLayer : ℕ
  norm : F
  deriving DecidableEq

def HnswNode.new (vector : List F) (maxLayer : ℕ) : HnswNode F :=
  ⟨vector, List.replicate (maxLayer + 1) [], maxLayer, K.norm vector⟩

def HnswNode.updateVector (node : HnswNode F) (vector : List F) : HnswNode F :=
  { node with norm := K.norm vector, vector := vector }

/-! ## The arena -/

structure QuantizedArena (F : Type) where
  /-- The elements of entry `i` start at `i * dims`. -/
  data : List ℤ
  entries : List (QuantMeta F)
  dims : ℕ
  deriving DecidableEq

namespace QuantizedArena

variable (arena : QuantizedArena F)

def new (dims : ℕ) : QuantizedArena F := ⟨[], [], dims⟩

def push (vector : List F) (norm : F) : QuantizedArena F :=
  { arena with
    data := arena.data ++ K.quantize vector
    entries := arena.entries ++ [⟨K.quantScale vector, norm⟩] }

def update (idx : ℕ) (vector : List F) (norm : F) : Option (QuantizedArena F) :=
  let offset := idx * arena.dims
  let quantized := K.quantize vector
  if offset + quantized.length ≤ arena.data.length ∧ idx < arena.entries.length then
    some { arena with
      data := arena.data.take offset ++ quantized ++ arena.data.drop (offset + quantized.length)
      entries := arena.entries.set idx ⟨K.quantScale vector, norm⟩ }
  else none

def getData (idx : ℕ) : Option (List ℤ) :=
  let offset := idx * arena.dims
  if offset + arena.dims ≤ arena.data.length then some ((arena.data.drop offset).take arena.dims)
  else none

def cosineDistanceApprox (idx : ℕ) (queryI8 : List ℤ) (queryScale queryNorm : F) : Option F := do
  let entry ← arena.entries[idx]?
  let data ← arena.getData idx
  pure (K.cosineDistanceApprox entry data queryI8 queryScale queryNorm)

def clear : QuantizedArena F := { arena with data := [], entries := [] }

end QuantizedArena

/-! ## The index -/

structure HnswIndex (F : Type) where
  config : HnswConfig
  nodes : List (HnswNode F)
  idToInternal : OrderedMap NodeId ℕ
  internalToId : List NodeId
  entryPoint : Option ℕ
  maxLevel : ℕ
  tombstones : List Bool
  tombstoneCount : ℕ
  additionsSinceRebuild : ℕ
  quantized : QuantizedArena F
  useQuantized : Bool

namespace HnswIndex

/-- `build_from_config`. -/
def new (config : HnswConfig) (useQuantized : Bool) : HnswIndex F where
  config := config
  nodes := []
  idToInternal := .empty
  internalToId := []
  entryPoint := none
  maxLevel := 0
  tombstones := []
  tombstoneCount := 0
  additionsSinceRebuild := 0
  quantized := .new config.dimensions
  useQuantized := useQuantized

variable (index : HnswIndex F)

def isTombstoned (iid : ℕ) : Bool := index.tombstones.getD iid false

def externalId (iid : ℕ) : Option NodeId := index.internalToId[iid]?

/-- Order by distance, then by external id. The sort reads the ids of the elements it compares;
here the ids of all of them are read before. -/
def sortByDistance (scored : List (F × ℕ)) : Option (List (F × ℕ)) := do
  let keyed ← scored.mapM fun e ↦ (index.externalId e.2).map fun id ↦ (e, id)
  let sorted := keyed.mergeSort fun a b ↦
    ((K.orderedCmp a.1.1 b.1.1).then (compare a.2 b.2)).isLE
  pure (sorted.map Prod.fst)

end HnswIndex

end Khive.Hnsw
