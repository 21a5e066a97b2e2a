import Khive.Bm25.Index

/-!
# Snapshots of the index

A snapshot holds what cannot be recomputed. Reading it back checks that the maps agree with each
other and that the total is the sum of the lengths, and then rebuilds the two vectors and the terms
of each document; the tokenizer is the default one again.
-/

namespace Khive.Bm25

/-- The serialized fields. -/
structure Bm25IndexWire where
  invertedIndex : OrderedMap String PostingList
  docLengths : OrderedMap ℕ ℕ
  idToInternal : OrderedMap String ℕ
  internalToId : List String
  nextInternalId : ℕ
  totalTokens : ℕ
  postingsEpoch : ℕ
  blockSize : ℕ
  config : Bm25Config

variable {F : Type} (asF32 : ℕ → F) (hash : Hashing)

def Bm25Index.serialize (index : Bm25Index F) : Bm25IndexWire where
  invertedIndex := index.invertedIndex
  docLengths := index.docLengths
  idToInternal := index.idToInternal
  internalToId := index.internalToId
  nextInternalId := index.nextInternalId
  totalTokens := index.totalTokens
  postingsEpoch := index.postingsEpoch
  blockSize := index.blockSize
  config := index.config

namespace Bm25IndexWire

/-- The checks of a posting list while it is read. -/
def checkPostingList (postings : PostingList) : Except RetrievalError Unit := do
  guardOr (.snapshot "PostingList invariant violated: doc_ids.len() != term_freqs.len()")
    (postings.docIds.length == postings.termFreqs.length)
  guardOr (.snapshot "PostingList invariant violated: doc_ids must be strictly sorted ascending")
    (decide (postings.docIds.IsChain (· < ·)))
  guardOr (.snapshot
      "PostingList invariant violated: doc_id u32::MAX is reserved as a sentinel")
    (decide (2 ^ 32 - 1 ∉ postings.docIds))

/-- A number in range that is not the sentinel. -/
def inRange (wire : Bm25IndexWire) (internalId : ℕ) : Bool :=
  internalId != 2 ^ 32 - 1 && decide (internalId < wire.nextInternalId)

def checkLength (wire : Bm25IndexWire) (total : ℕ) (entry : ℕ × ℕ) : Except RetrievalError ℕ := do
  let (internalId, len) := entry
  guardOr (.snapshot s!"doc_lengths contains invalid live doc_id {internalId}")
    (wire.inRange internalId)
  let external ← okOr (.snapshot s!"missing internal_to_id entry for live doc_id {internalId}")
    wire.internalToId[internalId]?
  guardOr (.snapshot s!"id_to_internal does not map back to live doc_id {internalId}")
    (wire.idToInternal.get external == some internalId)
  guardOr (.snapshot "total_tokens overflow while summing doc_lengths")
    (decide (total + len ≤ maxUsize))
  pure (total + len)

def checkId (wire : Bm25IndexWire) (entry : String × ℕ) : Except RetrievalError Unit := do
  let (externalId, internalId) := entry
  guardOr (.snapshot s!"id_to_internal maps to non-live doc_id {internalId}")
    (wire.inRange internalId && (wire.docLengths.get internalId).isSome)
  let reverse ← okOr (.snapshot "missing internal_to_id entry") wire.internalToId[internalId]?
  guardOr (.snapshot s!"internal_to_id[{internalId}] does not reverse-map") (reverse == externalId)

def checkPostings (wire : Bm25IndexWire) (entry : String × PostingList) :
    Except RetrievalError Unit :=
  entry.2.docIds.forM fun docId ↦
    guardOr (.snapshot s!"PostingList references non-live doc_id {docId}")
      (wire.inRange docId && (wire.docLengths.get docId).isSome)

def validate (wire : Bm25IndexWire) : Except RetrievalError Unit := do
  wire.invertedIndex.entries.forM fun entry ↦ checkPostingList entry.2
  guardOr (.snapshot "block_size must be > 0") (decide (0 < wire.blockSize))
  wire.config.validate.mapError .snapshot
  let checkedTotal ← wire.docLengths.entries.foldlM wire.checkLength 0
  wire.idToInternal.entries.forM wire.checkId
  wire.invertedIndex.entries.forM wire.checkPostings
  guardOr (.snapshot s!"total_tokens {wire.totalTokens} does not match doc_lengths sum")
    (wire.totalTokens == checkedTotal)

/-- The index of a snapshot, with nothing rebuilt yet. -/
def bare (wire : Bm25IndexWire) (defaultTokenizer : Tokenizer) : Bm25Index F where
  invertedIndex := wire.invertedIndex
  docLengths := wire.docLengths
  idToInternal := wire.idToInternal
  internalToId := wire.internalToId
  nextInternalId := wire.nextInternalId
  totalTokens := wire.totalTokens
  postingsEpoch := wire.postingsEpoch
  blockSize := wire.blockSize
  docLengthsVec := []
  docLengthsF32 := []
  config := wire.config
  tokenizer := defaultTokenizer
  forwardIndex := .empty

def deserialize (wire : Bm25IndexWire) (defaultTokenizer : Tokenizer) :
    Except RetrievalError (Bm25Index F) :=
  wire.validate.map fun _ ↦
    ((wire.bare defaultTokenizer).ensureDocLengthsVec asF32).ensureForwardIndexComplete hash

end Bm25IndexWire

/-- Serialize the index and go on with what is read back. -/
def roundtrip (defaultTokenizer : Tokenizer) : Attempt (Bm25Index F) RetrievalError Unit := do
  let wire ← Attempt.read Bm25Index.serialize
  let index ← Attempt.check (wire.deserialize asF32 hash defaultTokenizer)
  Attempt.write fun _ ↦ index

/-! ## Steps -/

/-- A step on an index, with the order in which its hash maps come. -/
inductive Request
  | index (docId text : String) (hash : Hashing)
  | remove (docId : String) (hash : Hashing)
  | clear
  | roundtrip (defaultTokenizer : Tokenizer) (hash : Hashing)
  | setTokenizer (tokenizer : Tokenizer)
  | setMemoryBudget (budget : Option ℕ)

def Request.perform : Request → Attempt (Bm25Index F) RetrievalError Unit
  | .index docId text hash => Bm25Index.indexDocument asF32 hash docId text
  | .remove docId hash => Attempt.write fun index ↦ (index.removeDocument asF32 hash docId).2
  | .clear => Attempt.write Bm25Index.clear
  | .roundtrip defaultTokenizer hash => Bm25.roundtrip asF32 hash defaultTokenizer
  | .setTokenizer tokenizer => Attempt.write fun index ↦ { index with tokenizer := tokenizer }
  | .setMemoryBudget budget => Attempt.write fun index ↦
    { index with config := { index.config with memoryBudget := budget } }

end Khive.Bm25
