import Khive.Foundation.Attempt
import Khive.Foundation.Binary64
import Khive.Foundation.Checks
import Khive.Foundation.SortedMap

/-!
# The BM25 index

Documents are held under an internal number, counted up and never given out again. Every term has a
posting list, the documents that contain it in ascending order with how often they do; beside it
stand the lengths of the documents, once in a map and twice in vectors, the terms of each document,
and the maps between the two kinds of identifier. Indexing a document again removes it and assigns a
new number.

A hash map is visited in no particular order. Where the order shows in the result, it is taken from
a `Hashing`; elsewhere the entries are visited in key order.
-/

namespace Khive.Bm25

open Attempt

def maxUsize : ℕ := 2 ^ 64 - 1

def saturatingAdd (a b : ℕ) : ℕ := min (a + b) maxUsize

/-- `Vec::resize`. -/
def resize {α : Type} (v : List α) (n : ℕ) (a : α) : List α :=
  v.take n ++ List.replicate (n - v.length) a

/-! ## Posting lists -/

/-- Two parallel vectors, the documents and how often each contains the term, up to 255. -/
structure PostingList where
  docIds : List ℕ
  termFreqs : List ℕ
  deriving DecidableEq

namespace PostingList

def empty : PostingList := ⟨[], []⟩

def len (postings : PostingList) : ℕ := postings.docIds.length

def isEmpty (postings : PostingList) : Bool := postings.docIds.isEmpty

def insert (postings : PostingList) (index docId termFreq : ℕ) : PostingList :=
  ⟨postings.docIds.insertIdx index docId, postings.termFreqs.insertIdx index termFreq⟩

def remove (postings : PostingList) (index : ℕ) : PostingList :=
  ⟨postings.docIds.eraseIdx index, postings.termFreqs.eraseIdx index⟩

def partitionPointByDocId (postings : PostingList) (target : ℕ) : ℕ :=
  (postings.docIds.takeWhile (· < target)).length

end PostingList

/-! ## The index -/

structure Bm25Config where
  k1 : Binary64
  b : Binary64
  memoryBudget : Option ℕ

def Bm25Config.validate (config : Bm25Config) : Except String Unit :=
  if !config.k1.isFinite || config.k1.lt .zero then
    .error "k1 must be finite and non-negative"
  else if !config.b.isFinite || !(Binary64.le .zero config.b && config.b.le .one) then
    .error "b must be finite and in range [0.0, 1.0]"
  else .ok ()

inductive RetrievalError
  | budgetExceeded (currentUsage itemSize limit : ℕ)
  | idSpaceExhausted
  | snapshot (message : String)
  deriving DecidableEq, Repr

/-- The order in which the entries of a hash map come. -/
structure Hashing where
  order : {α : Type} → List (String × α) → List (String × α)
  perm : ∀ {α : Type} (entries : List (String × α)), (order entries).Perm entries

abbrev Tokenizer := String → List String

/-- `F` is the type of the lengths converted for batch scoring. -/
structure Bm25Index (F : Type) where
  invertedIndex : OrderedMap String PostingList
  docLengths : OrderedMap ℕ ℕ
  idToInternal : OrderedMap String ℕ
  internalToId : List String
  nextInternalId : ℕ
  totalTokens : ℕ
  postingsEpoch : ℕ
  blockSize : ℕ
  docLengthsVec : List ℕ
  docLengthsF32 : List F
  config : Bm25Config
  tokenizer : Tokenizer
  forwardIndex : OrderedMap ℕ (List String)

def defaultBlockSize : ℕ := 128

namespace Bm25Index

variable {F : Type} (asF32 : ℕ → F)

/-- `try_with_tokenizer`, of a configuration that is valid. -/
def new (config : Bm25Config) (tokenizer : Tokenizer) : Bm25Index F where
  invertedIndex := .empty
  docLengths := .empty
  idToInternal := .empty
  internalToId := []
  nextInternalId := 0
  totalTokens := 0
  postingsEpoch := 0
  blockSize := defaultBlockSize
  docLengthsVec := []
  docLengthsF32 := []
  config := config
  tokenizer := tokenizer
  forwardIndex := .empty

def docCount (index : Bm25Index F) : ℕ := index.docLengths.entries.length

def containsDocument (index : Bm25Index F) (docId : String) : Bool :=
  (index.idToInternal.get docId).isSome

def clear (index : Bm25Index F) : Bm25Index F :=
  { index with
    invertedIndex := .empty, docLengths := .empty, docLengthsVec := [], docLengthsF32 := [],
    forwardIndex := .empty, idToInternal := .empty, internalToId := [], nextInternalId := 0,
    totalTokens := 0, postingsEpoch := 0 }

def bumpEpoch (index : Bm25Index F) : Bm25Index F :=
  { index with postingsEpoch := (index.postingsEpoch + 1) % 2 ^ 64 }

/-! ### Identifiers and lengths -/

def assignInternalId (index : Bm25Index F) (docId : String) : Bm25Index F :=
  let id := index.nextInternalId
  let grown := if index.internalToId.length ≤ id then resize index.internalToId (id + 1) ""
    else index.internalToId
  { index with
    nextInternalId := id + 1, idToInternal := index.idToInternal.insert docId id,
    internalToId := grown.set id docId }

def getOrAssignInternalId (docId : String) : Attempt (Bm25Index F) RetrievalError ℕ := do
  match ← read fun index ↦ index.idToInternal.get docId with
  | some id => pure id
  | none =>
    let id ← read nextInternalId
    if 2 ^ 32 ≤ id + 1 then fail .idSpaceExhausted
    write fun index ↦ index.assignInternalId docId
    pure id

/-- Set the entry of a vector, after growing it that far. -/
def setGrowing {α : Type} (v : List α) (i : ℕ) (a fill : α) : List α :=
  (if v.length ≤ i then resize v (i + 1) fill else v).set i a

def setDocLengthFast (index : Bm25Index F) (internalId length : ℕ) : Bm25Index F :=
  { index with
    docLengthsVec := setGrowing index.docLengthsVec internalId length 0,
    docLengthsF32 := setGrowing index.docLengthsF32 internalId (asF32 length) (asF32 0) }

def ensureDocLengthsVec (index : Bm25Index F) : Bm25Index F :=
  if !index.docLengthsVec.isEmpty || index.docLengths.entries.isEmpty then index
  else
    let maxId := (index.docLengths.entries.map Prod.fst).foldl max 0
    { index with
      docLengthsVec := index.docLengths.entries.foldl (fun v entry ↦ v.set entry.1 entry.2)
        (resize index.docLengthsVec (maxId + 1) 0),
      docLengthsF32 := index.docLengths.entries.foldl (fun v entry ↦ v.set entry.1 (asF32 entry.2))
        (resize index.docLengthsF32 (maxId + 1) (asF32 0)) }

/-! ### The terms of each document -/

variable (hash : Hashing)

/-- The term is pushed to the terms of its live documents. -/
def pushTerm (docLengths : OrderedMap ℕ ℕ) (forward : OrderedMap ℕ (List String))
    (entry : String × PostingList) : OrderedMap ℕ (List String) :=
  entry.2.docIds.foldl (fun forward docId ↦
    if (docLengths.get docId).isSome then
      forward.insert docId ((forward.get docId).getD [] ++ [entry.1])
    else forward) forward

def rebuildForwardIndex (index : Bm25Index F) (forward : OrderedMap ℕ (List String)) :
    Bm25Index F :=
  { index with
    forwardIndex := (hash.order index.invertedIndex.entries).foldl (pushTerm index.docLengths)
      forward }

def ensureForwardIndex (index : Bm25Index F) : Bm25Index F :=
  if !index.forwardIndex.entries.isEmpty || index.invertedIndex.entries.isEmpty then index
  else index.rebuildForwardIndex hash index.forwardIndex

def ensureForwardIndexComplete (index : Bm25Index F) : Bm25Index F :=
  if index.invertedIndex.entries.isEmpty then index
  else if index.forwardIndex.entries.length = index.docLengths.entries.length ∧
      index.docLengths.entries.all fun entry ↦ (index.forwardIndex.get entry.1).isSome then index
  else index.rebuildForwardIndex hash .empty

/-! ### Removing a document -/

/-- Take the document out of the posting list of a term, and the list with its last document. -/
def removePosting (internalId : ℕ) (inverted : OrderedMap String PostingList) (term : String) :
    OrderedMap String PostingList :=
  match inverted.get term with
  | none => inverted
  | some postings =>
    let idx := postings.partitionPointByDocId internalId
    let postings := if postings.docIds[idx]? = some internalId then postings.remove idx else postings
    if postings.isEmpty then inverted.erase term else inverted.insert term postings

def removePostings (index : Bm25Index F) (internalId : ℕ) : Bm25Index F :=
  match index.forwardIndex.get internalId with
  | none => index
  | some terms =>
    { index with
      forwardIndex := index.forwardIndex.erase internalId,
      invertedIndex := terms.foldl (removePosting internalId) index.invertedIndex }

def dropLength (index : Bm25Index F) (internalId docLength : ℕ) : Bm25Index F :=
  { index with
    docLengths := index.docLengths.erase internalId,
    docLengthsVec := index.docLengthsVec.set internalId 0,
    docLengthsF32 := index.docLengthsF32.set internalId (asF32 0),
    totalTokens := index.totalTokens - docLength }

/-- Remove a document and say whether there was one. -/
def removeDocument (index : Bm25Index F) (docId : String) : Bool × Bm25Index F :=
  match index.idToInternal.get docId with
  | none => (false, index)
  | some internalId =>
    match index.docLengths.get internalId with
    | none => (false, index)
    | some docLength =>
      let index := ((index.dropLength asF32 internalId docLength).ensureForwardIndex
        hash).removePostings internalId
      (true, { index with idToInternal := index.idToInternal.erase docId }.bumpEpoch)

/-! ### The memory budget -/

def bytesPerPosting : ℕ := 5

def sizeOfBlockMaxBlock : ℕ := 24

def blockCount (index : Bm25Index F) (postings : ℕ) : ℕ :=
  (postings + max index.blockSize 1 - 1) / max index.blockSize 1

/-- `memory_usage`. -/
def memoryUsage (index : Bm25Index F) : ℕ :=
  let invertedIndexSize := (index.invertedIndex.entries.map fun entry ↦
    24 + entry.1.utf8ByteSize + (48 + entry.2.len * bytesPerPosting)).sum
  let blockMaxSize := (index.invertedIndex.entries.map fun entry ↦
    24 + index.blockCount entry.2.len * sizeOfBlockMaxBlock + 32).sum
  let docLengthsSize := index.docLengths.entries.length * (4 + 8 + 32)
  let idMapSize := (index.idToInternal.entries.map fun entry ↦
    24 + entry.1.utf8ByteSize + 4 + 32).sum + 24 +
    (index.internalToId.map fun docId ↦ 16 + docId.utf8ByteSize).sum
  let forwardIndexSize := index.forwardIndex.entries.length * (4 + 24 + 32) +
    (index.forwardIndex.entries.map fun entry ↦
      (entry.2.map fun term ↦ 24 + term.utf8ByteSize).sum).sum
  let docLengthsVecSize := index.docLengthsVec.length * 8 + 24
  let docLengthsF32Size := index.docLengthsF32.length * 4 + 24
  let indexMapOverhead := index.invertedIndex.entries.length * 64
  invertedIndexSize + blockMaxSize + docLengthsSize + docLengthsVecSize + docLengthsF32Size +
    forwardIndexSize + idMapSize + indexMapOverhead + 192

/-- How often each token occurs, counted in a `u32` that wraps around. -/
def termFreqs (tokens : List String) : OrderedMap String ℕ :=
  tokens.foldl (fun freqs token ↦
    freqs.insert token (((freqs.get token).getD 0 + 1) % 2 ^ 32)) .empty

/-- `estimate_document_cost`. -/
def estimateDocumentCost (index : Bm25Index F) (text : String) : ℕ :=
  let terms := (termFreqs (index.tokenizer text)).entries.map Prod.fst
  if terms.isEmpty then 0
  else
    let postingsCost := terms.length * bytesPerPosting
    let newTermCost := ((terms.filter fun term ↦ (index.invertedIndex.get term).isNone).map
      fun term ↦ 24 + term.utf8ByteSize + 48 + 64 + (24 + sizeOfBlockMaxBlock + 32)).sum
    let additionalBlockCost := ((terms.filterMap index.invertedIndex.get).map fun postings ↦
      if index.blockCount postings.len < index.blockCount (postings.len + 1) then
        sizeOfBlockMaxBlock
      else 0).sum
    let mirrorSlots := index.nextInternalId + 1 - index.docLengthsVec.length
    let forwardIndexCost := 4 + 24 + 32 + (terms.map fun term ↦ 24 + term.utf8ByteSize).sum
    let idMapCost := (24 + 36 + 4 + 32) + (24 + 36)
    postingsCost + newTermCost + additionalBlockCost + (4 + 8 + 32) + mirrorSlots * (8 + 4) +
      forwardIndexCost + idMapCost

def checkBudget (index : Bm25Index F) (text : String) : Except RetrievalError Unit :=
  match index.config.memoryBudget with
  | none => .ok ()
  | some limit =>
    let current := index.memoryUsage
    let cost := index.estimateDocumentCost text
    if limit < saturatingAdd current cost then .error (.budgetExceeded current cost limit)
    else .ok ()

/-! ### Indexing a document -/

def addPosting (internalId : ℕ) (inverted : OrderedMap String PostingList) (entry : String × ℕ) :
    OrderedMap String PostingList :=
  let postings := (inverted.get entry.1).getD .empty
  inverted.insert entry.1
    (postings.insert (postings.partitionPointByDocId internalId) internalId (min entry.2 255))

/-- What is written for a document that has been assigned its number. -/
def addDocument (internalId : ℕ) (tokens : List String) (index : Bm25Index F) : Bm25Index F :=
  let freqs := termFreqs tokens
  let index := { index with
    invertedIndex := freqs.entries.foldl (addPosting internalId) index.invertedIndex,
    forwardIndex := index.forwardIndex.insert internalId (freqs.entries.map Prod.fst),
    docLengths := index.docLengths.insert internalId tokens.length }
  let index := index.setDocLengthFast asF32 internalId tokens.length
  { index with totalTokens := saturatingAdd index.totalTokens tokens.length }.bumpEpoch

/-- The part of `index_document_inner` behind the tokenizer. -/
def indexTokens (docId text : String) (isReindex : Bool) (tokens : List String) :
    Attempt (Bm25Index F) RetrievalError Unit := do
  if isReindex then write fun index ↦ (index.removeDocument asF32 hash docId).2
  else
    let budget ← read fun index ↦ index.checkBudget text
    check budget
  let internalId ← getOrAssignInternalId docId
  write (addDocument asF32 internalId tokens)

/-- `index_document_inner`. -/
def indexDocument (docId text : String) : Attempt (Bm25Index F) RetrievalError Unit := do
  let isReindex ← read fun index ↦ index.containsDocument docId
  let tokens ← read fun index ↦ index.tokenizer text
  if tokens.length = 0 then pure () else indexTokens asF32 hash docId text isReindex tokens

end Bm25Index

end Khive.Bm25
