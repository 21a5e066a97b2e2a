import Khive.Bm25.Snapshot
import Khive.Foundation.TopK

/-!
# Searching the index

Two ways to the best documents of a query: adding up all contributions of all postings, and walking
the posting lists of the query with one cursor each, in which blocks are passed over that cannot
reach the threshold. What a posting contributes is given by its term, the frequency and the length of
the document; rounding is left aside. The heap is a list with its worst entry first, and sums are
exact, so the batches of the vectorised scoring are the loop over single postings.
-/

namespace Khive.Bm25

open TopK

/-- What a posting of the term contributes, by frequency and length of the document. -/
abbrev Contribution (R : Type) := String → ℕ → ℕ → R

/-- The document of a cursor that has come to its end. -/
def terminatedDoc : ℕ := 2 ^ 32 - 1

/-! ## Block metadata -/

structure BlockMaxBlock (R : Type) where
  minDocId : ℕ
  maxDocId : ℕ
  maxScoreContribution : R
  suffixMaxScore : R

section Blocks

variable {R : Type} [LinearOrder R] [Zero R]

/-- One block, its own maximum standing for that of the suffix still. -/
def buildBlock (score : ℕ → ℕ → R) (postings : PostingList) (docLengths : OrderedMap ℕ ℕ)
    (blockSize blockIdx : ℕ) : BlockMaxBlock R :=
  let start := blockIdx * blockSize
  let «end» := min (start + blockSize) postings.len
  let scores := ((postings.docIds.zip postings.termFreqs).drop start).take («end» - start) |>.map
    fun posting ↦ score posting.2 ((docLengths.get posting.1).getD 0)
  let max := scores.foldl (fun max score ↦ if max < score then score else max) 0
  { minDocId := postings.docIds.getD start 0
    maxDocId := postings.docIds.getD («end» - 1) 0
    maxScoreContribution := max
    suffixMaxScore := max }

/-- Suffix maxima, from the back. -/
def withSuffixMax : List (BlockMaxBlock R) → R × List (BlockMaxBlock R)
  | [] => (0, [])
  | block :: blocks =>
    let (suffixMax, blocks) := withSuffixMax blocks
    let suffixMax :=
      if suffixMax < block.maxScoreContribution then block.maxScoreContribution else suffixMax
    (suffixMax, { block with suffixMaxScore := suffixMax } :: blocks)

def buildTermBlockMaxMeta (score : ℕ → ℕ → R) (postings : PostingList)
    (docLengths : OrderedMap ℕ ℕ) (blockSize : ℕ) : List (BlockMaxBlock R) :=
  if postings.isEmpty then []
  else
    let numBlocks := (postings.len + blockSize - 1) / blockSize
    (withSuffixMax ((List.range numBlocks).map
      (buildBlock score postings docLengths blockSize))).2

end Blocks

/-! ## Cursors -/

structure TermCursor (R : Type) where
  postings : PostingList
  blocks : List (BlockMaxBlock R)
  pos : ℕ
  blockSize : ℕ
  scorer : ℕ → ℕ → R

/-- The bound of a block and its last document. -/
structure ShallowBlockInfo (R : Type) where
  maxScore : R
  lastDoc : ℕ

def Bm25Index.docLengthFast {F : Type} (index : Bm25Index F) (internalId : ℕ) : ℕ :=
  if internalId < index.docLengthsVec.length then index.docLengthsVec.getD internalId 0
  else (index.docLengths.get internalId).getD 0

namespace TermCursor

variable {R : Type} (cursor : TermCursor R)

def isTerminated : Bool := decide (cursor.postings.len ≤ cursor.pos)

def doc : ℕ := cursor.postings.docIds.getD cursor.pos terminatedDoc

def currentBlockIdx : Option ℕ :=
  if cursor.isTerminated then none else some (cursor.pos / cursor.blockSize)

def advance : TermCursor R :=
  if cursor.isTerminated then cursor else { cursor with pos := cursor.pos + 1 }

def seek (targetDoc : ℕ) : TermCursor R :=
  if cursor.isTerminated then cursor
  else if targetDoc ≤ cursor.doc then cursor
  else
    let rel := ((cursor.postings.docIds.drop cursor.pos).takeWhile (· < targetDoc)).length
    { cursor with pos := cursor.pos + rel }

def shallowBlockInfo (targetDoc : ℕ) : Option (ShallowBlockInfo R) := do
  let currentBlockIdx ← cursor.currentBlockIdx
  let rel := ((cursor.blocks.drop currentBlockIdx).takeWhile (·.maxDocId < targetDoc)).length
  let block ← cursor.blocks[currentBlockIdx + rel]?
  pure { maxScore := block.maxScoreContribution, lastDoc := block.maxDocId }

variable [Zero R]

def remainingMaxScore : R :=
  ((cursor.currentBlockIdx.bind fun idx ↦ cursor.blocks[idx]?).map
    BlockMaxBlock.suffixMaxScore).getD 0

def scoreCurrent {F : Type} (index : Bm25Index F) : R :=
  if cursor.isTerminated then 0
  else
    let docId := cursor.postings.docIds.getD cursor.pos 0
    cursor.scorer (cursor.postings.termFreqs.getD cursor.pos 0) (index.docLengthFast docId)

end TermCursor

def sortAndPruneTerminated {R : Type} (cursors : List (TermCursor R)) : List (TermCursor R) :=
  (cursors.filter fun cursor ↦ !cursor.isTerminated).mergeSort
    fun a b ↦ decide (a.doc ≤ b.doc)

/-! ## The cursor loop -/

section Loop

variable {R : Type} [AddCommMonoid R] [LinearOrder R] {F : Type}

/-- The first cursor at which the bounds add up to the threshold. -/
def beforePivotLen (threshold upperBoundSum : R) : List (TermCursor R) → Option ℕ
  | [] => none
  | cursor :: cursors =>
    let upperBoundSum := upperBoundSum + cursor.remainingMaxScore
    if threshold ≤ upperBoundSum then some 0
    else (beforePivotLen threshold upperBoundSum cursors).map (· + 1)

structure Pivot where
  beforePivotLen : ℕ
  pivotLen : ℕ
  pivotDoc : ℕ

def findPivotDoc (cursors : List (TermCursor R)) (threshold : R) : Option Pivot := do
  let before ← beforePivotLen threshold 0 cursors
  let cursor ← cursors[before]?
  if cursor.doc = terminatedDoc then none
  else
    let others := (cursors.drop (before + 1)).takeWhile (·.doc == cursor.doc)
    some ⟨before, before + 1 + others.length, cursor.doc⟩

def blockUpperBound (cursors : List (TermCursor R)) (pivot : Pivot) : R :=
  ((cursors.take pivot.pivotLen).map fun cursor ↦
    ((cursor.shallowBlockInfo pivot.pivotDoc).map ShallowBlockInfo.maxScore).getD 0).sum

/-- The seeks of `align_cursors`, from the last cursor before the pivot to the first: the cursors, and
whether all of them have come to the pivot. -/
def alignLoop (pivotDoc : ℕ) (cursors : List (TermCursor R)) : ℕ → Bool × List (TermCursor R)
  | 0 => (true, cursors)
  | idx + 1 =>
    match cursors[idx]? with
    | none => (true, cursors)
    | some cursor =>
      let cursors := cursors.set idx (cursor.seek pivotDoc)
      if (cursor.seek pivotDoc).doc ≠ pivotDoc then (false, sortAndPruneTerminated cursors)
      else alignLoop pivotDoc cursors idx

def alignCursors (cursors : List (TermCursor R)) (pivot : Pivot) : Bool × List (TermCursor R) :=
  alignLoop pivot.pivotDoc cursors pivot.beforePivotLen

def advanceAllCursorsOnPivot (cursors : List (TermCursor R)) (pivotLen : ℕ) :
    List (TermCursor R) :=
  sortAndPruneTerminated
    ((cursors.take pivotLen).map TermCursor.advance ++ cursors.drop pivotLen)

/-- The cursor whose block ends first, and the least end of a block. -/
def earliestBlock (cursors : List (TermCursor R)) (pivotDoc : ℕ) : Option ℕ × ℕ :=
  cursors.zipIdx.foldl (fun (cursorToSeek, earliestBlockEnd) (cursor, idx) ↦
    match cursor.shallowBlockInfo pivotDoc with
    | none => (cursorToSeek, earliestBlockEnd)
    | some info =>
      if info.lastDoc < earliestBlockEnd then (some idx, info.lastDoc)
      else (cursorToSeek, earliestBlockEnd)) (none, terminatedDoc)

/-- Where to seek: behind the block, but not behind a cursor beyond the pivot. -/
def docToSeekAfter (cursors : List (TermCursor R)) (pivot : Pivot) : ℕ :=
  let blockEnd := (earliestBlock (cursors.take pivot.pivotLen) pivot.pivotDoc).2
  let target := if blockEnd ≠ terminatedDoc then min (blockEnd + 1) terminatedDoc else blockEnd
  (cursors.drop pivot.pivotLen).foldl (fun target cursor ↦
    if cursor.doc < target then cursor.doc else target) target

/-- The document the cursor seeks, which is forced to be behind its own. -/
def forcedTarget (cursor : TermCursor R) (target : ℕ) : ℕ :=
  if target ≤ cursor.doc then min (cursor.doc + 1) terminatedDoc else target

def advanceOneCursorPastBlock (cursors : List (TermCursor R)) (pivot : Pivot) :
    List (TermCursor R) :=
  let cursorToSeek := (earliestBlock (cursors.take pivot.pivotLen) pivot.pivotDoc).1
  match cursorToSeek.bind fun idx ↦ cursors[idx]?.map (idx, ·) with
  | none => sortAndPruneTerminated cursors
  | some (idx, cursor) =>
    sortAndPruneTerminated
      (cursors.set idx (cursor.seek (forcedTarget cursor (docToSeekAfter cursors pivot))))

structure SearchState (R : Type) where
  cursors : List (TermCursor R)
  heap : List (Entry R)

/-- One turn of the loop, or `none` where it is left. -/
def searchTurn (index : Bm25Index F) (k : ℕ) (state : SearchState R) : Option (SearchState R) :=
  (findPivotDoc state.cursors (threshold k state.heap)).map fun pivot ↦
    if blockUpperBound state.cursors pivot < threshold k state.heap then
      { state with cursors := advanceOneCursorPastBlock state.cursors pivot }
    else
      match alignCursors state.cursors pivot with
      | (false, cursors) => { state with cursors := cursors }
      | (true, cursors) =>
        let score := ((cursors.take pivot.pivotLen).map fun cursor ↦ cursor.scoreCurrent index).sum
        { cursors := advanceAllCursorsOnPivot cursors pivot.pivotLen
          heap := keep k state.heap (.of score pivot.pivotDoc) }

/-- The loop with a number of turns to spend; without cursors it is left at once. -/
def searchLoop (index : Bm25Index F) (k : ℕ) : ℕ → SearchState R → Option (List (Entry R))
  | 0, _ => none
  | fuel + 1, state =>
    match searchTurn index k state with
    | none => some state.heap
    | some state =>
      if state.cursors.isEmpty then some state.heap else searchLoop index k fuel state

variable (contribution : Contribution R)

/-- The cursor of a query token, where the index has postings for it. -/
def termCursor (index : Bm25Index F) (term : String) : Option (TermCursor R) := do
  let postings ← index.invertedIndex.get term
  let blocks := buildTermBlockMaxMeta (contribution term) postings index.docLengths index.blockSize
  if postings.isEmpty || blocks.isEmpty then none
  else some ⟨postings, blocks, 0, index.blockSize, contribution term⟩

def startCursors (index : Bm25Index F) (queryTokens : List String) : List (TermCursor R) :=
  sortAndPruneTerminated (queryTokens.filterMap (termCursor contribution index))

/-! ## Adding up everything -/

structure SearchContext (R : Type) where
  scoreVec : List R
  touchedDocs : List ℕ

/-- One posting: a document is noted when it is first scored. -/
def SearchContext.accumulate (ctx : SearchContext R) (docId : ℕ) (score : R) : SearchContext R :=
  let held := ctx.scoreVec.getD docId 0
  { touchedDocs := if held = 0 then ctx.touchedDocs ++ [docId] else ctx.touchedDocs
    scoreVec := ctx.scoreVec.set docId (held + score) }

def scoreTerm (index : Bm25Index F) (ctx : SearchContext R) (term : String) : SearchContext R :=
  match index.invertedIndex.get term with
  | none => ctx
  | some postings =>
    (postings.docIds.zip postings.termFreqs).foldl (fun ctx posting ↦
      ctx.accumulate posting.1
        (contribution term posting.2 (index.docLengthFast posting.1))) ctx

/-- The scored documents of `search_brute_force`. -/
def bruteForceEntries (index : Bm25Index F) (queryTokens : List String) : List (Entry R) :=
  let ctx := queryTokens.foldl (scoreTerm contribution index)
    ⟨List.replicate index.nextInternalId 0, []⟩
  ctx.touchedDocs.filterMap fun docId ↦
    let score := ctx.scoreVec.getD docId 0
    if 0 < score then some (.of score docId) else none

/-- The external identifier of an entry, with its score. -/
def resolve (index : Bm25Index F) (entry : Entry R) : Option (String × R) :=
  index.internalToId[entry.doc]?.map fun docId ↦ (docId, entry.score)

def searchBruteForce (index : Bm25Index F) (queryTokens : List String) (k : ℕ) :
    List (String × R) :=
  if k = 0 ∨ queryTokens = [] ∨ index.docCount = 0 then []
  else ((best (bruteForceEntries contribution index queryTokens)).take k).filterMap (resolve index)

def smallQueryPostingsThreshold : ℕ := 16384

/-- `search_inner`, with a number of turns for the loop. -/
def searchInner (index : Bm25Index F) (queryTokens : List String) (k fuel : ℕ) :
    Option (List (String × R)) :=
  if k = 0 ∨ queryTokens = [] ∨ index.docCount = 0 then some []
  else
    let totalQueryPostings := (queryTokens.map fun term ↦
      ((index.invertedIndex.get term).map PostingList.len).getD 0).sum
    if totalQueryPostings < smallQueryPostingsThreshold then
      some (searchBruteForce contribution index queryTokens k)
    else
      let cursors := queryTokens.filterMap (termCursor contribution index)
      if cursors.isEmpty then some []
      else
        (searchLoop index k fuel ⟨startCursors contribution index queryTokens, []⟩).map
          fun heap ↦ (best heap).filterMap (resolve index)

end Loop

end Khive.Bm25
