import Khive.Bm25.Wand
import Khive.Bm25.Runs

/-!
# The exhaustive scoring

Adding up all contributions gives every document the sum of what the cursors of the query have to
give to it, and notes each document with a positive score once. With the cursors of an index that
describes its slots as a valid start, the loop and the exhaustive scoring come to the same entries.
-/

namespace Khive.Bm25

open TopK

variable {R : Type} {F : Type} {asF32 : ℕ → F} {index : Bm25Index F} {slots : Slots}
  {freq : Frequency} {term : String}

/-! ## Cursors of an index -/

/-- A live document has its length at hand. -/
theorem docLengthFast_eq (h : Describes asF32 freq index slots) {d : ℕ}
    (hlive : (slots.doc? d).isSome) :
    (index.docLengths.get d).getD 0 = index.docLengthFast d := by
  obtain ⟨⟨docId, tokens⟩, hdoc⟩ := Option.isSome_iff_exists.mp hlive
  obtain ⟨hvec, -⟩ := h.lengthsVec d docId tokens hdoc
  obtain ⟨hlt, hget⟩ := List.getElem?_eq_some_iff.mp hvec
  rw [h.lengths, hdoc, Bm25Index.docLengthFast, if_pos hlt, List.getD_eq_getElem?_getD, hvec]
  rfl

theorem isSome_of_mem_docIds (h : Describes asF32 freq index slots) {postings : PostingList}
    (hget : index.invertedIndex.get term = some postings) {d : ℕ} (hd : d ∈ postings.docIds) :
    (slots.doc? d).isSome := by
  obtain ⟨docId, tokens, hdoc, -⟩ := ((mem_docIds_of_get h hget).2 d).mp hd
  rw [hdoc]
  rfl

variable [AddCommMonoid R] [LinearOrder R] {contribution : Contribution R}

/-- The cursor of a term of the index. -/
theorem termCursor_of_get (h : Describes asF32 freq index slots)
    (hpos : ∀ term tf len, 0 < contribution term tf len) {postings : PostingList}
    (hget : index.invertedIndex.get term = some postings) :
    ∃ cursor, termCursor contribution index term = some cursor ∧ cursor.Valid index ∧
      cursor.postings = postings ∧ cursor.scorer = contribution term ∧ cursor.pos = 0 := by
  have hinverted := hget
  rw [h.inverted] at hinverted
  split_ifs at hinverted with hempty
  obtain rfl := Option.some.inj hinverted
  let entries := (slots.postings freq term).entries
  let blocks := buildTermBlockMaxMeta (contribution term) (.ofEntries entries) index.docLengths
    index.blockSize
  have hlengths : (PostingList.ofEntries entries).docIds.length =
      (PostingList.ofEntries entries).termFreqs.length := by
    rw [PostingList.ofEntries, List.length_map, List.length_map]
  have hscored : scored (contribution term) (fun d ↦ (index.docLengths.get d).getD 0)
      (.ofEntries entries) = scored (contribution term) index.docLengthFast (.ofEntries entries) := by
    refine List.map_congr_left fun posting hposting ↦ ?_
    have hlive := isSome_of_mem_docIds h hget (List.of_mem_zip hposting).1
    exact congrArg (fun len ↦ (posting.1, contribution term posting.2 len)) (docLengthFast_eq h hlive)
  -- the blocks are built with the stored lengths, which the search reads from the vector
  have hblocks : BlocksOf _ index.blockSize blocks :=
    blocksOf_build (contribution term) h.blockSize hlengths
  rw [hscored] at hblocks
  have hlen : 0 < (PostingList.ofEntries entries).len := by
    rw [PostingList.len, PostingList.ofEntries, List.length_map]
    exact List.length_pos_of_ne_nil fun hnil ↦ hempty (List.isEmpty_iff.mpr hnil)
  have hsome : ¬((PostingList.ofEntries entries).isEmpty || blocks.isEmpty) = true := by
    rw [Bool.or_eq_true, not_or]
    constructor
    · rw [PostingList.isEmpty_ofEntries]
      exact hempty
    · obtain ⟨block, hblock⟩ := hblocks.exists_block h.blockSize
        (by rw [length_scored hlengths]; exact hlen : 0 < (scored _ _ _).length)
      rw [List.isEmpty_iff]
      intro hnil
      have hblock : blocks[0 / index.blockSize]? = some block := hblock
      rw [hnil] at hblock
      cases hblock
  refine ⟨⟨.ofEntries entries, blocks, 0, index.blockSize, contribution term⟩, ?_, ?_, rfl, rfl,
    rfl⟩
  · rw [termCursor, hget]
    exact if_neg hsome
  · refine
      { lengths := hlengths
        sorted := List.pairwise_map.mpr (slots.postings freq term).sorted
        below := fun d hd ↦ ?_
        blockSize := h.blockSize
        blocks := hblocks
        pos := fun e he ↦ ?_ }
    · have hlt := Slots.lt_length (isSome_of_mem_docIds h hget hd)
      have hspace := h.space
      rw [terminatedDoc]
      omega
    · obtain ⟨posting, -, rfl⟩ := List.mem_map.mp he
      exact hpos _ _ _

theorem termCursor_of_get_none (hget : index.invertedIndex.get term = none) :
    termCursor contribution index term = none := by
  rw [termCursor, hget]
  rfl

/-- What a term gives to a document. -/
def termGain (contribution : Contribution R) (index : Bm25Index F) (d : ℕ) (term : String) : R :=
  ((termCursor contribution index term).map fun cursor ↦ cursor.gain index d).getD 0

theorem valid_termCursors (h : Describes asF32 freq index slots)
    (hpos : ∀ term tf len, 0 < contribution term tf len) (queryTokens : List String) :
    ∀ c ∈ queryTokens.filterMap (termCursor contribution index), c.Valid index := by
  intro c hc
  obtain ⟨term, -, hcursor⟩ := List.mem_filterMap.mp hc
  rcases hget : index.invertedIndex.get term with _ | postings
  · rw [termCursor_of_get_none hget] at hcursor
    cases hcursor
  · obtain ⟨cursor, heq, hvalid, -⟩ := termCursor_of_get h hpos hget
    rw [heq] at hcursor
    obtain rfl := Option.some.inj hcursor
    exact hvalid

theorem sum_termGain (queryTokens : List String) (d : ℕ) :
    (queryTokens.map (termGain contribution index d)).sum =
      restScore index (queryTokens.filterMap (termCursor contribution index)) d := by
  induction queryTokens with
  | nil => rfl
  | cons term queryTokens ih =>
    rw [List.map_cons, List.sum_cons, ih, List.filterMap_cons, termGain]
    rcases termCursor contribution index term with _ | cursor
    · exact zero_add _
    · rfl

/-! ## Adding up -/

variable [IsOrderedCancelAddMonoid R]

/-- A context with the totals of what has been added up. -/
structure Totals (bound : ℕ) (total : ℕ → R) (ctx : SearchContext R) : Prop where
  length : ctx.scoreVec.length = bound
  score : ∀ d, ctx.scoreVec.getD d 0 = total d
  nonneg : ∀ d, 0 ≤ total d
  nodup : ctx.touchedDocs.Nodup
  touched : ∀ d, d ∈ ctx.touchedDocs ↔ 0 < total d

variable {bound : ℕ} {total : ℕ → R} {ctx : SearchContext R}

theorem Totals.accumulate (h : Totals bound total ctx) {d : ℕ} {score : R} (hd : d < bound)
    (hpos : 0 < score) :
    Totals bound (fun e ↦ total e + if e = d then score else 0) (ctx.accumulate d score) := by
  have hlt : d < ctx.scoreVec.length := by rw [h.length]; exact hd
  have hnonneg : ∀ e, 0 ≤ total e + if e = d then score else 0 := by
    intro e
    split_ifs
    · exact add_nonneg (h.nonneg e) hpos.le
    · rw [add_zero]
      exact h.nonneg e
  rw [SearchContext.accumulate, h.score]
  refine
    { length := by rw [List.length_set, h.length]
      score := fun e ↦ ?_
      nonneg := hnonneg
      nodup := ?_
      touched := fun e ↦ ?_ }
  · rw [List.getD_eq_getElem?_getD, List.getElem?_set]
    split_ifs with hde hed hed
    · rw [hde]
      rfl
    · exact absurd hde.symm hed
    · exact absurd hed.symm hde
    · rw [← List.getD_eq_getElem?_getD, h.score, add_zero]
  · -- a document is noted when its score was zero before
    split_ifs with hzero
    · refine List.Nodup.append h.nodup (List.nodup_singleton d) ?_
      rw [List.disjoint_singleton, h.touched, hzero]
      exact lt_irrefl 0
    · exact h.nodup
  · have hself : 0 < total d + score := add_pos_of_nonneg_of_pos (h.nonneg d) hpos
    split_ifs with hzero hed hed
    · rw [hed]
      exact iff_of_true (List.mem_append_right _ List.mem_cons_self) hself
    · rw [List.mem_append, List.mem_singleton, h.touched, add_zero]
      exact or_iff_left hed
    · rw [hed, h.touched]
      exact iff_of_true (lt_of_le_of_ne (h.nonneg d) (Ne.symm hzero)) hself
    · rw [h.touched, add_zero]

/-- A posting list adds to each document what it has for it. -/
theorem Totals.foldl {entries : List (ℕ × R)} (hsorted : SortedMap.Sorted entries)
    (hentries : ∀ e ∈ entries, e.1 < bound ∧ 0 < e.2) (h : Totals bound total ctx) :
    Totals bound (fun d ↦ total d + (entries.lookup d).getD 0)
      (entries.foldl (fun ctx e ↦ ctx.accumulate e.1 e.2) ctx) := by
  induction entries generalizing total ctx with
  | nil => simpa using h
  | cons e entries ih =>
    obtain ⟨hfirst, hrest⟩ := List.pairwise_cons.mp hsorted
    obtain ⟨⟨hd, hpos⟩, hothers⟩ := List.forall_mem_cons.mp hentries
    have hfold := ih hrest hothers (h.accumulate hd hpos)
    have htotal : (fun d ↦ total d + (if d = e.1 then e.2 else 0) + (entries.lookup d).getD 0) =
        fun d ↦ total d + ((e :: entries).lookup d).getD 0 := by
      funext d
      rw [List.lookup_cons]
      by_cases hde : d = e.1
      · -- the other entries are at later documents
        have hnone : entries.lookup d = none := by
          rw [SortedMap.lookup_eq_none_iff, hde]
          intro hmem
          obtain ⟨e', he', heq⟩ := List.mem_map.mp hmem
          exact (hfirst e' he').ne' heq
        rw [hnone, if_pos hde, hde, beq_self_eq_true]
        exact add_zero _
      · rw [if_neg hde, add_zero, beq_false_of_ne hde]
    rw [htotal] at hfold
    exact hfold

theorem Totals.scoreTerm (h : Describes asF32 freq index slots)
    (hpos : ∀ term tf len, 0 < contribution term tf len)
    (htotals : Totals index.nextInternalId total ctx) (term : String) :
    Totals index.nextInternalId (fun d ↦ total d + termGain contribution index d term)
      (scoreTerm contribution index ctx term) := by
  rw [Bm25.scoreTerm]
  rcases hget : index.invertedIndex.get term with _ | postings
  · have hzero : (fun d ↦ total d + termGain contribution index d term) = total := by
      funext d
      rw [termGain, termCursor_of_get_none hget]
      exact add_zero _
    rw [hzero]
    exact htotals
  · obtain ⟨cursor, heq, hvalid, hpostings, hscorer, hstart⟩ := termCursor_of_get h hpos hget
    have hrest : cursor.rest index = scored (contribution term) index.docLengthFast postings := by
      rw [TermCursor.rest, TermCursor.entries, hpostings, hscorer, hstart]
      rfl
    have hgain : (fun d ↦ total d + termGain contribution index d term) =
        fun d ↦ total d + ((cursor.rest index).lookup d).getD 0 := by
      funext d
      rw [termGain, heq]
      rfl
    have hfold := htotals.foldl hvalid.sorted_rest fun e he ↦ ⟨?_, hvalid.pos_of_mem he⟩
    · rw [← hgain, hrest, scored, List.foldl_map] at hfold
      exact hfold
    · -- a posting names a document with a slot, so the score vector has room for it
      have hmem : e.1 ∈ postings.docIds := by
        rw [← hpostings, ← hvalid.map_fst_entries]
        exact List.mem_map.mpr ⟨e, TermCursor.mem_entries he, rfl⟩
      rw [h.next]
      exact Slots.lt_length (isSome_of_mem_docIds h hget hmem)

theorem Totals.scoreTerms (h : Describes asF32 freq index slots)
    (hpos : ∀ term tf len, 0 < contribution term tf len)
    (htotals : Totals index.nextInternalId total ctx) (queryTokens : List String) :
    Totals index.nextInternalId
      (fun d ↦ total d + (queryTokens.map (termGain contribution index d)).sum)
      (queryTokens.foldl (Bm25.scoreTerm contribution index) ctx) := by
  induction queryTokens generalizing total ctx with
  | nil => simpa using htotals
  | cons term queryTokens ih =>
    have hfold := ih (htotals.scoreTerm h hpos term)
    simpa only [List.map_cons, List.sum_cons, List.foldl_cons, ← add_assoc] using hfold

/-- The entries of the exhaustive scoring are the documents with a positive total. -/
theorem bruteForceEntries_spec (h : Describes asF32 freq index slots)
    (hpos : ∀ term tf len, 0 < contribution term tf len) (queryTokens : List String) :
    let total := restScore index (startCursors contribution index queryTokens)
    (bruteForceEntries contribution index queryTokens).Nodup ∧
      ∀ e, e ∈ bruteForceEntries contribution index queryTokens ↔
        e = .of (total e.doc) e.doc ∧ 0 < total e.doc := by
  have hvalid := valid_termCursors h hpos queryTokens
  have hstart : Totals index.nextInternalId (fun _ ↦ (0 : R))
      ⟨List.replicate index.nextInternalId 0, []⟩ :=
    { length := List.length_replicate
      score := fun d ↦ by
        rw [List.getD_eq_getElem?_getD, List.getElem?_replicate]
        split_ifs <;> rfl
      nonneg := fun _ ↦ le_rfl
      nodup := .nil
      touched := fun d ↦ iff_of_false List.not_mem_nil (lt_irrefl 0) }
  have htotals := hstart.scoreTerms h hpos queryTokens
  -- the order of the cursors and the empty ones make no difference to a sum
  have htotal : (fun d ↦ (0 : R) + (queryTokens.map (termGain contribution index d)).sum) =
      restScore index (startCursors contribution index queryTokens) := by
    funext d
    rw [zero_add, sum_termGain, startCursors, restScore_sortAndPrune hvalid]
  rw [htotal] at htotals
  have hmem : ∀ e, e ∈ bruteForceEntries contribution index queryTokens ↔
      e = .of (restScore index (startCursors contribution index queryTokens) e.doc) e.doc ∧
        0 < restScore index (startCursors contribution index queryTokens) e.doc := by
    intro e
    rw [bruteForceEntries]
    simp only [List.mem_filterMap, htotals.score, htotals.touched]
    constructor
    · rintro ⟨d, hd, he⟩
      rw [if_pos hd] at he
      obtain rfl := Option.some.inj he
      exact ⟨rfl, hd⟩
    · rintro ⟨heq, hd⟩
      exact ⟨e.doc, hd, by rw [if_pos hd, ← heq]⟩
  refine ⟨?_, hmem⟩
  rw [bruteForceEntries, List.Nodup, List.pairwise_filterMap]
  refine htotals.nodup.imp fun {d d'} hne e he e' he' heq ↦ hne ?_
  dsimp only at he he'
  split_ifs at he he'
  obtain rfl := Option.some.inj he
  obtain rfl := Option.some.inj he'
  exact congrArg Entry.doc heq

/-! ## The search -/

/-- **Block-Max WAND is the exhaustive search**, over an index that describes its slots. The loop
ends, and leaves in the heap the best entries of the exhaustive scoring. Where a block is passed over
nothing is forced, and no document that a cursor moves over is in the heap at the end. -/
theorem searchLoop_eq_best (h : Describes asF32 freq index slots)
    (hpos : ∀ term tf len, 0 < contribution term tf len) (queryTokens : List String) (k : ℕ) :
    ∃ heap,
      (∀ fuel, remaining index (startCursors contribution index queryTokens) < fuel →
        searchLoop index k fuel ⟨startCursors contribution index queryTokens, []⟩ = some heap) ∧
      heap.reverse = (best (bruteForceEntries contribution index queryTokens)).take k ∧
      ∀ state, Relation.ReflTransGen (Turn index k)
        ⟨startCursors contribution index queryTokens, []⟩ state →
        ∀ pivot, findPivotDoc state.cursors (threshold k state.heap) = some pivot →
          blockUpperBound state.cursors pivot < threshold k state.heap →
          (∀ idx cursor, (earliestBlock (state.cursors.take pivot.pivotLen) pivot.pivotDoc).1 =
              some idx → state.cursors[idx]? = some cursor →
            forcedTarget cursor (docToSeekAfter state.cursors pivot) =
              docToSeekAfter state.cursors pivot) ∧
          ∀ d, restScore index (advanceOneCursorPastBlock state.cursors pivot) d ≠
              restScore index state.cursors d → ∀ e ∈ heap, e.doc ≠ d := by
  have hvalid := valid_termCursors h hpos queryTokens
  have hready : Ready index (startCursors contribution index queryTokens) :=
    ready_sortAndPrune hvalid
  have hsound : Sound k (restScore index (startCursors contribution index queryTokens))
      (restScore index (startCursors contribution index queryTokens)) [] :=
    .start (restScore_nonneg hready.valid)
  obtain ⟨rest, heap, hfinal, hdone, hfuel, hstates⟩ := searchLoop_ends
    ⟨startCursors contribution index queryTokens, []⟩ hready hsound
  obtain ⟨hnodup, hmem⟩ := bruteForceEntries_spec h hpos queryTokens
  refine ⟨heap, hfuel, hfinal.finished hdone hnodup hmem, fun state hreached pivot hpivot hbound ↦ ?_⟩
  obtain ⟨hready', hsound', hbeaten⟩ := hstates state hreached
  constructor
  · obtain ⟨front, at', behind, hsplits⟩ := hready'.splits hpivot
    obtain ⟨idx, c, hearliest, hget, hdoc, htarget, -⟩ := hsplits.seek hready'
    intro idx' cursor hidx hcursor
    rw [hearliest] at hidx
    obtain rfl := Option.some.inj hidx
    rw [hget] at hcursor
    obtain rfl := Option.some.inj hcursor
    exact if_neg (hdoc.trans_lt htarget).not_ge
  · intro d hmoved e he hdoc
    obtain ⟨hready'', -, hskip⟩ := hready'.pass hpivot hbound
    have hout := hbeaten _ (hsound'.beaten_of_skip (restScore_nonneg hready''.valid) hskip hmoved)
    obtain ⟨heq, -⟩ := hfinal.held e he
    rw [hdoc] at heq
    exact absurd (hout.2 e he) (heq ▸ lt_irrefl _)

/-- The results are those of the exhaustive search, whatever way is taken to them. -/
theorem searchInner_eq_bruteForce (h : Describes asF32 freq index slots)
    (hpos : ∀ term tf len, 0 < contribution term tf len) (queryTokens : List String) (k fuel : ℕ)
    (hfuel : remaining index (startCursors contribution index queryTokens) < fuel) :
    searchInner contribution index queryTokens k fuel =
      some (searchBruteForce contribution index queryTokens k) := by
  rw [searchInner]
  dsimp only
  split_ifs with hempty hsmall hnone
  · rw [searchBruteForce, if_pos hempty]
  · rfl
  · -- no term of the query has postings, so nothing is scored
    have hentries : bruteForceEntries contribution index queryTokens = [] := by
      refine List.eq_nil_iff_forall_not_mem.mpr fun e he ↦ ?_
      obtain ⟨-, hpos'⟩ := ((bruteForceEntries_spec h hpos queryTokens).2 e).mp he
      have hzero : restScore index (startCursors contribution index queryTokens) e.doc = 0 := by
        rw [startCursors, restScore_sortAndPrune (valid_termCursors h hpos queryTokens),
          List.isEmpty_iff.mp hnone]
        rfl
      exact hpos'.ne' hzero
    have hbest : best ([] : List (Entry R)) = [] := best_eq_of_perm .nil .nil
    rw [searchBruteForce, if_neg hempty, hentries, hbest, List.take_nil]
    rfl
  · obtain ⟨heap, hloop, hbest, -⟩ := searchLoop_eq_best h hpos queryTokens k
    have hsorted : heap.reverse.Pairwise fun a b ↦ b ≤ a := by
      rw [hbest]
      exact (pairwise_best _).sublist (List.take_sublist _ _)
    rw [hloop fuel hfuel, searchBruteForce, if_neg hempty, ← hbest, Option.map_some,
      best_eq_of_perm heap.reverse_perm hsorted]

/-- **The search over every index of a run**, with blocks of any size and contributions of any
positive values: the loop ends with the best `k` entries of the exhaustive scoring in the heap, no
document a cursor is moved over with a block is one of them, the cursor is never forced, and the
search returns what the exhaustive search returns. -/
theorem search_returns_exhaustive_top (asF32 : ℕ → F) (config : Bm25Config)
    (hconfig : config.validate = .ok ()) (tokenizer : Tokenizer) (steps : List Request)
    (blockSize : ℕ) (hblock : 1 ≤ blockSize) (contribution : Contribution R)
    (hpos : ∀ term tf len, 0 < contribution term tf len) (queryTokens : List String) (k : ℕ) :
    let index := { (tracked asF32 config tokenizer steps).1 with blockSize := blockSize }
    let start : SearchState R := ⟨startCursors contribution index queryTokens, []⟩
    ∃ heap,
      (∀ fuel, remaining index start.cursors < fuel →
        searchLoop index k fuel start = some heap ∧
        searchInner contribution index queryTokens k fuel =
          some (searchBruteForce contribution index queryTokens k)) ∧
      heap.reverse = (best (bruteForceEntries contribution index queryTokens)).take k ∧
      ∀ state, Relation.ReflTransGen (Turn index k) start state →
        ∀ pivot, findPivotDoc state.cursors (threshold k state.heap) = some pivot →
          blockUpperBound state.cursors pivot < threshold k state.heap →
          (∀ idx cursor, (earliestBlock (state.cursors.take pivot.pivotLen) pivot.pivotDoc).1 =
              some idx → state.cursors[idx]? = some cursor →
            forcedTarget cursor (docToSeekAfter state.cursors pivot) =
              docToSeekAfter state.cursors pivot) ∧
          ∀ d, restScore index (advanceOneCursorPastBlock state.cursors pivot) d ≠
              restScore index state.cursors d → ∀ e ∈ heap, e.doc ≠ d := by
  intro index start
  obtain ⟨slots, hdescribes⟩ := exists_describes asF32 hconfig tokenizer steps
  have h : Describes asF32 wrappedFreq index slots := { hdescribes with blockSize := hblock }
  obtain ⟨heap, hloop, hbest, hskip⟩ := searchLoop_eq_best h hpos queryTokens k
  refine ⟨heap, fun fuel hfuel ↦ ⟨hloop fuel hfuel, ?_⟩, hbest, hskip⟩
  exact searchInner_eq_bruteForce h hpos queryTokens k fuel hfuel

/-- A text is the sequence of its letters. -/
def letters : Tokenizer := fun text ↦ text.toList.map Char.toString

/-- Three documents with a common word, each a block of its own. -/
def threeBlocks : Bm25Index ℕ :=
  { (tracked id plainConfig letters [.index "a" "xx" storedOrder, .index "b" "x" storedOrder,
      .index "c" "xxx" storedOrder]).1 with blockSize := 1 }

def byFrequency : Contribution ℕ := fun _ tf _ ↦ tf + 1

/-- With the first document kept, the block of the second is passed over for the third. -/
theorem search_skips_block :
    let start : SearchState ℕ := ⟨startCursors byFrequency threeBlocks ["x"], []⟩
    searchInner byFrequency threeBlocks ["x"] 1 4 =
        some (searchBruteForce byFrequency threeBlocks ["x"] 1) ∧
      ∃ heap, searchLoop threeBlocks 1 4 start = some heap ∧
        heap.reverse = (best (bruteForceEntries byFrequency threeBlocks ["x"])).take 1 ∧
        ∃ state ∈ searchTurn threeBlocks 1 start,
          ∃ pivot ∈ findPivotDoc state.cursors (threshold 1 state.heap),
            blockUpperBound state.cursors pivot < threshold 1 state.heap ∧
            restScore threeBlocks (advanceOneCursorPastBlock state.cursors pivot) 1 ≠
              restScore threeBlocks state.cursors 1 ∧
            ∀ e ∈ heap, e.doc ≠ 1 := by
  intro start
  obtain ⟨heap, hloop, hbest, hskip⟩ := search_returns_exhaustive_top id plainConfig
    validate_plainConfig letters _ 1 le_rfl byFrequency (fun _ tf _ ↦ tf.succ_pos) ["x"] 1
  have hfuel : remaining threeBlocks start.cursors < 4 := by decide +kernel
  have hpass : ∃ state ∈ searchTurn threeBlocks 1 start,
      ∃ pivot ∈ findPivotDoc state.cursors (threshold 1 state.heap),
        blockUpperBound state.cursors pivot < threshold 1 state.heap ∧
        restScore threeBlocks (advanceOneCursorPastBlock state.cursors pivot) 1 ≠
          restScore threeBlocks state.cursors 1 := by decide +kernel
  obtain ⟨state, hstate, pivot, hpivot, hbound, hmoved⟩ := hpass
  have hunkept := (hskip state (.single hstate) pivot hpivot hbound).2 1 hmoved
  exact ⟨(hloop 4 hfuel).2, heap, (hloop 4 hfuel).1, hbest, state, hstate, pivot, hpivot, hbound,
    hmoved, hunkept⟩

end Khive.Bm25
