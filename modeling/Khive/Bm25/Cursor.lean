import Khive.Bm25.Search
import Khive.Bm25.Slots

/-!
# What a cursor has before it

The postings from the position of a cursor on, each with its score, are the *rest* of the cursor, and
every operation of a cursor is one on its rest. `BlocksOf` is what the block metadata says about the
scores: a block bounds its own, and its suffix maximum those of all blocks from it on. From it come
the two bounds of the search, `le_remainingMaxScore` and `le_shallowBlockInfo`.
-/

namespace Khive.Bm25

variable {R : Type}

/-- The postings with their scores. -/
def scored (score : ℕ → ℕ → R) (len : ℕ → ℕ) (postings : PostingList) : List (ℕ × R) :=
  (postings.docIds.zip postings.termFreqs).map fun posting ↦
    (posting.1, score posting.2 (len posting.1))

theorem map_fst_scored {score : ℕ → ℕ → R} {len : ℕ → ℕ} {postings : PostingList}
    (h : postings.docIds.length = postings.termFreqs.length) :
    (scored score len postings).map Prod.fst = postings.docIds := by
  rw [scored, List.map_map]
  exact List.map_fst_zip h.le

theorem length_scored {score : ℕ → ℕ → R} {len : ℕ → ℕ} {postings : PostingList}
    (h : postings.docIds.length = postings.termFreqs.length) :
    (scored score len postings).length = postings.len := by
  rw [← List.length_map Prod.fst, map_fst_scored h]
  rfl

/-! ## Splitting a list by a test -/

section TakeWhile

variable {α : Type} {p : α → Bool} {l : List α} {a : α}

theorem drop_length_takeWhile (p : α → Bool) (l : List α) :
    l.drop (l.takeWhile p).length = l.dropWhile p := by
  induction l with
  | nil => rfl
  | cons a l ih =>
    by_cases ha : p a
    · rw [List.takeWhile_cons_of_pos ha, List.dropWhile_cons_of_pos ha]
      exact ih
    · rw [List.takeWhile_cons_of_neg ha, List.dropWhile_cons_of_neg ha]
      rfl

theorem not_of_getElem?_takeWhile (h : l[(l.takeWhile p).length]? = some a) : p a = false := by
  rw [← Nat.add_zero (l.takeWhile p).length, ← List.getElem?_drop, drop_length_takeWhile,
    ← List.head?_eq_getElem?] at h
  have hhead := List.head?_dropWhile_not p l
  rw [h] at hhead
  exact hhead

theorem of_getElem?_takeWhile {i : ℕ} (hi : i < (l.takeWhile p).length) (h : l[i]? = some a) :
    p a = true := by
  have hget : (l.takeWhile p)[i]? = some a := by
    rw [List.getElem?_eq_getElem hi, (List.takeWhile_prefix p).getElem hi, ← h,
      List.getElem?_eq_getElem]
  exact List.mem_takeWhile_imp (List.mem_of_getElem? hget)

/-- In a sorted list the test is one on every entry. -/
theorem mem_dropWhile_lt {α : Type} {entries : List (ℕ × α)} (hsorted : SortedMap.Sorted entries)
    {t : ℕ} {e : ℕ × α} :
    e ∈ entries.dropWhile (fun e ↦ decide (e.1 < t)) ↔ e ∈ entries ∧ t ≤ e.1 := by
  induction entries with
  | nil => simp
  | cons first entries ih =>
    obtain ⟨hfirst, hrest⟩ := List.pairwise_cons.mp hsorted
    by_cases hlt : first.1 < t
    · rw [List.dropWhile_cons_of_pos (by simpa using hlt), ih hrest, List.mem_cons]
      constructor
      · exact fun he ↦ ⟨.inr he.1, he.2⟩
      · rintro ⟨rfl | he, hle⟩
        · omega
        · exact ⟨he, hle⟩
    · rw [List.dropWhile_cons_of_neg (by simpa using hlt)]
      refine (and_iff_left_of_imp fun he ↦ ?_).symm
      rcases List.mem_cons.mp he with rfl | he
      · exact not_lt.mp hlt
      · exact (not_lt.mp hlt).trans (hfirst e he).le

end TakeWhile

/-! ## Block metadata -/

section Blocks

variable [LinearOrder R]

theorem le_foldl_of_mem {scores : List R} {max score : R} (h : score ∈ scores ∨ score ≤ max) :
    score ≤ scores.foldl (fun max score ↦ if max < score then score else max) max := by
  induction scores generalizing max with
  | nil => exact h.resolve_left List.not_mem_nil
  | cons first scores ih =>
    rw [List.foldl_cons]
    apply ih
    rcases h with h | h
    · rcases List.mem_cons.mp h with rfl | h
      · refine .inr ?_
        split_ifs with hlt
        · exact le_rfl
        · exact not_lt.mp hlt
      · exact .inl h
    · refine .inr ?_
      split_ifs with hlt
      · exact h.trans hlt.le
      · exact h

/-- What the metadata says about the scores of the postings. -/
structure BlocksOf [Zero R] (entries : List (ℕ × R)) (blockSize : ℕ)
    (blocks : List (BlockMaxBlock R)) : Prop where
  length : blocks.length = (entries.length + blockSize - 1) / blockSize
  maxDocId : ∀ b block, blocks[b]? = some block →
    ∃ e, entries[min (b * blockSize + blockSize) entries.length - 1]? = some e ∧
      block.maxDocId = e.1
  nonneg : ∀ block ∈ blocks, 0 ≤ block.maxScoreContribution
  bound : ∀ i e block, entries[i]? = some e → blocks[i / blockSize]? = some block →
    e.2 ≤ block.maxScoreContribution
  suffix : ∀ (b b' : ℕ) (block block' : BlockMaxBlock R), blocks[b]? = some block → blocks[b']? = some block' → b ≤ b' →
    block'.maxScoreContribution ≤ block.suffixMaxScore

/-- There is a block for every posting. -/
theorem BlocksOf.exists_block [Zero R] {entries : List (ℕ × R)} {blockSize : ℕ}
    {blocks : List (BlockMaxBlock R)} (h : BlocksOf entries blockSize blocks)
    (hblock : 0 < blockSize) {i : ℕ} (hi : i < entries.length) :
    ∃ block, blocks[i / blockSize]? = some block := by
  have hceil : entries.length ≤ (entries.length + blockSize - 1) / blockSize * blockSize := by
    have hdiv := Nat.div_add_mod (entries.length + blockSize - 1) blockSize
    have hmod := Nat.mod_lt (entries.length + blockSize - 1) hblock
    rw [Nat.mul_comm] at hdiv
    omega
  have hlt : i / blockSize < blocks.length := by
    rw [h.length, Nat.div_lt_iff_lt_mul hblock]
    omega
  exact ⟨_, List.getElem?_eq_getElem hlt⟩

variable [Zero R]

theorem le_fst_withSuffixMax {blocks : List (BlockMaxBlock R)} {block : BlockMaxBlock R}
    (h : block ∈ blocks) : block.maxScoreContribution ≤ (withSuffixMax blocks).1 := by
  induction blocks with
  | nil => cases h
  | cons first blocks ih =>
    show _ ≤ if _ < _ then _ else _
    rcases List.mem_cons.mp h with rfl | h
    · split_ifs with hlt
      · exact le_rfl
      · exact not_lt.mp hlt
    · split_ifs with hlt
      · exact (ih h).trans hlt.le
      · exact ih h

/-- Suffix maxima leave the rest of a block as it is, and bound all blocks from it on. -/
theorem getElem?_withSuffixMax {blocks : List (BlockMaxBlock R)} {b : ℕ}
    {block : BlockMaxBlock R} (h : blocks[b]? = some block) :
    ∃ suffixMax, (withSuffixMax blocks).2[b]? = some { block with suffixMaxScore := suffixMax } ∧
      ∀ block' ∈ blocks.drop b, block'.maxScoreContribution ≤ suffixMax := by
  induction blocks generalizing b with
  | nil => cases h
  | cons first blocks ih =>
    rcases b with _ | b
    · obtain rfl : first = block := by simpa using h
      exact ⟨(withSuffixMax (first :: blocks)).1, rfl, fun block' hmem ↦ le_fst_withSuffixMax hmem⟩
    · exact ih (by simpa using h)

theorem length_withSuffixMax (blocks : List (BlockMaxBlock R)) :
    (withSuffixMax blocks).2.length = blocks.length := by
  induction blocks with
  | nil => rfl
  | cons first blocks ih => exact congrArg (· + 1) ih

section Build

variable {score : ℕ → ℕ → R} {postings : PostingList} {docLengths : OrderedMap ℕ ℕ} {blockSize : ℕ}

/-- The metadata is the blocks with their suffix maxima, also where there are no postings. -/
theorem buildTermBlockMaxMeta_eq (hblock : 0 < blockSize) :
    buildTermBlockMaxMeta score postings docLengths blockSize =
      (withSuffixMax ((List.range ((postings.len + blockSize - 1) / blockSize)).map
        (buildBlock score postings docLengths blockSize))).2 := by
  rw [buildTermBlockMaxMeta]
  split_ifs with hempty
  · have hlen : postings.len = 0 := by
      rw [PostingList.len, List.isEmpty_iff.mp hempty]
      rfl
    have hnone : (postings.len + blockSize - 1) / blockSize = 0 := by
      rw [hlen]
      exact Nat.div_eq_of_lt (by omega)
    rw [hnone]
    rfl
  · rfl

/-- A block of the metadata is the built one with a bound on all blocks from it on. -/
theorem getElem?_buildTermBlockMaxMeta (hblock : 0 < blockSize) {b : ℕ} {block : BlockMaxBlock R}
    (h : (buildTermBlockMaxMeta score postings docLengths blockSize)[b]? = some block) :
    b < (postings.len + blockSize - 1) / blockSize ∧
      block.maxDocId = (buildBlock score postings docLengths blockSize b).maxDocId ∧
      block.maxScoreContribution =
        (buildBlock score postings docLengths blockSize b).maxScoreContribution ∧
      ∀ b' < (postings.len + blockSize - 1) / blockSize, b ≤ b' →
        (buildBlock score postings docLengths blockSize b').maxScoreContribution ≤
          block.suffixMaxScore := by
  rw [buildTermBlockMaxMeta_eq hblock] at h
  have hget : ∀ b < (postings.len + blockSize - 1) / blockSize,
      ((List.range ((postings.len + blockSize - 1) / blockSize)).map
        (buildBlock score postings docLengths blockSize))[b]? =
          some (buildBlock score postings docLengths blockSize b) := by
    intro b hb
    rw [List.getElem?_map, List.getElem?_range hb]
    rfl
  have hb : b < (postings.len + blockSize - 1) / blockSize := by
    obtain ⟨hlt, -⟩ := List.getElem?_eq_some_iff.mp h
    rwa [length_withSuffixMax, List.length_map, List.length_range] at hlt
  obtain ⟨suffixMax, hsome, hbound⟩ := getElem?_withSuffixMax (hget b hb)
  rw [h] at hsome
  obtain rfl := Option.some.inj hsome
  refine ⟨hb, rfl, rfl, fun b' hb' hle ↦ hbound _ ?_⟩
  refine List.mem_iff_getElem?.mpr ⟨b' - b, ?_⟩
  rw [List.getElem?_drop, Nat.add_sub_cancel' hle, hget b' hb']

/-- The last document of a block. -/
theorem maxDocId_buildBlock (hblock : 0 < blockSize)
    (hlengths : postings.docIds.length = postings.termFreqs.length) {b : ℕ}
    (hb : b < (postings.len + blockSize - 1) / blockSize) (len : ℕ → ℕ) :
    ∃ e, (scored score len postings)[min (b * blockSize + blockSize)
        (scored score len postings).length - 1]? = some e ∧
      (buildBlock score postings docLengths blockSize b).maxDocId = e.1 := by
  have hstart : b * blockSize < postings.len := by
    have hle : (postings.len + blockSize - 1) / blockSize * blockSize ≤ postings.len + blockSize - 1 :=
      Nat.div_mul_le_self _ _
    have hmul : (b + 1) * blockSize ≤ (postings.len + blockSize - 1) / blockSize * blockSize :=
      Nat.mul_le_mul_right _ hb
    rw [Nat.add_mul, Nat.one_mul] at hmul
    omega
  have hin : min (b * blockSize + blockSize) postings.len - 1 < (scored score len postings).length := by
    rw [length_scored hlengths]
    omega
  rw [length_scored hlengths]
  refine ⟨_, List.getElem?_eq_getElem hin, ?_⟩
  have hdoc : postings.docIds[min (b * blockSize + blockSize) postings.len - 1]? =
      some ((scored score len postings).get ⟨_, hin⟩).1 := by
    have hfst : (scored score len postings).map Prod.fst = postings.docIds := map_fst_scored hlengths
    rw [← hfst, List.getElem?_map, List.getElem?_eq_getElem hin]
    rfl
  rw [buildBlock]
  dsimp only
  rw [List.getD_eq_getElem?_getD, hdoc]
  rfl

/-- A block bounds the scores of its postings. -/
theorem le_maxScoreContribution_buildBlock (hblock : 0 < blockSize)
    (hlengths : postings.docIds.length = postings.termFreqs.length) {i : ℕ} {e : ℕ × R}
    (he : (scored score (fun d ↦ (docLengths.get d).getD 0) postings)[i]? = some e) :
    e.2 ≤ (buildBlock score postings docLengths blockSize (i / blockSize)).maxScoreContribution := by
  rw [scored, List.getElem?_map] at he
  obtain ⟨posting, hposting, rfl⟩ := Option.map_eq_some_iff.mp he
  obtain ⟨hi, -⟩ := List.getElem?_eq_some_iff.mp hposting
  rw [List.length_zip, ← hlengths, min_self] at hi
  have hi : i < postings.len := hi
  have hstart : i / blockSize * blockSize ≤ i := Nat.div_mul_le_self i blockSize
  have hend : i < i / blockSize * blockSize + blockSize := by
    have hmod := Nat.mod_lt i hblock
    have hdiv := Nat.div_add_mod' i blockSize
    omega
  rw [buildBlock]
  refine le_foldl_of_mem (.inl (List.mem_map.mpr ⟨posting, ?_, rfl⟩))
  refine List.mem_iff_getElem?.mpr ⟨i - i / blockSize * blockSize, ?_⟩
  rw [List.getElem?_take_of_lt (by omega), List.getElem?_drop, Nat.add_sub_cancel' hstart, hposting]

end Build

theorem blocksOf_build (score : ℕ → ℕ → R) {postings : PostingList} {docLengths : OrderedMap ℕ ℕ}
    {blockSize : ℕ} (hblock : 0 < blockSize)
    (hlengths : postings.docIds.length = postings.termFreqs.length) :
    BlocksOf (scored score (fun d ↦ (docLengths.get d).getD 0) postings) blockSize
      (buildTermBlockMaxMeta score postings docLengths blockSize) where
  length := by
    rw [buildTermBlockMaxMeta_eq hblock, length_withSuffixMax, List.length_map, List.length_range,
      length_scored hlengths]
  maxDocId b block hb := by
    obtain ⟨hlt, hmax, -⟩ := getElem?_buildTermBlockMaxMeta hblock hb
    rw [hmax]
    exact maxDocId_buildBlock hblock hlengths hlt _
  nonneg block hmem := by
    obtain ⟨b, hb⟩ := List.mem_iff_getElem?.mp hmem
    obtain ⟨-, -, hmax, -⟩ := getElem?_buildTermBlockMaxMeta hblock hb
    rw [hmax, buildBlock]
    exact le_foldl_of_mem (.inr le_rfl)
  bound i e block he hb := by
    obtain ⟨-, -, hmax, -⟩ := getElem?_buildTermBlockMaxMeta hblock hb
    rw [hmax]
    exact le_maxScoreContribution_buildBlock hblock hlengths he
  suffix b b' block block' hb hb' hle := by
    obtain ⟨-, -, -, hbound⟩ := getElem?_buildTermBlockMaxMeta hblock hb
    obtain ⟨hlt', -, hmax', -⟩ := getElem?_buildTermBlockMaxMeta hblock hb'
    rw [hmax']
    exact hbound b' hlt' hle

end Blocks

/-! ## The rest of a cursor -/

namespace TermCursor

variable {F : Type} (index : Bm25Index F) (cursor : TermCursor R)

def entries : List (ℕ × R) := scored cursor.scorer index.docLengthFast cursor.postings

/-- The postings that are still to come. -/
def rest : List (ℕ × R) := (cursor.entries index).drop cursor.pos

/-- What the cursor still has to give to a document. -/
def gain [Zero R] (d : ℕ) : R := ((cursor.rest index).lookup d).getD 0

variable {index cursor} {d t : ℕ} {r : R}

theorem mem_entries {e : ℕ × R} (he : e ∈ cursor.rest index) : e ∈ cursor.entries index :=
  List.mem_of_mem_drop he

theorem getElem?_pos {e : ℕ × R} {es : List (ℕ × R)} (hrest : cursor.rest index = e :: es) :
    (cursor.entries index)[cursor.pos]? = some e := by
  have hhead : (cursor.rest index)[0]? = some e := by rw [hrest]; rfl
  rw [rest, List.getElem?_drop] at hhead
  exact hhead

theorem currentBlockIdx_eq (hlive : cursor.isTerminated = false) :
    cursor.currentBlockIdx = some (cursor.pos / cursor.blockSize) := by
  rw [currentBlockIdx, hlive]
  rfl

/-- A shallow seek does not stop at a block that ends before the target. -/
theorem le_lastDoc {info : ShallowBlockInfo R} (hinfo : cursor.shallowBlockInfo t = some info) :
    t ≤ info.lastDoc := by
  obtain ⟨current, -, hinfo⟩ := Option.bind_eq_some_iff.mp hinfo
  obtain ⟨block, hblock, hinfo⟩ := Option.bind_eq_some_iff.mp hinfo
  obtain rfl := Option.some.inj hinfo
  rw [← List.getElem?_drop] at hblock
  exact not_lt.mp (of_decide_eq_false
    (not_of_getElem?_takeWhile (p := fun b : BlockMaxBlock R ↦ decide (b.maxDocId < t)) hblock))

theorem gain_of_not_mem [Zero R] (hmem : ∀ r, (d, r) ∉ cursor.rest index) :
    cursor.gain index d = 0 := by
  have hnone : (cursor.rest index).lookup d = none := by
    rw [SortedMap.lookup_eq_none_iff]
    intro hkey
    obtain ⟨⟨_, r⟩, he, rfl⟩ := List.mem_map.mp hkey
    exact hmem r he
  rw [gain, hnone]
  rfl

variable [LinearOrder R] [Zero R]

variable (index cursor) in
/-- A cursor over a posting list of the index, with its metadata. -/
structure Valid : Prop where
  lengths : cursor.postings.docIds.length = cursor.postings.termFreqs.length
  sorted : cursor.postings.docIds.Pairwise (· < ·)
  below : ∀ d ∈ cursor.postings.docIds, d < terminatedDoc
  blockSize : 0 < cursor.blockSize
  blocks : BlocksOf (cursor.entries index) cursor.blockSize cursor.blocks
  pos : ∀ e ∈ cursor.entries index, 0 < e.2

namespace Valid

variable (h : cursor.Valid index)
include h

theorem map_fst_entries : (cursor.entries index).map Prod.fst = cursor.postings.docIds :=
  map_fst_scored h.lengths

theorem length_entries : (cursor.entries index).length = cursor.postings.len :=
  length_scored h.lengths

theorem sorted_entries : SortedMap.Sorted (cursor.entries index) := by
  have hsorted := h.sorted
  rw [← h.map_fst_entries] at hsorted
  exact List.pairwise_map.mp hsorted

theorem sorted_rest : SortedMap.Sorted (cursor.rest index) :=
  h.sorted_entries.sublist (List.drop_sublist _ _)

theorem pos_of_mem {e : ℕ × R} (he : e ∈ cursor.rest index) : 0 < e.2 := h.pos e (mem_entries he)

theorem below_of_mem {e : ℕ × R} (he : e ∈ cursor.rest index) : e.1 < terminatedDoc := by
  apply h.below
  rw [← h.map_fst_entries]
  exact List.mem_map.mpr ⟨e, mem_entries he, rfl⟩

theorem isTerminated_iff : cursor.isTerminated = true ↔ cursor.rest index = [] := by
  rw [isTerminated, decide_eq_true_iff, rest, List.drop_eq_nil_iff, h.length_entries]

theorem doc_of_nil (hrest : cursor.rest index = []) : cursor.doc = terminatedDoc := by
  rw [doc, List.getD_eq_getElem?_getD, ← h.map_fst_entries, List.getElem?_map,
    List.getElem?_eq_none (List.drop_eq_nil_iff.mp hrest)]
  rfl

theorem doc_of_cons {e : ℕ × R} {es : List (ℕ × R)} (hrest : cursor.rest index = e :: es) :
    cursor.doc = e.1 := by
  rw [doc, List.getD_eq_getElem?_getD, ← h.map_fst_entries, List.getElem?_map,
    getElem?_pos hrest]
  rfl

theorem scoreCurrent_of_cons {e : ℕ × R} {es : List (ℕ × R)}
    (hrest : cursor.rest index = e :: es) : cursor.scoreCurrent index = e.2 := by
  have hget := getElem?_pos hrest
  rw [entries, scored, List.getElem?_map] at hget
  obtain ⟨posting, hposting, rfl⟩ := Option.map_eq_some_iff.mp hget
  obtain ⟨hdoc, hfreq⟩ := List.getElem?_zip_eq_some.mp hposting
  have hlive : ¬cursor.isTerminated = true := by
    rw [h.isTerminated_iff, hrest]
    exact List.cons_ne_nil _ _
  rw [scoreCurrent, if_neg hlive, List.getD_eq_getElem?_getD, List.getD_eq_getElem?_getD, hdoc,
    hfreq]
  rfl

theorem gain_of_mem (hmem : (d, r) ∈ cursor.rest index) : cursor.gain index d = r := by
  rw [gain, SortedMap.lookup_of_mem (SortedMap.nodup_keys h.sorted_rest) hmem]
  rfl

theorem gain_cases (d : ℕ) :
    (cursor.gain index d = 0 ∧ ∀ r, (d, r) ∉ cursor.rest index) ∨
      (d, cursor.gain index d) ∈ cursor.rest index ∧ 0 < cursor.gain index d := by
  by_cases hmem : ∃ r, (d, r) ∈ cursor.rest index
  · obtain ⟨r, hr⟩ := hmem
    rw [h.gain_of_mem hr]
    exact .inr ⟨hr, h.pos_of_mem hr⟩
  · have hmem : ∀ r, (d, r) ∉ cursor.rest index := not_exists.mp hmem
    exact .inl ⟨gain_of_not_mem hmem, hmem⟩

theorem gain_nonneg (d : ℕ) : 0 ≤ cursor.gain index d := by
  rcases h.gain_cases d with ⟨heq, -⟩ | ⟨-, hpos⟩
  · exact heq.ge
  · exact hpos.le

/-! ### Position -/

theorem doc_le_of_mem {e : ℕ × R} (he : e ∈ cursor.rest index) : cursor.doc ≤ e.1 := by
  rcases hrest : cursor.rest index with _ | ⟨first, es⟩
  · rw [hrest] at he
    cases he
  · rw [h.doc_of_cons hrest]
    have hsorted := h.sorted_rest
    rw [hrest] at he hsorted
    rcases List.mem_cons.mp he with rfl | he
    · exact le_rfl
    · exact ((List.pairwise_cons.mp hsorted).1 e he).le

theorem gain_of_lt (hd : d < cursor.doc) : cursor.gain index d = 0 :=
  gain_of_not_mem fun _ hr ↦ hd.not_ge (h.doc_le_of_mem hr)

theorem gain_of_terminated (hend : cursor.isTerminated = true) : cursor.gain index d = 0 := by
  refine gain_of_not_mem fun r hr ↦ ?_
  rw [h.isTerminated_iff.mp hend] at hr
  cases hr

theorem exists_cons (hlive : cursor.isTerminated = false) :
    ∃ e es, cursor.rest index = e :: es := by
  refine List.exists_cons_of_ne_nil fun hnil ↦ ?_
  rw [h.isTerminated_iff.mpr hnil] at hlive
  cases hlive

theorem doc_lt (hlive : cursor.isTerminated = false) : cursor.doc < terminatedDoc := by
  obtain ⟨e, es, hrest⟩ := h.exists_cons hlive
  rw [h.doc_of_cons hrest]
  exact h.below_of_mem (by rw [hrest]; exact List.mem_cons_self)

theorem gain_doc (hlive : cursor.isTerminated = false) :
    cursor.gain index cursor.doc = cursor.scoreCurrent index ∧
      0 < cursor.gain index cursor.doc := by
  obtain ⟨e, es, hrest⟩ := h.exists_cons hlive
  have he : e ∈ cursor.rest index := by rw [hrest]; exact List.mem_cons_self
  have hgain : cursor.gain index cursor.doc = e.2 := by
    rw [h.doc_of_cons hrest]
    exact h.gain_of_mem he
  rw [hgain, h.scoreCurrent_of_cons hrest]
  exact ⟨rfl, h.pos_of_mem he⟩

/-! ### Moving -/

/-- A cursor that has dropped the documents below `t`. -/
theorem gain_of_mem_iff {moved : TermCursor R} (hmoved : moved.Valid index)
    (hmem : ∀ e, e ∈ moved.rest index ↔ e ∈ cursor.rest index ∧ t ≤ e.1) (d : ℕ) :
    moved.gain index d = if d < t then 0 else cursor.gain index d := by
  split_ifs with hd
  · exact gain_of_not_mem fun r hr ↦ hd.not_ge ((hmem _).mp hr).2
  · rcases h.gain_cases d with ⟨heq, hnone⟩ | ⟨hin, -⟩
    · rw [heq]
      exact gain_of_not_mem fun r hr ↦ hnone r ((hmem _).mp hr).1
    · exact hmoved.gain_of_mem ((hmem _).mpr ⟨hin, not_lt.mp hd⟩)

theorem withPos (pos : ℕ) : Valid index { cursor with pos := pos } := { h with }

theorem advance : cursor.advance.Valid index := by
  rw [TermCursor.advance]
  split_ifs
  · exact h
  · exact h.withPos _

theorem rest_advance : cursor.advance.rest index = (cursor.rest index).tail := by
  rw [TermCursor.advance]
  split_ifs with hend
  · rw [h.isTerminated_iff.mp hend]
    rfl
  · show (cursor.entries index).drop (cursor.pos + 1) = _
    rw [rest, List.tail_drop]

theorem mem_rest_advance (e : ℕ × R) :
    e ∈ cursor.advance.rest index ↔ e ∈ cursor.rest index ∧ cursor.doc + 1 ≤ e.1 := by
  rw [h.rest_advance]
  rcases hrest : cursor.rest index with _ | ⟨first, es⟩
  · simp
  · have hsorted := h.sorted_rest
    rw [hrest] at hsorted
    rw [h.doc_of_cons hrest, List.tail_cons, List.mem_cons]
    constructor
    · exact fun he ↦ ⟨.inr he, (List.pairwise_cons.mp hsorted).1 e he⟩
    · rintro ⟨rfl | he, hlt⟩
      · omega
      · exact he

theorem gain_advance (d : ℕ) :
    cursor.advance.gain index d = if d < cursor.doc + 1 then 0 else cursor.gain index d :=
  h.gain_of_mem_iff h.advance h.mem_rest_advance d

theorem length_rest_advance (hlive : cursor.isTerminated = false) :
    (cursor.advance.rest index).length < (cursor.rest index).length := by
  obtain ⟨e, es, hrest⟩ := h.exists_cons hlive
  rw [h.rest_advance, hrest]
  exact Nat.lt_succ_self _

theorem seek (t : ℕ) : (cursor.seek t).Valid index := by
  rw [TermCursor.seek]
  split_ifs
  · exact h
  · exact h
  · exact h.withPos _

theorem rest_seek (t : ℕ) :
    (cursor.seek t).rest index = (cursor.rest index).dropWhile fun e ↦ decide (e.1 < t) := by
  rw [TermCursor.seek]
  split_ifs with hend hdoc
  · rw [h.isTerminated_iff.mp hend]
    rfl
  · obtain ⟨e, es, hrest⟩ := h.exists_cons (Bool.eq_false_iff.mpr hend)
    rw [h.doc_of_cons hrest] at hdoc
    rw [hrest, List.dropWhile_cons_of_neg (by simpa using hdoc)]
  · have hrel : ((cursor.postings.docIds.drop cursor.pos).takeWhile fun d ↦ decide (d < t)).length =
        ((cursor.rest index).takeWhile fun e ↦ decide (e.1 < t)).length := by
      rw [← h.map_fst_entries, ← List.map_drop, List.takeWhile_map, List.length_map]
      rfl
    show (cursor.entries index).drop (cursor.pos + _) = _
    rw [hrel, ← List.drop_drop, ← rest, drop_length_takeWhile]

theorem mem_rest_seek (t : ℕ) (e : ℕ × R) :
    e ∈ (cursor.seek t).rest index ↔ e ∈ cursor.rest index ∧ t ≤ e.1 := by
  rw [h.rest_seek, mem_dropWhile_lt h.sorted_rest]

theorem gain_seek (t d : ℕ) :
    (cursor.seek t).gain index d = if d < t then 0 else cursor.gain index d :=
  h.gain_of_mem_iff (h.seek t) (h.mem_rest_seek t) d

theorem length_rest_seek_le (t : ℕ) :
    ((cursor.seek t).rest index).length ≤ (cursor.rest index).length := by
  rw [h.rest_seek]
  exact List.length_dropWhile_le _ _

theorem length_rest_seek (hlive : cursor.isTerminated = false) {t : ℕ} (ht : cursor.doc < t) :
    ((cursor.seek t).rest index).length < (cursor.rest index).length := by
  obtain ⟨e, es, hrest⟩ := h.exists_cons hlive
  rw [h.doc_of_cons hrest] at ht
  rw [h.rest_seek, hrest, List.dropWhile_cons_of_pos (by simpa using ht)]
  exact Nat.lt_succ_of_le (List.length_dropWhile_le _ _)

/-! ### Bounds -/

/-- The posting at an index, and the block it is in. -/
theorem exists_block_of_mem {e : ℕ × R} (he : e ∈ cursor.rest index) :
    ∃ i block, cursor.pos ≤ i ∧ (cursor.entries index)[i]? = some e ∧
      cursor.blocks[i / cursor.blockSize]? = some block ∧ e.2 ≤ block.maxScoreContribution ∧
      e.1 ≤ block.maxDocId := by
  obtain ⟨j, hj⟩ := List.mem_iff_getElem?.mp he
  rw [rest, List.getElem?_drop] at hj
  obtain ⟨hlt, hget⟩ := List.getElem?_eq_some_iff.mp hj
  obtain ⟨block, hblock⟩ := h.blocks.exists_block h.blockSize hlt
  refine ⟨cursor.pos + j, block, Nat.le_add_right _ _, hj, hblock,
    h.blocks.bound _ e block hj hblock, ?_⟩
  obtain ⟨last, hlast, hmax⟩ := h.blocks.maxDocId _ block hblock
  rw [hmax]
  -- the block ends at this posting or behind it
  have hend : cursor.pos + j < (cursor.pos + j) / cursor.blockSize * cursor.blockSize +
      cursor.blockSize := by
    have hmod := Nat.mod_lt (cursor.pos + j) h.blockSize
    have hdiv := Nat.div_add_mod' (cursor.pos + j) cursor.blockSize
    omega
  obtain ⟨hlast', hget'⟩ := List.getElem?_eq_some_iff.mp hlast
  rcases Nat.lt_or_ge (cursor.pos + j) (min ((cursor.pos + j) / cursor.blockSize *
      cursor.blockSize + cursor.blockSize) (cursor.entries index).length - 1) with hbefore | hat
  · rw [← hget, ← hget']
    exact (List.pairwise_iff_getElem.mp h.sorted_entries _ _ hlt hlast' hbefore).le
  · have heq : min ((cursor.pos + j) / cursor.blockSize * cursor.blockSize + cursor.blockSize)
        (cursor.entries index).length - 1 = cursor.pos + j := by omega
    rw [heq, hj] at hlast
    rw [Option.some.inj hlast]

/-- **The bound of a suffix.** -/
theorem gain_le_remainingMaxScore (d : ℕ) : cursor.gain index d ≤ cursor.remainingMaxScore := by
  by_cases hend : cursor.isTerminated = true
  · rw [h.gain_of_terminated hend, remainingMaxScore, currentBlockIdx, if_pos hend]
    exact le_rfl
  · have hlive := Bool.eq_false_iff.mpr hend
    obtain ⟨e, es, hrest⟩ := h.exists_cons hlive
    have hin : cursor.pos < (cursor.entries index).length := by
      obtain ⟨hlt, -⟩ := List.getElem?_eq_some_iff.mp (getElem?_pos hrest)
      exact hlt
    obtain ⟨current, hcurrent⟩ := h.blocks.exists_block h.blockSize hin
    have hmax : cursor.remainingMaxScore = current.suffixMaxScore := by
      rw [remainingMaxScore, currentBlockIdx_eq hlive, Option.bind_some, hcurrent]
      rfl
    have hbound : ∀ e' ∈ cursor.rest index, e'.2 ≤ current.suffixMaxScore := by
      intro e' he'
      obtain ⟨i, block, hi, -, hblock, hle, -⟩ := h.exists_block_of_mem he'
      exact hle.trans (h.blocks.suffix _ _ current block hcurrent hblock (Nat.div_le_div_right hi))
    rw [hmax]
    rcases h.gain_cases d with ⟨hzero, -⟩ | ⟨hmem, -⟩
    · rw [hzero]
      exact (h.pos_of_mem (by rw [hrest]; exact List.mem_cons_self)).le.trans
        (hbound e (by rw [hrest]; exact List.mem_cons_self))
    · exact hbound _ hmem

/-- The block a shallow seek stops at, seen from a posting that is not before the target. -/
theorem shallowBlockInfo_of_mem {e : ℕ × R} (he : e ∈ cursor.rest index) {t : ℕ} (ht : t ≤ e.1) :
    ∃ info, cursor.shallowBlockInfo t = some info ∧
      info.lastDoc < terminatedDoc ∧ (e.1 ≤ info.lastDoc → e.2 ≤ info.maxScore) := by
  have hlive : cursor.isTerminated = false := by
    refine Bool.eq_false_iff.mpr fun hend ↦ ?_
    rw [h.isTerminated_iff.mp hend] at he
    cases he
  obtain ⟨i, block, hi, hget, hblock, hle, hmax⟩ := h.exists_block_of_mem he
  let current := cursor.pos / cursor.blockSize
  let rel := ((cursor.blocks.drop current).takeWhile fun b ↦ decide (b.maxDocId < t)).length
  have hcurrent : current ≤ i / cursor.blockSize := Nat.div_le_div_right hi
  have hdrop : (cursor.blocks.drop current)[i / cursor.blockSize - current]? = some block := by
    rw [List.getElem?_drop, Nat.add_sub_cancel' hcurrent, hblock]
  -- the block of the posting is not one of those that end before the target
  have hrel : rel ≤ i / cursor.blockSize - current := by
    refine Nat.not_lt.mp fun hlt ↦ ?_
    have hbefore := of_decide_eq_true
      (of_getElem?_takeWhile (p := fun b : BlockMaxBlock R ↦ decide (b.maxDocId < t)) hlt hdrop)
    omega
  have hstop : current + rel < cursor.blocks.length := by
    obtain ⟨hlt, -⟩ := List.getElem?_eq_some_iff.mp hblock
    omega
  obtain ⟨stop, hstop⟩ : ∃ stop, cursor.blocks[current + rel]? = some stop :=
    ⟨_, List.getElem?_eq_getElem hstop⟩
  have hinfo : cursor.shallowBlockInfo t = some ⟨stop.maxScoreContribution, stop.maxDocId⟩ := by
    rw [shallowBlockInfo, currentBlockIdx_eq hlive]
    show (cursor.blocks[current + rel]?).bind _ = _
    rw [hstop]
    rfl
  obtain ⟨last, hlast, hlastDoc⟩ := h.blocks.maxDocId _ stop hstop
  refine ⟨_, hinfo, ?_, fun hend ↦ ?_⟩
  · show stop.maxDocId < terminatedDoc
    rw [hlastDoc]
    apply h.below
    rw [← h.map_fst_entries]
    exact List.mem_map.mpr ⟨last, List.mem_of_getElem? hlast, rfl⟩
  · -- a posting up to the end of the block is in it
    have hend : e.1 ≤ stop.maxDocId := hend
    rw [hlastDoc] at hend
    obtain ⟨hlt, hget'⟩ := List.getElem?_eq_some_iff.mp hget
    obtain ⟨hltLast, hgetLast⟩ := List.getElem?_eq_some_iff.mp hlast
    have hindex : i ≤ min ((current + rel) * cursor.blockSize + cursor.blockSize)
        (cursor.entries index).length - 1 := by
      refine Nat.not_lt.mp fun hbehind ↦ ?_
      have habove := List.pairwise_iff_getElem.mp h.sorted_entries _ _ hltLast hlt hbehind
      rw [hget', hgetLast] at habove
      omega
    have hblockLe : i / cursor.blockSize ≤ current + rel := by
      have hpos := h.blockSize
      refine Nat.le_of_lt_succ ?_
      rw [Nat.div_lt_iff_lt_mul h.blockSize, Nat.succ_mul]
      omega
    have hsame : i / cursor.blockSize = current + rel := by omega
    rw [hsame, hstop] at hblock
    rw [Option.some.inj hblock]
    exact hle

theorem shallowBlockInfo_none {t : ℕ} (hnone : cursor.shallowBlockInfo t = none) (ht : t ≤ d) :
    cursor.gain index d = 0 := by
  rcases h.gain_cases d with ⟨hzero, -⟩ | ⟨hmem, -⟩
  · exact hzero
  · obtain ⟨info, hinfo, -⟩ := h.shallowBlockInfo_of_mem hmem ht
    rw [hnone] at hinfo
    cases hinfo

theorem maxScore_nonneg {t : ℕ} {info : ShallowBlockInfo R}
    (hinfo : cursor.shallowBlockInfo t = some info) : 0 ≤ info.maxScore := by
  obtain ⟨idx, -, hinfo⟩ := Option.bind_eq_some_iff.mp hinfo
  obtain ⟨block, hblock, hinfo⟩ := Option.bind_eq_some_iff.mp hinfo
  obtain rfl := Option.some.inj hinfo
  exact h.blocks.nonneg block (List.mem_of_getElem? hblock)

/-- **The bound of a block**, for a document from the target on, up to the end of the block. -/
theorem gain_le_shallow {t : ℕ} (ht : t ≤ d)
    (hd : ∀ info, cursor.shallowBlockInfo t = some info → d ≤ info.lastDoc) :
    cursor.gain index d ≤
      ((cursor.shallowBlockInfo t).map ShallowBlockInfo.maxScore).getD 0 := by
  rcases hinfo : cursor.shallowBlockInfo t with _ | info
  · exact (h.shallowBlockInfo_none hinfo ht).le
  · rcases h.gain_cases d with ⟨hzero, -⟩ | ⟨hmem, -⟩
    · rw [hzero]
      exact h.maxScore_nonneg hinfo
    · obtain ⟨info', hinfo', -, hle⟩ := h.shallowBlockInfo_of_mem hmem ht
      rw [hinfo] at hinfo'
      obtain rfl := Option.some.inj hinfo'
      exact hle (hd info hinfo)

end Valid

end TermCursor

end Khive.Bm25
