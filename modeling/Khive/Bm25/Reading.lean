import Khive.Bm25.Mutation

/-!
# Reading a snapshot back

The fields of a snapshot are those of the index it was taken of. What is rebuilt is once more what
the slots determine: the vectors from the lengths, and the terms of a document from the posting lists
that hold it, in whatever order the terms come.
-/

namespace Khive.Bm25

open Bm25Index

variable {F : Type} {asF32 : ℕ → F} {index : Bm25Index F} {slots : Slots} {i : ℕ} {d : String}
  {tokens : List String} {term : String} {hash : Hashing} {freq : Frequency}

/-! ## The vectors -/

theorem le_foldl_max {l : List ℕ} {b n : ℕ} (h : n ∈ l ∨ n ≤ b) : n ≤ l.foldl max b := by
  induction l generalizing b with
  | nil => exact h.resolve_left List.not_mem_nil
  | cons m l ih =>
    apply ih
    rcases h with h | h
    · rcases List.mem_cons.mp h with rfl | h
      · exact .inr (le_max_right _ _)
      · exact .inl h
    · exact .inr (h.trans (le_max_left _ _))

/-- Each entry is written to its place, and the keys differ. -/
theorem getElem?_foldl_set {α β : Type} (f : β → α) {entries : List (ℕ × β)}
    (hnodup : (entries.map Prod.fst).Nodup) {v : List α} {n : ℕ} :
    (∀ b, (n, b) ∈ entries → n < v.length →
      (entries.foldl (fun v entry ↦ v.set entry.1 (f entry.2)) v)[n]? = some (f b)) ∧
    (n ∉ entries.map Prod.fst →
      (entries.foldl (fun v entry ↦ v.set entry.1 (f entry.2)) v)[n]? = v[n]?) := by
  induction entries generalizing v with
  | nil => exact ⟨by simp, fun _ ↦ rfl⟩
  | cons entry entries ih =>
    obtain ⟨hentry, hrest⟩ := List.nodup_cons.mp hnodup
    obtain ⟨hmem, hother⟩ := ih (v := v.set entry.1 (f entry.2)) hrest
    refine ⟨fun b hb hlt ↦ ?_, fun hn ↦ ?_⟩
    · rw [List.foldl_cons]
      rcases List.mem_cons.mp hb with rfl | hb
      · rw [hother hentry, List.getElem?_set_self hlt]
      · exact hmem b hb (by rw [List.length_set]; exact hlt)
    · obtain ⟨hne, hn⟩ : n ≠ entry.1 ∧ n ∉ entries.map Prod.fst := by simpa using hn
      rw [List.foldl_cons, hother hn, List.getElem?_set_ne hne.symm]

/-! ## The terms of each document -/

theorem get_pushTerm {docLengths : OrderedMap ℕ ℕ} {forward : OrderedMap ℕ (List String)}
    {entry : String × PostingList} (hnodup : entry.2.docIds.Nodup) (i : ℕ) :
    (pushTerm docLengths forward entry).get i =
      if i ∈ entry.2.docIds ∧ (docLengths.get i).isSome then
        some ((forward.get i).getD [] ++ [entry.1])
      else forward.get i := by
  let push (docId : ℕ) (held : Option (List String)) : Option (List String) :=
    if (docLengths.get docId).isSome then some (held.getD [] ++ [entry.1]) else held
  have hstep : ∀ (m : OrderedMap ℕ (List String)) docId k,
      (if (docLengths.get docId).isSome then
        m.insert docId ((m.get docId).getD [] ++ [entry.1]) else m).get k =
      if k = docId then push docId (m.get k) else m.get k := by
    intro m docId k
    by_cases hlive : (docLengths.get docId).isSome
    · rw [if_pos hlive, OrderedMap.get_insert]
      split_ifs with hk
      · rw [hk]
        exact (if_pos hlive).symm
      · rfl
    · rw [if_neg hlive]
      split_ifs
      · exact (if_neg hlive).symm
      · rfl
  obtain ⟨hmem, hother⟩ := OrderedMap.get_foldl (fun docId : ℕ ↦ docId) push hstep
    (by simpa using hnodup : (entry.2.docIds.map fun docId ↦ docId).Nodup) forward
  by_cases hi : i ∈ entry.2.docIds
  · rw [pushTerm, hmem i hi]
    by_cases hlive : (docLengths.get i).isSome
    · rw [if_pos ⟨hi, hlive⟩]
      exact if_pos hlive
    · rw [if_neg fun h ↦ hlive h.2]
      exact if_neg hlive
  · rw [pushTerm, hother i (by simpa using hi), if_neg fun h ↦ hi h.1]

/-- The terms whose posting lists hold a document, in the order they come. -/
def termsOf (entries : List (String × PostingList)) (i : ℕ) : List String :=
  (entries.filter fun entry ↦ decide (i ∈ entry.2.docIds)).map Prod.fst

/-- A live document is given its terms, and no other document any. -/
theorem get_foldl_pushTerm {docLengths : OrderedMap ℕ ℕ} {entries : List (String × PostingList)}
    (hnodup : ∀ entry ∈ entries, entry.2.docIds.Nodup) (i : ℕ)
    (forward : OrderedMap ℕ (List String)) :
    (entries.foldl (pushTerm docLengths) forward).get i =
      if (docLengths.get i).isSome ∧ termsOf entries i ≠ [] then
        some ((forward.get i).getD [] ++ termsOf entries i)
      else forward.get i := by
  induction entries generalizing forward with
  | nil => rw [if_neg fun h ↦ h.2 rfl]; rfl
  | cons entry entries ih =>
    rw [List.foldl_cons, ih (fun e he ↦ hnodup e (List.mem_cons_of_mem _ he)),
      get_pushTerm (hnodup entry List.mem_cons_self)]
    by_cases hlive : (docLengths.get i).isSome
    · by_cases hi : i ∈ entry.2.docIds
      · have hterms : termsOf (entry :: entries) i = entry.1 :: termsOf entries i := by
          rw [termsOf, List.filter_cons_of_pos (by simpa using hi)]
          rfl
        rw [hterms]
        by_cases hrest : termsOf entries i = []
        · simp [hlive, hi, hrest]
        · simp [hlive, hi, hrest]
      · have hterms : termsOf (entry :: entries) i = termsOf entries i := by
          rw [termsOf, List.filter_cons_of_neg (by simpa using hi)]
          rfl
        rw [hterms]
        simp [hi]
    · simp [hlive]

/-! ## The checks of a snapshot -/

theorem mem_docIds_of_get {freq : Frequency} (h : Describes asF32 freq index slots)
    {postings : PostingList} (hget : index.invertedIndex.get term = some postings) :
    postings = .ofEntries (slots.postings freq term).entries ∧
      ∀ i, i ∈ postings.docIds ↔ ∃ d tokens, slots.doc? i = some (d, tokens) ∧ term ∈ tokens := by
  rw [h.inverted] at hget
  split_ifs at hget
  obtain rfl := Option.some.inj hget
  refine ⟨rfl, fun i ↦ ?_⟩
  have hmem : i ∈ (PostingList.ofEntries (slots.postings freq term).entries).docIds ↔
      ((slots.postings freq term).get i).isSome := OrderedMap.mem_keys
  rw [hmem, Slots.get_postings]
  rcases slots.doc? i with _ | ⟨d, tokens⟩
  · simp [Slots.posting]
  · by_cases hterm : term ∈ tokens <;> simp [Slots.posting, hterm]

/-- A live document has a posting for each of its tokens. -/
theorem exists_posting {freq : Frequency} (h : Describes asF32 freq index slots)
    (hdoc : slots.doc? i = some (d, tokens)) (hterm : term ∈ tokens) :
    ∃ postings, index.invertedIndex.get term = some postings ∧ i ∈ postings.docIds := by
  have hget : (slots.postings freq term).get i = some (freq tokens term) := by
    rw [Slots.get_postings, hdoc]
    exact if_pos hterm
  have hmem := OrderedMap.get_eq_some.mp hget
  refine ⟨.ofEntries (slots.postings freq term).entries, ?_, List.mem_map.mpr ⟨_, hmem, rfl⟩⟩
  rw [h.inverted, if_neg]
  rw [List.isEmpty_iff]
  intro hnil
  rw [hnil] at hmem
  cases hmem

theorem Describes.docLengths_eq {freq : Frequency} (h : Describes asF32 freq index slots) :
    index.docLengths = slots.tabulate (Option.map fun doc ↦ doc.2.length) := by
  apply OrderedMap.ext_get
  intro i
  rw [h.lengths, Slots.get_tabulate rfl]

theorem Describes.checkPostingList {freq : Frequency} (h : Describes asF32 freq index slots)
    {postings : PostingList} (hget : index.invertedIndex.get term = some postings) :
    Bm25IndexWire.checkPostingList postings = .ok () := by
  obtain ⟨heq, hmem⟩ := mem_docIds_of_get h hget
  rw [Bm25IndexWire.checkPostingList, seq_eq_ok, seq_eq_ok, guardOr_eq_ok, guardOr_eq_ok,
    guardOr_eq_ok, decide_eq_true_iff, decide_eq_true_iff]
  refine ⟨?_, ?_, ?_⟩
  · rw [heq, PostingList.ofEntries, List.length_map, List.length_map]
    exact beq_self_eq_true _
  · rw [heq]
    exact (List.pairwise_map.mpr (slots.postings freq term).sorted).isChain
  · rw [hmem]
    rintro ⟨d, tokens, hdoc, -⟩
    have hlt := Slots.lt_length (Option.isSome_iff_exists.mpr ⟨_, hdoc⟩)
    have hspace := h.space
    omega

theorem Describes.inRange {freq : Frequency} (h : Describes asF32 freq index slots)
    (hlive : (slots.doc? i).isSome) : index.serialize.inRange i := by
  have hlt := Slots.lt_length hlive
  have hspace := h.space
  have hnext : i < index.nextInternalId := by
    rw [h.next]
    exact hlt
  rw [Bm25IndexWire.inRange, Bool.and_eq_true, bne_iff_ne, decide_eq_true_iff]
  exact ⟨by omega, hnext⟩

theorem Describes.checkLength {freq : Frequency} (h : Describes asF32 freq index slots)
    {total len : ℕ} (hget : index.docLengths.get i = some len) (htotal : total + len ≤ maxUsize) :
    index.serialize.checkLength total (i, len) = .ok (total + len) := by
  rw [h.lengths] at hget
  obtain ⟨⟨d, tokens⟩, hdoc, -⟩ := Option.map_eq_some_iff.mp hget
  have hid : index.serialize.idToInternal.get d = some i := (h.ids d i).mpr ⟨tokens, hdoc⟩
  have hname : index.serialize.internalToId[i]? = some d := h.names i d tokens hdoc
  simp only [Bm25IndexWire.checkLength]
  rw [seq_eq_ok, bind_eq_ok]
  refine ⟨guardOr_eq_ok.mpr (h.inRange (by rw [hdoc]; rfl)), d, okOr_eq_ok.mpr hname, ?_⟩
  rw [seq_eq_ok, seq_eq_ok]
  exact ⟨guardOr_eq_ok.mpr (beq_iff_eq.mpr hid), guardOr_eq_ok.mpr (decide_eq_true htotal), rfl⟩

theorem Describes.checkLengths {freq : Frequency} (h : Describes asF32 freq index slots)
    {entries : List (ℕ × ℕ)} (hentries : ∀ e ∈ entries, index.docLengths.get e.1 = some e.2)
    {total : ℕ} (htotal : total + (entries.map Prod.snd).sum ≤ maxUsize) :
    entries.foldlM index.serialize.checkLength total =
      .ok (total + (entries.map Prod.snd).sum) := by
  induction entries generalizing total with
  | nil => rfl
  | cons entry entries ih =>
    rw [List.map_cons, List.sum_cons] at htotal ⊢
    rw [List.foldlM_cons, bind_eq_ok]
    refine ⟨total + entry.2, ?_, ?_⟩
    · exact h.checkLength (hentries entry List.mem_cons_self) (by omega)
    · rw [ih (fun e he ↦ hentries e (List.mem_cons_of_mem _ he)) (by omega), Nat.add_assoc]

/-- **A snapshot of an index that describes its slots is accepted**, while its total is exact. -/
theorem Describes.validate {freq : Frequency} (h : Describes asF32 freq index slots)
    (htotal : index.totalTokens = slots.total) (hfits : slots.total ≤ maxUsize) :
    index.serialize.validate = .ok () := by
  have hsum : (index.docLengths.entries.map Prod.snd).sum = slots.total := by
    rw [h.docLengths_eq, Slots.sum_lengths]
  have hlive : ∀ i, (slots.doc? i).isSome →
      (index.serialize.inRange i && (index.serialize.docLengths.get i).isSome) = true := by
    intro i hi
    rw [Bool.and_eq_true]
    refine ⟨h.inRange hi, ?_⟩
    show (index.docLengths.get i).isSome = true
    rw [h.lengths, Option.isSome_map]
    exact hi
  rw [Bm25IndexWire.validate, seq_eq_ok, seq_eq_ok, seq_eq_ok, bind_eq_ok]
  refine ⟨?_, ?_, ?_, slots.total, ?_, ?_⟩
  · rw [forM_eq_ok]
    exact fun entry he ↦ h.checkPostingList (OrderedMap.get_eq_some.mpr he)
  · exact guardOr_eq_ok.mpr (decide_eq_true h.blockSize)
  · exact mapError_eq_ok.mpr h.config
  · have hfold : index.docLengths.entries.foldlM index.serialize.checkLength 0 = .ok (0 + _) :=
      h.checkLengths (fun e he ↦ OrderedMap.get_eq_some.mpr he) (by rw [hsum]; omega)
    rw [hsum, Nat.zero_add] at hfold
    exact hfold
  · rw [seq_eq_ok, seq_eq_ok, forM_eq_ok, forM_eq_ok]
    refine ⟨?_, ?_, guardOr_eq_ok.mpr (beq_iff_eq.mpr htotal)⟩
    · rintro ⟨d, i⟩ he
      obtain ⟨tokens, hdoc⟩ := (h.ids d i).mp (OrderedMap.get_eq_some.mpr he)
      have hname : index.serialize.internalToId[i]? = some d := h.names i d tokens hdoc
      simp only [Bm25IndexWire.checkId]
      rw [seq_eq_ok, bind_eq_ok]
      exact ⟨guardOr_eq_ok.mpr (hlive i (by rw [hdoc]; rfl)), d, okOr_eq_ok.mpr hname,
        guardOr_eq_ok.mpr (beq_self_eq_true d)⟩
    · rintro ⟨t, postings⟩ he
      obtain ⟨-, hmem⟩ := mem_docIds_of_get h (OrderedMap.get_eq_some.mpr he)
      rw [Bm25IndexWire.checkPostings, forM_eq_ok]
      intro i hi
      obtain ⟨d, tokens, hdoc, -⟩ := (hmem i).mp hi
      exact guardOr_eq_ok.mpr (hlive i (by rw [hdoc]; rfl))

/-! ## What is rebuilt -/

theorem ensureDocLengthsVec_eq (asF32 : ℕ → F) (index : Bm25Index F) :
    ∃ vec f32, index.ensureDocLengthsVec asF32 =
      { index with docLengthsVec := vec, docLengthsF32 := f32 } := by
  rw [ensureDocLengthsVec]
  split_ifs
  · exact ⟨index.docLengthsVec, index.docLengthsF32, rfl⟩
  · exact ⟨_, _, rfl⟩

/-- Each live document has its length in both vectors once they are filled. -/
theorem lengthsVec_ensureDocLengthsVec (asF32 : ℕ → F) (bare : Bm25Index F)
    (hlengths : ∀ i, bare.docLengths.get i = (slots.doc? i).map fun doc ↦ doc.2.length)
    (hvec : bare.docLengthsVec = []) (hdoc : slots.doc? i = some (d, tokens)) :
    (bare.ensureDocLengthsVec asF32).docLengthsVec[i]? = some tokens.length ∧
      (bare.ensureDocLengthsVec asF32).docLengthsF32[i]? = some (asF32 tokens.length) := by
  have hmem : (i, tokens.length) ∈ bare.docLengths.entries := by
    rw [← OrderedMap.get_eq_some, hlengths, hdoc]
    rfl
  have hlt : i < (bare.docLengths.entries.map Prod.fst).foldl max 0 + 1 :=
    Nat.lt_succ_of_le (le_foldl_max (.inl (List.mem_map.mpr ⟨_, hmem, rfl⟩)))
  rw [ensureDocLengthsVec, if_neg]
  · constructor
    · exact (getElem?_foldl_set id bare.docLengths.nodup_keys).1 _ hmem
        (by rw [length_resize]; exact hlt)
    · exact (getElem?_foldl_set asF32 bare.docLengths.nodup_keys).1 _ hmem
        (by rw [length_resize]; exact hlt)
  · simp [hvec, List.ne_nil_of_mem hmem]

theorem ensureForwardIndexComplete_eq (hash : Hashing) (index : Bm25Index F) :
    ∃ forward, index.ensureForwardIndexComplete hash = { index with forwardIndex := forward } := by
  rw [ensureForwardIndexComplete]
  split_ifs
  · exact ⟨index.forwardIndex, rfl⟩
  · exact ⟨index.forwardIndex, rfl⟩
  · exact ⟨_, rfl⟩

theorem mem_termsOf {entries : List (String × PostingList)} :
    term ∈ termsOf entries i ↔ ∃ postings, (term, postings) ∈ entries ∧ i ∈ postings.docIds := by
  simp [termsOf]

/-- The terms that are pushed for a document are its own, each once. -/
theorem Describes.termsOf_order {freq : Frequency} (h : Describes asF32 freq index slots)
    (hash : Hashing) (i : ℕ) :
    (termsOf (hash.order index.invertedIndex.entries) i).Nodup ∧
      ∀ t, t ∈ termsOf (hash.order index.invertedIndex.entries) i ↔
        ∃ d tokens, slots.doc? i = some (d, tokens) ∧ t ∈ tokens := by
  have hperm := hash.perm index.invertedIndex.entries
  constructor
  · refine List.Nodup.sublist (List.Sublist.map Prod.fst List.filter_sublist) ?_
    exact (hperm.map Prod.fst).nodup_iff.mpr index.invertedIndex.nodup_keys
  · intro t
    rw [mem_termsOf]
    constructor
    · rintro ⟨postings, hentry, hi⟩
      have hget := OrderedMap.get_eq_some.mpr (hperm.mem_iff.mp hentry)
      exact ((mem_docIds_of_get h hget).2 i).mp hi
    · rintro ⟨d, tokens, hdoc, hterm⟩
      obtain ⟨postings, hget, hi⟩ := exists_posting h hdoc hterm
      exact ⟨postings, hperm.mem_iff.mpr (OrderedMap.get_eq_some.mp hget), hi⟩

/-- The forward index that is rebuilt over an empty one. -/
theorem Describes.get_rebuilt {freq : Frequency} (h : Describes asF32 freq index slots) (i : ℕ) :
    ((hash.order index.invertedIndex.entries).foldl (pushTerm index.docLengths) .empty).get i =
      if (slots.doc? i).isSome then
        some (termsOf (hash.order index.invertedIndex.entries) i)
      else none := by
  have hnodup : ∀ entry ∈ hash.order index.invertedIndex.entries, entry.2.docIds.Nodup := by
    rintro ⟨t, postings⟩ he
    have he := (hash.perm index.invertedIndex.entries).mem_iff.mp he
    obtain ⟨rfl, -⟩ := mem_docIds_of_get h (OrderedMap.get_eq_some.mpr he)
    exact (slots.postings freq t).nodup_keys
  rw [get_foldl_pushTerm hnodup, h.lengths, Option.isSome_map]
  by_cases hlive : (slots.doc? i).isSome
  · obtain ⟨⟨d, tokens⟩, hdoc⟩ := Option.isSome_iff_exists.mp hlive
    obtain ⟨t, ht⟩ := List.exists_mem_of_ne_nil _ (h.nonempty i d tokens hdoc)
    have hmem := (h.termsOf_order hash i).2 t
    have hne := List.ne_nil_of_mem (hmem.mpr ⟨d, tokens, hdoc, ht⟩)
    rw [if_pos ⟨hlive, hne⟩, if_pos hlive]
    rfl
  · rw [if_neg fun hboth ↦ hlive hboth.1, if_neg hlive]
    rfl

/-- What completing an empty forward index leaves. -/
theorem Describes.get_completed {freq : Frequency} (h : Describes asF32 freq index slots)
    (hash : Hashing) {bare : Bm25Index F} (hinverted : bare.invertedIndex = index.invertedIndex)
    (hlengths : bare.docLengths = index.docLengths) (hforward : bare.forwardIndex = .empty)
    (i : ℕ) :
    (bare.ensureForwardIndexComplete hash).forwardIndex.get i =
      if (slots.doc? i).isSome then
        some (termsOf (hash.order index.invertedIndex.entries) i)
      else none := by
  -- where nothing is rebuilt, no document is live
  have hdead : index.docLengths.entries = [] ∨ index.invertedIndex.entries = [] →
      ¬(slots.doc? i).isSome := by
    rintro hnil hlive
    obtain ⟨⟨d, tokens⟩, hdoc⟩ := Option.isSome_iff_exists.mp hlive
    rcases hnil with hnil | hnil
    · have hget := OrderedMap.entries_eq_nil.mp hnil i
      rw [h.lengths, hdoc] at hget
      cases hget
    · obtain ⟨t, ht⟩ := List.exists_mem_of_ne_nil _ (h.nonempty i d tokens hdoc)
      obtain ⟨postings, hget, -⟩ := exists_posting h hdoc ht
      rw [OrderedMap.entries_eq_nil.mp hnil t] at hget
      cases hget
  rw [ensureForwardIndexComplete, hinverted, hlengths, hforward]
  split_ifs with hempty hlive hcomplete hlive hlive
  · exact absurd hlive (hdead (.inr (List.isEmpty_iff.mp hempty)))
  · rw [hforward]
    rfl
  · exact absurd hlive (hdead (.inl (List.length_eq_zero_iff.mp hcomplete.1.symm)))
  · rw [hforward]
    rfl
  · rw [rebuildForwardIndex, hinverted, hlengths]
    exact (h.get_rebuilt i).trans (if_pos hlive)
  · rw [rebuildForwardIndex, hinverted, hlengths]
    exact (h.get_rebuilt i).trans (if_neg hlive)

/-- The index of a snapshot with everything rebuilt. -/
def restored (asF32 : ℕ → F) (hash : Hashing) (index : Bm25Index F) (defaultTokenizer : Tokenizer) :
    Bm25Index F :=
  ((index.serialize.bare defaultTokenizer).ensureDocLengthsVec asF32).ensureForwardIndexComplete hash

/-- **Reading a snapshot back keeps the description.** -/
theorem Describes.restored {freq : Frequency} (h : Describes asF32 freq index slots)
    (hash : Hashing) (defaultTokenizer : Tokenizer) :
    Describes asF32 freq (restored asF32 hash index defaultTokenizer) slots ∧
      (Bm25.restored asF32 hash index defaultTokenizer).totalTokens = index.totalTokens ∧
      (Bm25.restored asF32 hash index defaultTokenizer).tokenizer = defaultTokenizer := by
  let bare : Bm25Index F := index.serialize.bare defaultTokenizer
  obtain ⟨vec, f32, hvec⟩ := ensureDocLengthsVec_eq asF32 bare
  obtain ⟨forward, hforward⟩ := ensureForwardIndexComplete_eq hash
    (bare.ensureDocLengthsVec asF32)
  -- the forward index is not stored, and is filled from the inverted one
  have hget : ∀ i, forward.get i = if (slots.doc? i).isSome then
      some (termsOf (hash.order index.invertedIndex.entries) i) else none := by
    intro i
    have hcompleted : ((bare.ensureDocLengthsVec asF32).ensureForwardIndexComplete
        hash).forwardIndex.get i = _ :=
      h.get_completed hash (by rw [hvec]; rfl) (by rw [hvec]; rfl) (by rw [hvec]; rfl) i
    rw [hforward] at hcompleted
    exact hcompleted
  show Describes asF32 freq ((bare.ensureDocLengthsVec asF32).ensureForwardIndexComplete hash) slots ∧
    ((bare.ensureDocLengthsVec asF32).ensureForwardIndexComplete hash).totalTokens = _ ∧
    ((bare.ensureDocLengthsVec asF32).ensureForwardIndexComplete hash).tokenizer = _
  refine ⟨?_, ?_, ?_⟩
  · have hfilled : ∀ i d tokens, slots.doc? i = some (d, tokens) →
        vec[i]? = some tokens.length ∧ f32[i]? = some (asF32 tokens.length) := by
      intro i d tokens hdoc
      have hlengths := lengthsVec_ensureDocLengthsVec asF32 bare h.lengths rfl hdoc
      rw [hvec] at hlengths
      exact hlengths
    rw [hforward, hvec]
    refine
      { next := h.next
        space := h.space
        distinct := h.distinct
        nonempty := h.nonempty
        ids := h.ids
        names_length := h.names_length
        names := h.names
        lengths := h.lengths
        lengthsVec := hfilled
        forward := fun i ↦ ?_
        terms := fun i d tokens terms hdoc hterms ↦ ?_
        inverted := h.inverted
        blockSize := h.blockSize
        config := h.config }
    · show (forward.get i).isSome = _
      rw [hget]
      split_ifs with hlive
      · exact hlive.symm
      · exact (Bool.not_eq_true _ ▸ hlive).symm
    · have hterms : forward.get i = some terms := hterms
      rw [hget, if_pos (by rw [hdoc]; rfl)] at hterms
      obtain rfl := Option.some.inj hterms
      obtain ⟨hnodup, hmem⟩ := h.termsOf_order hash i
      refine ⟨hnodup, fun t ↦ (hmem t).trans ?_⟩
      simp [hdoc]
  · rw [hforward, hvec]
    rfl
  · rw [hforward, hvec]
    rfl

end Khive.Bm25
