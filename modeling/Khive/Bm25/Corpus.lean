import Khive.Bm25.Reading

/-!
# The index over a run

A `Corpus` is what a caller may count on after a sequence of steps: under each identifier the tokens
of its last indexing, and whether the lengths have added up within the range of a `usize`. `Tracks`
relates an index to it, with the slots in between.

Indexing a document again removes it first and then asks for a number, so there is one step that
fails with the document gone: the numbers are used up and the document is held. Counting wraps
around at `2 ^ 32`. `Admissible` leaves these two out, and in a run of the steps it admits the index
describes the corpus throughout.
-/

namespace Khive.Bm25

open Attempt Bm25Index

/-- The documents by identifier, each with the tokens of its last indexing. -/
structure Corpus where
  tokenizer : Tokenizer
  docs : OrderedMap String (List String)
  /-- Whether the total has been within range since the last time the index was empty. -/
  fits : Bool

namespace Corpus

def empty (tokenizer : Tokenizer) : Corpus := ⟨tokenizer, .empty, true⟩

def total (corpus : Corpus) : ℕ := (corpus.docs.values.map List.length).sum

def index (corpus : Corpus) (docId : String) (tokens : List String) : Corpus :=
  if tokens = [] then corpus
  else
    let indexed := { corpus with docs := corpus.docs.insert docId tokens }
    { indexed with fits := corpus.fits && decide (indexed.total ≤ maxUsize) }

/-- A step that has been accepted. -/
def step (corpus : Corpus) : Request → Corpus
  | .index docId text _ => corpus.index docId (corpus.tokenizer text)
  | .remove docId _ => { corpus with docs := corpus.docs.erase docId }
  | .clear => empty corpus.tokenizer
  | .roundtrip defaultTokenizer _ => { corpus with tokenizer := defaultTokenizer }
  | .setTokenizer tokenizer => { corpus with tokenizer := tokenizer }
  | .setMemoryBudget _ => corpus

end Corpus

def Request.isClear : Request → Bool
  | .clear => true
  | _ => false

variable {F : Type} (asF32 : ℕ → F)

/-- Take a step, and count it where it is accepted. -/
def track (state : Bm25Index F × Corpus) (request : Request) : Bm25Index F × Corpus :=
  match request.perform asF32 state.1 with
  | (.ok (), index) => (index, state.2.step request)
  | (.error _, index) => (index, state.2)

theorem track_of_ok {index : Bm25Index F} {corpus : Corpus} {request : Request}
    {after : Bm25Index F} (h : request.perform asF32 index = (.ok (), after)) :
    track asF32 (index, corpus) request = (after, corpus.step request) := by
  rw [track, h]

def tracked (config : Bm25Config) (tokenizer : Tokenizer) (steps : List Request) :
    Bm25Index F × Corpus :=
  steps.foldl (track asF32) (Bm25Index.new config tokenizer, .empty tokenizer)

/-- A held document is not indexed again once the numbers are used up, and no token occurs so often
that its count wraps around to another frequency. -/
def Admissible (index : Bm25Index F) : Request → Prop
  | .index docId text _ => index.tokenizer text ≠ [] →
    (index.containsDocument docId = true → index.nextInternalId + 1 < 2 ^ 32) ∧
      ∀ term, wrappedFreq (index.tokenizer text) term = clampedFreq (index.tokenizer text) term
  | _ => True

variable {asF32} {index : Bm25Index F} {corpus : Corpus} {slots slots' : Slots} {i : ℕ} {d : String}
  {tokens : List String} {hash : Hashing} {freq : Frequency}

/-! ## Slots over time -/

/-- No slot is filled again. -/
structure Slots.Extends (slots slots' : Slots) : Prop where
  length : slots.length ≤ slots'.length
  kept : ∀ i < slots.length, ∀ doc, slots'.doc? i = some doc → slots.doc? i = some doc

theorem Slots.Extends.refl (slots : Slots) : slots.Extends slots := ⟨le_rfl, fun _ _ _ h ↦ h⟩

theorem Slots.Extends.trans {slots'' : Slots} (h : slots.Extends slots')
    (h' : slots'.Extends slots'') : slots.Extends slots'' :=
  ⟨h.length.trans h'.length, fun i hi doc hdoc ↦
    h.kept i hi doc (h'.kept i (hi.trans_le h.length) doc hdoc)⟩

theorem Slots.extends_kill : slots.Extends (slots.kill i) := by
  refine ⟨by rw [kill, List.length_set], fun j _ doc hdoc ↦ ?_⟩
  rw [doc?_kill] at hdoc
  split_ifs at hdoc
  exact hdoc

theorem Slots.extends_append (doc : String × List String) :
    slots.Extends (slots ++ [some doc]) := by
  refine ⟨by rw [List.length_append]; omega, fun j hj doc' hdoc ↦ ?_⟩
  rw [doc?_append, if_neg hj.ne] at hdoc
  exact hdoc

/-! ## The corpus of some slots -/

/-- The live slots are the entries of the corpus. -/
theorem total_eq_of_docs
    (hdocs : ∀ d tokens, corpus.docs.get d = some tokens ↔ ∃ i, slots.doc? i = some (d, tokens))
    (hdistinct : ∀ i j d tokens tokens', slots.doc? i = some (d, tokens) →
      slots.doc? j = some (d, tokens') → i = j) :
    corpus.total = slots.total := by
  have hlive : slots.total = ((slots.filterMap id).map fun doc ↦ doc.2.length).sum := by
    clear hdocs hdistinct
    induction slots with
    | nil => rfl
    | cons slot slots ih =>
      rcases slot with _ | doc
      · simpa [Slots.total] using ih
      · simpa [Slots.total] using ih
  have hperm : corpus.docs.entries.Perm (slots.filterMap id) := by
    refine (List.perm_ext_iff_of_nodup corpus.docs.nodup_keys.of_map ?_).mpr ?_
    · rw [List.Nodup, List.pairwise_filterMap, List.pairwise_iff_getElem]
      rintro j k hj hk hjk ⟨d, ts⟩ hdoc ⟨d', ts'⟩ hdoc' heq
      obtain ⟨rfl, rfl⟩ := Prod.mk.inj heq
      have hj' := Slots.doc?_eq_some.mpr (List.getElem?_eq_some_iff.mpr ⟨hj, hdoc⟩)
      have hk' := Slots.doc?_eq_some.mpr (List.getElem?_eq_some_iff.mpr ⟨hk, hdoc'⟩)
      exact hjk.ne (hdistinct j k d ts ts hj' hk')
    · rintro ⟨d, ts⟩
      rw [← OrderedMap.get_eq_some, hdocs, List.mem_filterMap]
      constructor
      · rintro ⟨i, hdoc⟩
        exact ⟨_, List.mem_of_getElem? (Slots.doc?_eq_some.mp hdoc), rfl⟩
      · rintro ⟨slot, hslot, heq⟩
        obtain rfl : slot = some (d, ts) := heq
        obtain ⟨i, hi⟩ := List.mem_iff_getElem?.mp hslot
        exact ⟨i, Slots.doc?_eq_some.mpr hi⟩
  rw [hlive, Corpus.total, OrderedMap.values, List.map_map]
  exact (hperm.map _).sum_eq

/-- An index, the corpus counted for it, and the slots in between. -/
structure Tracks (asF32 : ℕ → F) (index : Bm25Index F) (corpus : Corpus) (slots : Slots) :
    Prop where
  describes : Describes asF32 wrappedFreq index slots
  docs : ∀ d tokens, corpus.docs.get d = some tokens ↔ ∃ i, slots.doc? i = some (d, tokens)
  tokenizer : corpus.tokenizer = index.tokenizer
  total : corpus.fits = true → index.totalTokens = slots.total ∧ slots.total ≤ maxUsize
  freq : ∀ i d tokens, slots.doc? i = some (d, tokens) →
    ∀ term, wrappedFreq tokens term = clampedFreq tokens term

theorem Tracks.total_eq (h : Tracks asF32 index corpus slots) : corpus.total = slots.total :=
  total_eq_of_docs h.docs h.describes.distinct

/-- Where nothing has wrapped around, the posting lists hold the clamped counts. -/
theorem Tracks.describes_clamped (h : Tracks asF32 index corpus slots) :
    Describes asF32 clampedFreq index slots := by
  have hpostings : ∀ term, slots.postings wrappedFreq term = slots.postings clampedFreq term := by
    intro term
    apply OrderedMap.ext_get
    intro i
    rw [Slots.get_postings, Slots.get_postings]
    rcases hdoc : slots.doc? i with _ | ⟨d, ts⟩
    · rfl
    · simp [Slots.posting, h.freq i d ts hdoc term]
  refine { h.describes with inverted := fun term ↦ ?_ }
  rw [h.describes.inverted, hpostings]

theorem tracks_empty (asF32 : ℕ → F) (hconfig : index.config.validate = .ok ()) (hblock : 0 < index.blockSize) :
    Tracks asF32 index.clear (.empty index.tokenizer) [] where
  describes :=
    { next := rfl
      space := by simp
      distinct := fun i j d ts ts' hi ↦ by cases hi
      nonempty := fun i d ts hi ↦ by cases hi
      ids := fun d i ↦ ⟨(fun hget ↦ by cases hget), (fun ⟨_, hts⟩ ↦ by cases hts)⟩
      names_length := rfl
      names := fun i d ts hi ↦ by cases hi
      lengths := fun i ↦ rfl
      lengthsVec := fun i d ts hi ↦ by cases hi
      forward := fun i ↦ rfl
      terms := fun i d ts terms hi ↦ by cases hi
      inverted := fun term ↦ rfl
      blockSize := hblock
      config := hconfig }
  docs := fun d ts ↦ ⟨(fun hget ↦ by cases hget), (fun ⟨_, hi⟩ ↦ by cases hi)⟩
  tokenizer := rfl
  total := fun _ ↦ ⟨rfl, Nat.zero_le _⟩
  freq := fun i d ts hi ↦ by cases hi

/-! ## One step -/

theorem containsDocument_iff (h : Describes asF32 freq index slots) :
    index.containsDocument d = true ↔ ∃ i tokens, slots.doc? i = some (d, tokens) := by
  rw [containsDocument, Option.isSome_iff_exists]
  exact exists_congr fun i ↦ h.ids d i

/-- A document that is not held is given the next number, while there is one. -/
theorem ends_getOrAssignInternalId (h : Describes asF32 freq index slots)
    (hnew : ∀ i tokens, slots.doc? i ≠ some (d, tokens)) :
    Ends (getOrAssignInternalId d) index
      (fun i index' ↦ slots.length + 1 < 2 ^ 32 ∧ i = slots.length ∧
        index' = index.assignInternalId d)
      (fun e index' ↦ 2 ^ 32 ≤ slots.length + 1 ∧ e = .idSpaceExhausted ∧ index' = index) := by
  have hget : index.idToInternal.get d = none := by
    rcases hid : index.idToInternal.get d with _ | i
    · rfl
    · obtain ⟨tokens, htokens⟩ := (h.ids d i).mp hid
      exact absurd htokens (hnew i tokens)
  unfold getOrAssignInternalId
  rw [ends_bind, ends_read, hget]
  rw [ends_bind, ends_read]
  dsimp only
  rw [ends_ite, h.next]
  exact ⟨fun hfull ↦ ⟨hfull, rfl, rfl⟩, fun hroom ↦ ⟨Nat.lt_of_not_le hroom, rfl, rfl⟩⟩

theorem Tracks.remove (h : Tracks asF32 index corpus slots) (d : String) (hash : Hashing) :
    ∃ slots', Tracks asF32 (index.removeDocument asF32 hash d).2
      { corpus with docs := corpus.docs.erase d } slots' ∧ slots.Extends slots' ∧
      slots'.length = slots.length ∧ ∀ i tokens, slots'.doc? i ≠ some (d, tokens) := by
  by_cases hlive : ∃ i tokens, slots.doc? i = some (d, tokens)
  · obtain ⟨i, tokens, hdoc⟩ := hlive
    obtain ⟨-, hdescribes, htotal, htokenizer⟩ := h.describes.removeDocument hash hdoc
    -- a document stands in one slot only, so the others are of other documents
    have hkept : ∀ j e ts, (slots.kill i).doc? j = some (e, ts) →
        e ≠ d ∧ slots.doc? j = some (e, ts) := by
      intro j e ts hget
      rw [Slots.doc?_kill] at hget
      split_ifs at hget with hj
      refine ⟨?_, hget⟩
      rintro rfl
      exact hj (h.describes.distinct j i e ts tokens hget hdoc)
    refine ⟨slots.kill i, ?_, Slots.extends_kill, by rw [Slots.kill, List.length_set],
      fun j ts hget ↦ (hkept j d ts hget).1 rfl⟩
    refine
      { describes := hdescribes
        docs := fun e ts ↦ ?_
        tokenizer := h.tokenizer.trans htokenizer.symm
        total := fun hfits ↦ ?_
        freq := fun j e ts hget ↦ h.freq j e ts (hkept j e ts hget).2 }
    · show (corpus.docs.erase d).get e = some ts ↔ _
      rw [OrderedMap.get_erase]
      split_ifs with he
      · refine iff_of_false (by simp) ?_
        rintro ⟨j, hget⟩
        exact (hkept j e ts hget).1 he
      · rw [h.docs]
        refine exists_congr fun j ↦ ?_
        rw [Slots.doc?_kill]
        split_ifs with hj
        · refine iff_of_false (fun hget ↦ he ?_) (by simp)
          rw [hj, hdoc] at hget
          exact (Prod.mk.inj (Option.some.inj hget)).1.symm
        · rfl
    · obtain ⟨hexact, hrange⟩ := h.total hfits
      have hkill := Slots.total_kill hdoc
      rw [htotal, hexact]
      omega
  · have hnew : ∀ i tokens, slots.doc? i ≠ some (d, tokens) := fun i tokens hdoc ↦
      hlive ⟨i, tokens, hdoc⟩
    rw [h.describes.removeDocument_of_not_mem hnew]
    refine ⟨slots, { h with docs := fun e ts ↦ ?_ }, .refl slots, rfl, hnew⟩
    show (corpus.docs.erase d).get e = some ts ↔ _
    rw [OrderedMap.get_erase]
    split_ifs with he
    · subst he
      refine iff_of_false (by simp) ?_
      rintro ⟨i, hdoc⟩
      exact hnew i ts hdoc
    · exact h.docs e ts

/-- A document that is not held is given its number and written. -/
theorem Tracks.add (h : Tracks asF32 index corpus slots) (hspace : slots.length + 1 < 2 ^ 32)
    (hnew : ∀ i ts, slots.doc? i ≠ some (d, ts)) (hne : tokens ≠ [])
    (hfreq : ∀ term, wrappedFreq tokens term = clampedFreq tokens term) :
    Tracks asF32 ((index.assignInternalId d).addDocument asF32 slots.length tokens)
      (corpus.index d tokens) (slots ++ [some (d, tokens)]) := by
  have hdocs : ∀ e ts, (corpus.docs.insert d tokens).get e = some ts ↔
      ∃ i, Slots.doc? (slots ++ [some (d, tokens)]) i = some (e, ts) := by
    intro e ts
    rw [OrderedMap.get_insert]
    split_ifs with he
    · subst he
      constructor
      · intro heq
        obtain rfl := Option.some.inj heq
        exact ⟨slots.length, by rw [Slots.doc?_append, if_pos rfl]⟩
      · rintro ⟨i, hdoc⟩
        rw [Slots.doc?_append] at hdoc
        split_ifs at hdoc
        · exact congrArg _ (Prod.mk.inj (Option.some.inj hdoc)).2
        · exact absurd hdoc (hnew i ts)
    · rw [h.docs]
      constructor
      · rintro ⟨i, hdoc⟩
        have hlt := Slots.lt_length (Option.isSome_iff_exists.mpr ⟨_, hdoc⟩)
        exact ⟨i, by rw [Slots.doc?_append, if_neg hlt.ne, hdoc]⟩
      · rintro ⟨i, hdoc⟩
        rw [Slots.doc?_append] at hdoc
        split_ifs at hdoc
        · exact absurd (Prod.mk.inj (Option.some.inj hdoc)).1.symm he
        · exact ⟨i, hdoc⟩
  have hdescribes := h.describes.addDocument hspace hnew hne
  rw [Corpus.index, if_neg hne]
  refine
    { describes := hdescribes
      docs := hdocs
      tokenizer := h.tokenizer
      total := fun hfits ↦ ?_
      freq := fun i e ts hdoc ↦ ?_ }
  · -- while the lengths of all documents fit, the sum does not saturate
    obtain ⟨hfits, hrange⟩ := Bool.and_eq_true_iff.mp hfits
    have hrange := of_decide_eq_true hrange
    rw [total_eq_of_docs hdocs hdescribes.distinct] at hrange
    refine ⟨?_, hrange⟩
    show saturatingAdd index.totalTokens tokens.length = _
    rw [Slots.total_append] at hrange ⊢
    rw [(h.total hfits).1, saturatingAdd, min_eq_left hrange]
  · rw [Slots.doc?_append] at hdoc
    split_ifs at hdoc
    · obtain ⟨-, rfl⟩ := Prod.mk.inj (Option.some.inj hdoc)
      exact hfreq
    · exact h.freq i e ts hdoc

/-- Assigning a number and writing the document. -/
theorem Tracks.ends_assign (h : Tracks asF32 index corpus slots)
    (hnew : ∀ i ts, slots.doc? i ≠ some (d, ts)) (hne : tokens ≠ [])
    (hfreq : ∀ term, wrappedFreq tokens term = clampedFreq tokens term) :
    Ends (getOrAssignInternalId d >>= fun id ↦ write (Bm25Index.addDocument asF32 id tokens)) index
      (fun _ index' ↦ Tracks asF32 index' (corpus.index d tokens) (slots ++ [some (d, tokens)]))
      (fun e index' ↦ 2 ^ 32 ≤ slots.length + 1 ∧ e = .idSpaceExhausted ∧ index' = index) := by
  rw [ends_bind]
  refine (ends_getOrAssignInternalId h.describes hnew).mono ?_ fun _ _ hfull ↦ hfull
  rintro id index' ⟨hspace, rfl, rfl⟩
  exact h.add hspace hnew hne hfreq

theorem Corpus.index_erase (corpus : Corpus) (d : String) (tokens : List String)
    (hne : tokens ≠ []) :
    Corpus.index { corpus with docs := corpus.docs.erase d } d tokens = corpus.index d tokens := by
  have hdocs : (corpus.docs.erase d).insert d tokens = corpus.docs.insert d tokens := by
    apply OrderedMap.ext_get
    intro e
    rw [OrderedMap.get_insert, OrderedMap.get_insert, OrderedMap.get_erase]
    split_ifs <;> rfl
  rw [Corpus.index, Corpus.index, if_neg hne, if_neg hne]
  dsimp only
  rw [hdocs]

/-- **Indexing a held document again** gives it a new number; where there is none left, the document
is gone. -/
theorem Tracks.ends_reindex (h : Tracks asF32 index corpus slots) (hash : Hashing)
    (text : String) (hlive : index.containsDocument d = true) (hne : index.tokenizer text ≠ [])
    (hfreq : ∀ term,
      wrappedFreq (index.tokenizer text) term = clampedFreq (index.tokenizer text) term) :
    Ends (Bm25Index.indexDocument asF32 hash d text) index
      (fun _ index' ↦ ∃ slots',
        Tracks asF32 index' (corpus.index d (index.tokenizer text)) slots' ∧
          slots.Extends slots' ∧ slots'.length = slots.length + 1)
      (fun e index' ↦ 2 ^ 32 ≤ slots.length + 1 ∧ e = .idSpaceExhausted ∧
        index'.containsDocument d = false) := by
  rw [Bm25Index.indexDocument, ends_bind, ends_read, ends_bind, ends_read,
    if_neg (List.length_eq_zero_iff.not.mpr hne), indexTokens, if_pos hlive, ends_bind, ends_write]
  generalize index.tokenizer text = tokens at hne hfreq ⊢
  obtain ⟨removed, hremoved, hextends, hsame, hnew⟩ := h.remove d hash
  refine (hremoved.ends_assign hnew hne hfreq).mono ?_ ?_
  · intro _ index' htracks
    rw [Corpus.index_erase corpus d tokens hne] at htracks
    refine ⟨_, htracks, hextends.trans (Slots.extends_append _), ?_⟩
    rw [List.length_append, hsame]
    rfl
  · rintro e index' ⟨hfull, rfl, rfl⟩
    rw [hsame] at hfull
    refine ⟨hfull, rfl, Bool.eq_false_iff.mpr fun hheld ↦ ?_⟩
    obtain ⟨i, ts, hdoc⟩ := (containsDocument_iff hremoved.describes).mp hheld
    exact hnew i ts hdoc

/-- **Indexing a document that is not held** appends it, or finds no room for it. -/
theorem Tracks.ends_index_new (h : Tracks asF32 index corpus slots) (hash : Hashing)
    (text : String) (hnew : ¬index.containsDocument d = true) (hne : index.tokenizer text ≠ [])
    (hfreq : ∀ term,
      wrappedFreq (index.tokenizer text) term = clampedFreq (index.tokenizer text) term) :
    Ends (Bm25Index.indexDocument asF32 hash d text) index
      (fun _ index' ↦ Tracks asF32 index' (corpus.index d (index.tokenizer text))
        (slots ++ [some (d, index.tokenizer text)]))
      (fun e index' ↦ index' = index ∧
        (index.checkBudget text = .error e ∨ 2 ^ 32 ≤ slots.length + 1)) := by
  have hnew' : ∀ i ts, slots.doc? i ≠ some (d, ts) := fun i ts hdoc ↦
    hnew ((containsDocument_iff h.describes).mpr ⟨i, ts, hdoc⟩)
  rw [Bm25Index.indexDocument, ends_bind, ends_read, ends_bind, ends_read,
    if_neg (List.length_eq_zero_iff.not.mpr hne), indexTokens, if_neg hnew, ends_bind, ends_read,
    ends_bind, ends_check]
  refine ⟨fun _ _ ↦ ?_, fun e he ↦ ⟨rfl, .inl he⟩⟩
  refine (h.ends_assign hnew' hne hfreq).mono (fun _ _ htracks ↦ htracks) ?_
  rintro e index' ⟨hfull, -, rfl⟩
  exact ⟨rfl, .inr hfull⟩

/-- What a step has to bring about: where it fails the index is as it was. -/
def Accounts (asF32 : ℕ → F) (slots : Slots) (corpus : Corpus) (request : Request)
    (index : Bm25Index F) : Prop :=
  Ends (request.perform asF32) index
    (fun _ index' ↦ ∃ slots', Tracks asF32 index' (corpus.step request) slots' ∧
      (request.isClear = false → slots.Extends slots'))
    (fun _ index' ↦ index' = index)

theorem Tracks.accounts_index (h : Tracks asF32 index corpus slots) {text : String}
    (hadmissible : Admissible index (.index d text hash)) :
    Accounts asF32 slots corpus (.index d text hash) index := by
  show Ends (Bm25Index.indexDocument asF32 hash d text) index _ _
  have hstep : corpus.step (.index d text hash) = corpus.index d (index.tokenizer text) := by
    rw [Corpus.step, h.tokenizer]
  rw [hstep]
  by_cases hempty : index.tokenizer text = []
  · rw [Bm25Index.indexDocument, ends_bind, ends_read, ends_bind, ends_read, hempty,
      if_pos List.length_nil, ends_pure, Corpus.index, if_pos rfl]
    exact ⟨slots, h, fun _ ↦ .refl slots⟩
  · obtain ⟨hspace, hfreq⟩ := hadmissible hempty
    by_cases hlive : index.containsDocument d = true
    · have hroom := hspace hlive
      rw [h.describes.next] at hroom
      refine (h.ends_reindex hash text hlive hempty hfreq).mono ?_ ?_
      · rintro _ index' ⟨slots', htracks, hextends, -⟩
        exact ⟨slots', htracks, fun _ ↦ hextends⟩
      · rintro e index' ⟨hfull, -, -⟩
        omega
    · refine (h.ends_index_new hash text hlive hempty hfreq).mono ?_ fun _ _ hkept ↦ hkept.1
      exact fun _ _ htracks ↦ ⟨_, htracks, fun _ ↦ Slots.extends_append _⟩

theorem Tracks.accounts_roundtrip (h : Tracks asF32 index corpus slots)
    (defaultTokenizer : Tokenizer) :
    Accounts asF32 slots corpus (.roundtrip defaultTokenizer hash) index := by
  show Ends (Bm25.roundtrip asF32 hash defaultTokenizer) index _ _
  rw [Bm25.roundtrip, ends_bind, ends_read, ends_bind, ends_check]
  refine ⟨fun index' hread ↦ ?_, fun _ _ ↦ rfl⟩
  obtain ⟨_, -, rfl⟩ := map_eq_ok.mp hread
  obtain ⟨hdescribes, htotal, htokenizer⟩ := h.describes.restored hash defaultTokenizer
  refine ⟨slots, ?_, fun _ ↦ .refl slots⟩
  exact
    { describes := hdescribes
      docs := h.docs
      tokenizer := htokenizer.symm
      total := fun hfits ↦ ⟨htotal.trans (h.total hfits).1, (h.total hfits).2⟩
      freq := h.freq }

/-- **One admissible step**: it fails and changes nothing, or the index describes what the corpus has
become. -/
theorem Tracks.accounts (h : Tracks asF32 index corpus slots) {request : Request}
    (hadmissible : Admissible index request) : Accounts asF32 slots corpus request index := by
  rcases request with ⟨d, text, hash⟩ | ⟨d, hash⟩ | _ | ⟨tokenizer, hash⟩ | tokenizer | budget
  · exact h.accounts_index hadmissible
  · show Ends (write fun index : Bm25Index F ↦ (index.removeDocument asF32 hash d).2) index _ _
    obtain ⟨slots', hremoved, hextends, -⟩ := h.remove d hash
    rw [ends_write]
    exact ⟨slots', hremoved, fun _ ↦ hextends⟩
  · show Ends (write Bm25Index.clear) index _ _
    have hempty := tracks_empty asF32 h.describes.config h.describes.blockSize
    rw [← h.tokenizer] at hempty
    rw [ends_write]
    exact ⟨[], hempty, fun hclear ↦ by cases hclear⟩
  · exact h.accounts_roundtrip tokenizer
  · show Ends (write fun index : Bm25Index F ↦ { index with tokenizer := tokenizer }) index _ _
    rw [ends_write]
    refine ⟨slots, ?_, fun _ ↦ .refl slots⟩
    exact
      { describes := { h.describes with }
        docs := h.docs
        tokenizer := rfl
        total := h.total
        freq := h.freq }
  · show Ends (write fun index : Bm25Index F ↦
      { index with config := { index.config with memoryBudget := budget } }) index _ _
    rw [ends_write]
    refine ⟨slots, ?_, fun _ ↦ .refl slots⟩
    exact
      { describes := { h.describes with }
        docs := h.docs
        tokenizer := h.tokenizer
        total := h.total
        freq := h.freq }

end Khive.Bm25
