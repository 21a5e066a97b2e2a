import Khive.Bm25.Corpus

/-!
# Runs of an index

What one admissible step keeps, a run of them keeps: the index describes its corpus, a step that
fails changes nothing, and a number stands for the document it was given to or for none. The run
that is not admissible is one that uses up the numbers on a single document, which the next indexing
of it then loses.
-/

namespace Khive.Bm25

open Attempt Bm25Index

variable {F : Type} (asF32 : ℕ → F)

/-- Every step of a run is admissible where it is taken. -/
def AdmissibleRun (index : Bm25Index F) : List Request → Prop
  | [] => True
  | request :: steps =>
    Admissible index request ∧ AdmissibleRun (request.perform asF32 index).2 steps

variable {asF32} {index : Bm25Index F} {corpus : Corpus} {slots : Slots} {request : Request}
  {steps : List Request}

theorem track_fst (state : Bm25Index F × Corpus) (request : Request) :
    (track asF32 state request).1 = (request.perform asF32 state.1).2 := by
  rw [track]
  rcases request.perform asF32 state.1 with ⟨_ | _, _⟩ <;> rfl

/-- One step of a tracked run. -/
theorem Tracks.track (h : Tracks asF32 index corpus slots) (hadmissible : Admissible index request) :
    ∃ slots', Tracks asF32 (Bm25.track asF32 (index, corpus) request).1
      (Bm25.track asF32 (index, corpus) request).2 slots' ∧
      (request.isClear = false → slots.Extends slots') := by
  have haccounts := h.accounts hadmissible
  unfold Accounts Ends at haccounts
  rw [Bm25.track]
  rcases hperform : request.perform asF32 index with ⟨_ | _, index'⟩
  · rw [hperform] at haccounts
    obtain rfl : index' = index := haccounts
    exact ⟨slots, h, fun _ ↦ .refl slots⟩
  · rw [hperform] at haccounts
    exact haccounts

/-- **A run of admissible steps** keeps the index with its corpus. -/
theorem Tracks.run (h : Tracks asF32 index corpus slots) (hsteps : AdmissibleRun asF32 index steps) :
    ∃ slots', Tracks asF32 (steps.foldl (Bm25.track asF32) (index, corpus)).1
      (steps.foldl (Bm25.track asF32) (index, corpus)).2 slots' ∧
      ((∀ request ∈ steps, request.isClear = false) → slots.Extends slots') := by
  induction steps generalizing index corpus slots with
  | nil => exact ⟨slots, h, fun _ ↦ .refl slots⟩
  | cons request steps ih =>
    obtain ⟨hadmissible, hrest⟩ := hsteps
    obtain ⟨between, hbetween, hextends⟩ := h.track hadmissible
    rw [← track_fst (index, corpus)] at hrest
    obtain ⟨slots', hslots', hextends'⟩ := ih hbetween hrest
    refine ⟨slots', hslots', fun hclear ↦ ?_⟩
    obtain ⟨hfirst, hothers⟩ := List.forall_mem_cons.mp hclear
    exact (hextends hfirst).trans (hextends' hothers)

theorem AdmissibleRun.append {later : List Request} :
    AdmissibleRun asF32 index (steps ++ later) ↔ AdmissibleRun asF32 index steps ∧
      AdmissibleRun asF32 (steps.foldl (Bm25.track asF32) (index, corpus)).1 later := by
  induction steps generalizing index corpus with
  | nil => exact (iff_of_eq (true_and _)).symm
  | cons request steps ih =>
    rw [List.cons_append, AdmissibleRun, AdmissibleRun, and_assoc, List.foldl_cons,
      ← track_fst (index, corpus), ih]

theorem Tracks.unchanged (h : Tracks asF32 index corpus slots)
    (hadmissible : Admissible index request) {e : RetrievalError}
    (herror : (request.perform asF32 index).1 = .error e) :
    (request.perform asF32 index).2 = index := by
  have haccounts := h.accounts hadmissible
  unfold Accounts Ends at haccounts
  rcases hperform : request.perform asF32 index with ⟨_ | _, index'⟩
  · rw [hperform] at haccounts
    exact haccounts
  · rw [hperform] at herror
    cases herror

theorem Tracks.deserialize_isOk (h : Tracks asF32 index corpus slots) (hfits : corpus.fits = true)
    (hash : Hashing) (defaultTokenizer : Tokenizer) :
    (index.serialize.deserialize asF32 hash defaultTokenizer).isOk = true := by
  obtain ⟨htotal, hrange⟩ := h.total hfits
  rw [Bm25IndexWire.deserialize, h.describes.validate htotal hrange]
  rfl

/-- A number of an earlier index stands for the same document still, where it stands for one. -/
theorem Tracks.held_before {index' : Bm25Index F} {corpus' : Corpus} {slots' : Slots}
    (h' : Tracks asF32 index' corpus' slots') (h : Tracks asF32 index corpus slots)
    (hextends : slots'.Extends slots) {d : String} {i : ℕ} (hi : i < index'.nextInternalId)
    (hheld : index.idToInternal.get d = some i) :
    index'.idToInternal.get d = some i ∧ corpus'.docs.get d = corpus.docs.get d := by
  rw [h'.describes.next] at hi
  obtain ⟨tokens, hdoc⟩ := (h.describes.ids d i).mp hheld
  have hdoc' := hextends.kept i hi _ hdoc
  refine ⟨(h'.describes.ids d i).mpr ⟨tokens, hdoc'⟩, ?_⟩
  rw [(h'.docs d tokens).mpr ⟨i, hdoc'⟩, (h.docs d tokens).mpr ⟨i, hdoc⟩]

theorem tracks_new (asF32 : ℕ → F) {config : Bm25Config} (hconfig : config.validate = .ok ())
    (tokenizer : Tokenizer) : Tracks asF32 (.new config tokenizer) (.empty tokenizer) [] := by
  have hcleared : Tracks asF32 (Bm25Index.new config tokenizer : Bm25Index F).clear
      (.empty tokenizer) [] := tracks_empty asF32 hconfig (Nat.succ_pos 127)
  exact hcleared

/-- **The index describes exactly its live documents.** The slots give each document of the corpus
one number, and everything the index holds is what they determine. While the lengths add up within
range the total is their sum and a snapshot can be read back. A step that fails leaves the index as
it was. A number that was assigned before, with nothing cleared since, is held only by the document
that held it then, with the same tokens. -/
theorem index_describes_live_documents (asF32 : ℕ → F) (config : Bm25Config)
    (hconfig : config.validate = .ok ()) (tokenizer : Tokenizer) (steps : List Request)
    (hsteps : AdmissibleRun asF32 (.new config tokenizer) steps) :
    ∀ index corpus, tracked asF32 config tokenizer steps = (index, corpus) →
    (∃ slots, Describes asF32 clampedFreq index slots ∧
      ∀ d tokens, corpus.docs.get d = some tokens ↔ ∃ i, slots.doc? i = some (d, tokens)) ∧
    (corpus.fits = true → index.totalTokens = corpus.total ∧
      ∀ hash defaultTokenizer,
        (index.serialize.deserialize asF32 hash defaultTokenizer).isOk = true) ∧
    (∀ request, Admissible index request → ∀ e, (request.perform asF32 index).1 = .error e →
      (request.perform asF32 index).2 = index) ∧
    ∀ earlier later, steps = earlier ++ later → (∀ request ∈ later, request.isClear = false) →
      ∀ index' corpus', tracked asF32 config tokenizer earlier = (index', corpus') →
      index'.nextInternalId ≤ index.nextInternalId ∧
      ∀ d, ∀ i < index'.nextInternalId, index.idToInternal.get d = some i →
        index'.idToInternal.get d = some i ∧ corpus'.docs.get d = corpus.docs.get d := by
  intro index corpus hrun
  have hnew : Tracks asF32 (.new config tokenizer) (.empty tokenizer) [] :=
    tracks_new asF32 hconfig tokenizer
  obtain ⟨slots, htracks, -⟩ := hnew.run hsteps
  rw [tracked] at hrun
  rw [hrun] at htracks
  refine ⟨⟨slots, htracks.describes_clamped, htracks.docs⟩, fun hfits ↦ ?_, ?_, ?_⟩
  · exact ⟨(htracks.total hfits).1.trans htracks.total_eq.symm, htracks.deserialize_isOk hfits⟩
  · exact fun request hadmissible e herror ↦ htracks.unchanged hadmissible herror
  · rintro earlier later rfl hclear index' corpus' hearlier
    obtain ⟨hbefore, hlater⟩ := AdmissibleRun.append.mp hsteps
    obtain ⟨slots', hbefore, -⟩ := hnew.run hbefore
    obtain ⟨slots'', hafter, hextends⟩ := hbefore.run hlater
    rw [← List.foldl_append, hrun] at hafter
    rw [tracked] at hearlier
    rw [hearlier] at hbefore
    have hextends := hextends hclear
    refine ⟨?_, fun d i hi hheld ↦ hbefore.held_before hafter hextends hi hheld⟩
    rw [hbefore.describes.next, hafter.describes.next]
    exact hextends.length

/-- The order of the entries as they are stored. -/
def storedOrder : Hashing := ⟨fun entries ↦ entries, fun entries ↦ .refl entries⟩

/-- A configuration within its bounds, with no memory budget. -/
def plainConfig : Bm25Config := ⟨.one, .one, none⟩

/-- A text is one word. -/
def oneWord : Tokenizer := fun text ↦ [text]

def indexAgain : Request := .index "a" "x" storedOrder

theorem wrappedFreq_of_length {tokens : List String} (h : tokens.length < 2 ^ 32) (term : String) :
    wrappedFreq tokens term = clampedFreq tokens term := by
  have hcount : tokens.count term < 2 ^ 32 := List.count_le_length.trans_lt h
  rw [wrappedFreq, clampedFreq, Nat.mod_eq_of_lt hcount]

theorem validate_plainConfig : plainConfig.validate = .ok () := by
  rw [Bm25Config.validate, if_neg (by decide +kernel), if_neg (by decide +kernel)]

theorem indexing_twice_describes :
    ∃ slots, Describes id clampedFreq
      (tracked id plainConfig oneWord [indexAgain, indexAgain]).1 slots := by
  have hfreq : ∀ term, wrappedFreq ["x"] term = clampedFreq ["x"] term :=
    wrappedFreq_of_length (by simp)
  have hrun : AdmissibleRun id (.new plainConfig oneWord) [indexAgain, indexAgain] := by
    refine ⟨fun _ ↦ ⟨fun _ ↦ ?_, hfreq⟩, fun _ ↦ ⟨fun _ ↦ ?_, hfreq⟩, trivial⟩
    · show 0 + 1 < 2 ^ 32
      norm_num
    · show 1 + 1 < 2 ^ 32
      norm_num
  obtain ⟨⟨slots, hdescribes, -⟩, -⟩ := index_describes_live_documents id plainConfig
    validate_plainConfig oneWord _ hrun _ _ rfl
  exact ⟨slots, hdescribes⟩

/-! ## Runs of any steps -/

theorem Describes.remove {freq : Frequency} (h : Describes asF32 freq index slots) (hash : Hashing)
    (d : String) :
    ∃ slots', Describes asF32 freq (index.removeDocument asF32 hash d).2 slots' ∧
      ∀ i tokens, slots'.doc? i ≠ some (d, tokens) := by
  by_cases hlive : ∃ i tokens, slots.doc? i = some (d, tokens)
  · obtain ⟨i, tokens, hdoc⟩ := hlive
    refine ⟨slots.kill i, (h.removeDocument hash hdoc).2.1, fun j ts hget ↦ ?_⟩
    rw [Slots.doc?_kill] at hget
    split_ifs at hget with hj
    exact hj (h.distinct j i d ts tokens hget hdoc)
  · have hnew : ∀ i tokens, slots.doc? i ≠ some (d, tokens) := fun i tokens hdoc ↦
      hlive ⟨i, tokens, hdoc⟩
    rw [h.removeDocument_of_not_mem hnew]
    exact ⟨slots, h, hnew⟩

/-- Whatever becomes of a step, there are slots that the index describes. -/
theorem Describes.perform (h : Describes asF32 wrappedFreq index slots) (request : Request) :
    ∃ slots', Describes asF32 wrappedFreq (request.perform asF32 index).2 slots' := by
  rcases request with ⟨d, text, hash⟩ | ⟨d, hash⟩ | _ | ⟨tokenizer, hash⟩ | tokenizer | budget
  · -- the number is asked for when the document is not held any more
    have hassign : ∀ {index : Bm25Index F} {slots tokens}, Describes asF32 wrappedFreq index slots →
        (∀ i ts, slots.doc? i ≠ some (d, ts)) → tokens ≠ [] →
        Ends (getOrAssignInternalId d >>= fun id ↦
          write (Bm25Index.addDocument asF32 id tokens)) index
          (fun _ index' ↦ ∃ slots', Describes asF32 wrappedFreq index' slots')
          (fun _ index' ↦ ∃ slots', Describes asF32 wrappedFreq index' slots') := by
      intro index slots tokens h hnew hne
      rw [ends_bind]
      refine (ends_getOrAssignInternalId h hnew).mono ?_ ?_
      · rintro id index' ⟨hspace, rfl, rfl⟩
        exact ⟨_, h.addDocument hspace hnew hne⟩
      · rintro e index' ⟨-, -, rfl⟩
        exact ⟨slots, h⟩
    refine Ends.result (x := indexDocument asF32 hash d text)
      (R := fun result ↦ ∃ slots', Describes asF32 wrappedFreq result.2 slots') ?_
    rw [indexDocument, ends_bind, ends_read, ends_bind, ends_read, ends_ite]
    refine ⟨fun _ ↦ ⟨slots, h⟩, fun hlength ↦ ?_⟩
    have hne : index.tokenizer text ≠ [] := fun hnil ↦ hlength (by rw [hnil]; rfl)
    rw [indexTokens]
    by_cases hlive : index.containsDocument d = true
    · obtain ⟨removed, hremoved, hnew⟩ := h.remove hash d
      rw [if_pos hlive, ends_bind, ends_write]
      exact hassign hremoved hnew hne
    · rw [if_neg hlive, ends_bind, ends_read, ends_bind, ends_check]
      refine ⟨fun _ _ ↦ hassign h (fun i ts hdoc ↦ ?_) hne, fun _ _ ↦ ⟨slots, h⟩⟩
      exact hlive ((containsDocument_iff h).mpr ⟨i, ts, hdoc⟩)
  · obtain ⟨slots', hremoved, -⟩ := h.remove hash d
    exact ⟨slots', hremoved⟩
  · exact ⟨[], (tracks_empty asF32 h.config h.blockSize).describes⟩
  · refine Ends.result (x := Bm25.roundtrip asF32 hash tokenizer)
      (R := fun result ↦ ∃ slots', Describes asF32 wrappedFreq result.2 slots') ?_
    rw [Bm25.roundtrip, ends_bind, ends_read, ends_bind, ends_check]
    refine ⟨fun index' hread ↦ ?_, fun _ _ ↦ ⟨slots, h⟩⟩
    obtain ⟨_, -, rfl⟩ := map_eq_ok.mp hread
    exact ⟨slots, (h.restored hash tokenizer).1⟩
  · exact ⟨slots, { h with }⟩
  · exact ⟨slots, { h with }⟩

/-- **Every index of a run** describes some slots. -/
theorem exists_describes (asF32 : ℕ → F) {config : Bm25Config} (hconfig : config.validate = .ok ())
    (tokenizer : Tokenizer) (steps : List Request) :
    ∃ slots, Describes asF32 wrappedFreq (tracked asF32 config tokenizer steps).1 slots := by
  induction steps using List.reverseRecOn with
  | nil => exact ⟨[], (tracks_new asF32 hconfig tokenizer).describes⟩
  | append_singleton steps request ih =>
    obtain ⟨slots, h⟩ := ih
    rw [tracked, List.foldl_append, List.foldl_cons, List.foldl_nil, track_fst]
    exact h.perform request

/-! ## Running out of numbers -/

/-- Indexing one document over and over uses a number each time. -/
theorem Tracks.run_reindex (h : Tracks asF32 index corpus slots) (hash : Hashing) {d : String}
    (text : String) (hlive : index.containsDocument d = true) (hne : corpus.tokenizer text ≠ [])
    (hfreq : ∀ term,
      wrappedFreq (corpus.tokenizer text) term = clampedFreq (corpus.tokenizer text) term)
    (n : ℕ) (hn : slots.length + n < 2 ^ 32) :
    ∃ index' corpus' slots',
      (List.replicate n (.index d text hash)).foldl (Bm25.track asF32) (index, corpus) =
        (index', corpus') ∧
      Tracks asF32 index' corpus' slots' ∧ slots'.length = slots.length + n ∧
      index'.containsDocument d = true ∧ corpus'.tokenizer = corpus.tokenizer := by
  induction n generalizing index corpus slots with
  | zero => exact ⟨index, corpus, slots, rfl, h, rfl, hlive, rfl⟩
  | succ n ih =>
    have htokens : index.tokenizer text = corpus.tokenizer text := by rw [h.tokenizer]
    have hends := h.ends_reindex hash text hlive (by rw [htokens]; exact hne)
      (by rw [htokens]; exact hfreq)
    rw [htokens] at hends
    have hstep : ∃ between slots', Bm25.track asF32 (index, corpus) (.index d text hash) =
        (between, corpus.index d (corpus.tokenizer text)) ∧
        Tracks asF32 between (corpus.index d (corpus.tokenizer text)) slots' ∧
        slots'.length = slots.length + 1 := by
      unfold Ends at hends
      rcases hperform : Bm25Index.indexDocument asF32 hash d text index with ⟨_ | _, between⟩
      · -- there is a number left, so the indexing does not fail
        rw [hperform] at hends
        omega
      · rw [hperform] at hends
        obtain ⟨slots', htracks, -, hlength⟩ := hends
        exact ⟨between, slots', track_of_ok asF32 hperform, htracks, hlength⟩
    obtain ⟨between, slots₁, htrack, htracks, hlength⟩ := hstep
    have hdocs : (corpus.index d (corpus.tokenizer text)).docs.get d =
        some (corpus.tokenizer text) := by
      rw [Corpus.index, if_neg hne]
      exact (OrderedMap.get_insert _ _ _ _).trans (if_pos rfl)
    have htokenizer : (corpus.index d (corpus.tokenizer text)).tokenizer = corpus.tokenizer := by
      rw [Corpus.index, if_neg hne]
    have hheld : between.containsDocument d = true := by
      rw [containsDocument_iff htracks.describes]
      obtain ⟨i, hdoc⟩ := (htracks.docs d _).mp hdocs
      exact ⟨i, _, hdoc⟩
    obtain ⟨index', corpus', slots', hrun, htracks', hlength', hheld', htokenizer'⟩ :=
      ih htracks hheld (by rw [htokenizer]; exact hne) (by rw [htokenizer]; exact hfreq) (by omega)
    refine ⟨index', corpus', slots', ?_, htracks', by omega, hheld',
      htokenizer'.trans htokenizer⟩
    rw [List.replicate_succ, List.foldl_cons, htrack, hrun]

theorem tracked_indexAgain (n : ℕ) (hn : n + 1 < 2 ^ 32) :
    ∃ index corpus slots,
      tracked id plainConfig oneWord (List.replicate (n + 1) indexAgain) = (index, corpus) ∧
      Tracks id index corpus slots ∧ slots.length = n + 1 ∧
      index.containsDocument "a" = true ∧ index.tokenizer = oneWord := by
  have hfreq : ∀ term, wrappedFreq ["x"] term = clampedFreq ["x"] term :=
    wrappedFreq_of_length (by simp)
  have hnew : Tracks id (.new plainConfig oneWord) (.empty oneWord) [] :=
    tracks_new id validate_plainConfig oneWord
  have hfirst := hnew.ends_index_new storedOrder (d := "a") "x" Bool.false_ne_true
    (List.cons_ne_nil _ _) hfreq
  unfold Ends at hfirst
  have hstep : ∃ index, track id (.new plainConfig oneWord, .empty oneWord) indexAgain =
      (index, (Corpus.empty oneWord).index "a" ["x"]) ∧
      Tracks id index ((Corpus.empty oneWord).index "a" ["x"]) [some ("a", ["x"])] := by
    rcases hperform : indexDocument id storedOrder "a" "x" (.new plainConfig oneWord)
      with ⟨e | _, index⟩
    · rw [hperform] at hfirst
      obtain ⟨-, hbudget | hfull⟩ := hfirst
      · cases hbudget
      · simp at hfull
    · rw [hperform] at hfirst
      exact ⟨index, track_of_ok id hperform, hfirst⟩
  obtain ⟨first, htrack, htracks⟩ := hstep
  have hheld : first.containsDocument "a" = true :=
    (containsDocument_iff htracks.describes).mpr ⟨0, ["x"], rfl⟩
  obtain ⟨index, corpus, slots, hrun, htracks', hlength, hheld', htokenizer⟩ :=
    htracks.run_reindex storedOrder "x" hheld (List.cons_ne_nil _ _) hfreq n
      (by rw [List.length_singleton]; omega)
  refine ⟨index, corpus, slots, ?_, htracks', ?_, hheld', ?_⟩
  · rw [tracked, List.replicate_succ, List.foldl_cons, htrack]
    exact hrun
  · rw [hlength, List.length_singleton, Nat.add_comm]
  · rw [← htracks'.tokenizer, htokenizer]
    rfl

/-- The number after the last one is refused when the document has been removed already. -/
theorem reindex_loses_document :
    ∃ index corpus,
      tracked id plainConfig oneWord (List.replicate (2 ^ 32 - 1) indexAgain) = (index, corpus) ∧
      index.containsDocument "a" = true ∧
      (indexAgain.perform id index).1 = .error .idSpaceExhausted ∧
      (indexAgain.perform id index).2.containsDocument "a" = false := by
  obtain ⟨index, corpus, slots, hrun, htracks, hlength, hheld, htokenizer⟩ :=
    tracked_indexAgain (2 ^ 32 - 2) (by norm_num)
  have hends := htracks.ends_reindex storedOrder (d := "a") "x" hheld
    (by rw [htokenizer]; exact List.cons_ne_nil _ _)
    (by rw [htokenizer]; exact wrappedFreq_of_length (by simp [oneWord]))
  refine ⟨index, corpus, hrun, hheld, ?_⟩
  unfold Ends at hends
  show (indexDocument id storedOrder "a" "x" index).1 = _ ∧
    (indexDocument id storedOrder "a" "x" index).2.containsDocument "a" = false
  rcases hperform : indexDocument id storedOrder "a" "x" index with ⟨e | _, index'⟩
  · rw [hperform] at hends
    obtain ⟨-, rfl, hgone⟩ := hends
    exact ⟨rfl, hgone⟩
  · rw [hperform] at hends
    obtain ⟨slots', hslots', -, hlength'⟩ := hends
    have hspace := hslots'.describes.space
    omega

end Khive.Bm25
