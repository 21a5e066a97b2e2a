import Khive.Bm25.Slots

/-!
# Indexing and removing keep the description

Removing a document empties its slot, and indexing one appends a slot. Each container is followed on
its own: the posting lists by what the folds over the terms do to a single term, the vectors entry
by entry.
-/

namespace Khive.Bm25

open Bm25Index

variable {F : Type} {asF32 : ℕ → F} {index : Bm25Index F} {slots : Slots} {i j : ℕ} {d : String}
  {tokens : List String} {term : String} {hash : Hashing}

/-! ## Counting tokens -/

theorem get_termFreqs (tokens : List String) (term : String) :
    (termFreqs tokens).get term =
      if term ∈ tokens then some (tokens.count term % 2 ^ 32) else none := by
  induction tokens using List.reverseRecOn with
  | nil => rfl
  | append_singleton tokens token ih =>
    rw [termFreqs, List.foldl_append, List.foldl_cons, List.foldl_nil, ← termFreqs,
      OrderedMap.get_insert]
    by_cases heq : term = token
    · subst heq
      have hcount : ((termFreqs tokens).get term).getD 0 = tokens.count term % 2 ^ 32 := by
        rw [ih]
        split_ifs with hmem
        · rfl
        · rw [List.count_eq_zero.mpr hmem]
          rfl
      rw [if_pos rfl, hcount, if_pos (by simp), List.count_append, List.count_singleton_self,
        Nat.mod_add_mod]
    · have hmem : term ∈ tokens ++ [token] ↔ term ∈ tokens := by simp [heq]
      rw [if_neg heq, ih, List.count_append, List.count_singleton]
      simp [hmem, Ne.symm heq]

theorem mem_keys_termFreqs : term ∈ (termFreqs tokens).entries.map Prod.fst ↔ term ∈ tokens := by
  rw [OrderedMap.mem_keys, get_termFreqs]
  split_ifs with h <;> simp [h]

/-! ## Vectors -/

section Vectors

variable {α : Type} {v : List α} {a b fill : α}

theorem length_resize (n : ℕ) : (resize v n a).length = n := by
  rw [resize, List.length_append, List.length_take, List.length_replicate]
  omega

theorem getElem?_resize {n : ℕ} (hn : v.length ≤ n) (hj : v[j]? = some b) :
    (resize v n a)[j]? = some b := by
  obtain ⟨hlt, -⟩ := List.getElem?_eq_some_iff.mp hj
  rw [resize, List.take_of_length_le hn, List.getElem?_append_left hlt, hj]

theorem getElem?_setGrowing_self : (setGrowing v i a fill)[i]? = some a := by
  rw [setGrowing, List.getElem?_set_self]
  split_ifs
  · rw [length_resize]
    omega
  · omega

theorem getElem?_setGrowing (hj : j ≠ i) (hget : v[j]? = some b) :
    (setGrowing v i a fill)[j]? = some b := by
  rw [setGrowing, List.getElem?_set_ne hj.symm]
  split_ifs with h
  · exact getElem?_resize (by omega) hget
  · exact hget

end Vectors

/-! ## Removing -/

/-- What removing a document does to the posting list of one of its terms. -/
def cutPosting (internalId : ℕ) (held : Option PostingList) : Option PostingList :=
  held.bind fun postings ↦
    let idx := postings.partitionPointByDocId internalId
    let postings := if postings.docIds[idx]? = some internalId then postings.remove idx else postings
    if postings.isEmpty then none else some postings

theorem get_removePosting (inverted : OrderedMap String PostingList) (term t : String) :
    (removePosting i inverted term).get t =
      if t = term then cutPosting i (inverted.get t) else inverted.get t := by
  unfold removePosting
  rcases hget : inverted.get term with _ | postings
  · split_ifs with heq
    · rw [heq, hget]
      rfl
    · rfl
  · have hcut : cutPosting i (some postings) = cutPosting i (inverted.get term) := by rw [hget]
    simp only [cutPosting, Option.bind_some] at hcut
    dsimp only
    by_cases heq : t = term
    · rw [if_pos heq, heq, cutPosting, ← hcut]
      split_ifs
      all_goals first
        | rw [OrderedMap.get_erase, if_pos rfl]
        | rw [OrderedMap.get_insert, if_pos rfl]
    · rw [if_neg heq]
      split_ifs
      all_goals first
        | rw [OrderedMap.get_erase, if_neg heq]
        | rw [OrderedMap.get_insert, if_neg heq]

/-- The posting list that the slots give a term, if they give it any. -/
def listOf (freq : Frequency) (slots : Slots) (term : String) : Option PostingList :=
  if (slots.postings freq term).entries.isEmpty then none
  else some (.ofEntries (slots.postings freq term).entries)

theorem cutPosting_listOf {freq : Frequency} (hdoc : slots.doc? i = some (d, tokens))
    (hterm : term ∈ tokens) :
    cutPosting i (listOf freq slots term) = listOf freq (slots.kill i) term := by
  have hget : (slots.postings freq term).get i = some (freq tokens term) := by
    rw [Slots.get_postings, hdoc]
    exact if_pos hterm
  have hmem := OrderedMap.get_eq_some.mp hget
  have hne : (slots.postings freq term).entries.isEmpty = false := by
    rcases hentries : (slots.postings freq term).entries with _ | _
    · rw [hentries] at hmem
      cases hmem
    · rfl
  obtain ⟨hfound, hremove⟩ := PostingList.remove_ofEntries (slots.postings freq term).sorted hmem
  have hkill : ((slots.kill i).postings freq term).entries =
      (slots.postings freq term).entries.filter fun e ↦ decide (e.1 ≠ i) := by
    rw [Slots.postings_kill]
    rfl
  rw [listOf, listOf, hne, hkill, if_neg (by simp), cutPosting, Option.bind_some]
  dsimp only
  rw [if_pos hfound, hremove, PostingList.isEmpty_ofEntries]

/-- A live slot of those that are left was live before, and is another one. -/
theorem Slots.of_doc?_kill {doc : String × List String} (h : (slots.kill i).doc? j = some doc) :
    j ≠ i ∧ slots.doc? j = some doc := by
  rw [Slots.doc?_kill] at h
  split_ifs at h with hj
  exact ⟨hj, h⟩

section Remove

variable {freq : Frequency} {terms : List String}

/-- The identifiers without the one of the document. -/
theorem Describes.ids_kill (h : Describes asF32 freq index slots)
    (hdoc : slots.doc? i = some (d, tokens)) (e : String) (j : ℕ) :
    (index.idToInternal.erase d).get e = some j ↔
      ∃ ts, (slots.kill i).doc? j = some (e, ts) := by
  rw [OrderedMap.get_erase, Slots.doc?_kill]
  split_ifs with he hj hj
  · simp
  · subst he
    refine iff_of_false (by simp) ?_
    rintro ⟨ts, hts⟩
    exact hj (h.distinct j i e ts tokens hts hdoc)
  · subst hj
    refine iff_of_false (fun hget ↦ ?_) (by simp)
    obtain ⟨ts, hts⟩ := (h.ids e j).mp hget
    rw [hdoc] at hts
    exact he (Prod.mk.inj (Option.some.inj hts)).1.symm
  · exact h.ids e j

/-- The posting lists without those of the document. -/
theorem Describes.inverted_kill (h : Describes asF32 freq index slots)
    (hdoc : slots.doc? i = some (d, tokens)) (hterms : index.forwardIndex.get i = some terms)
    (t : String) :
    (terms.foldl (removePosting i) index.invertedIndex).get t = listOf freq (slots.kill i) t := by
  obtain ⟨hnodup, hmem⟩ := h.terms i d tokens terms hdoc hterms
  have hfold := OrderedMap.get_foldl (fun t : String ↦ t) (fun _ ↦ cutPosting i)
    get_removePosting (by simpa using hnodup : (terms.map fun t ↦ t).Nodup) index.invertedIndex
  by_cases ht : t ∈ terms
  · rw [hfold.1 t ht, h.inverted]
    exact cutPosting_listOf hdoc ((hmem t).mp ht)
  · rw [hfold.2 t (by simpa using ht), h.inverted, listOf, Slots.postings_kill_of_not_mem]
    intro e ts hts
    rw [hdoc] at hts
    obtain ⟨-, rfl⟩ := Prod.mk.inj (Option.some.inj hts)
    exact fun hin ↦ ht ((hmem t).mpr hin)

/-- What is written when a document is removed. The terms of its documents are there, and need not
be rebuilt. -/
theorem Describes.removeDocument_eq (h : Describes asF32 freq index slots) (hash : Hashing)
    (hdoc : slots.doc? i = some (d, tokens)) (hterms : index.forwardIndex.get i = some terms) :
    index.removeDocument asF32 hash d = (true,
      { (index.dropLength asF32 i tokens.length) with
        forwardIndex := index.forwardIndex.erase i
        invertedIndex := terms.foldl (removePosting i) index.invertedIndex
        idToInternal := index.idToInternal.erase d }.bumpEpoch) := by
  have hid : index.idToInternal.get d = some i := (h.ids d i).mpr ⟨tokens, hdoc⟩
  have hlength : index.docLengths.get i = some tokens.length := by rw [h.lengths, hdoc]; rfl
  have hforward : index.forwardIndex.entries.isEmpty = false := by
    rcases hentries : index.forwardIndex.entries with _ | _
    · rw [OrderedMap.entries_eq_nil.mp hentries] at hterms
      cases hterms
    · rfl
  have hensured : (index.dropLength asF32 i tokens.length).ensureForwardIndex hash =
      index.dropLength asF32 i tokens.length := by
    refine if_pos ?_
    show (!index.forwardIndex.entries.isEmpty || _) = true
    rw [hforward]
    rfl
  have hterms' : (index.dropLength asF32 i tokens.length).forwardIndex.get i = some terms := hterms
  unfold Bm25Index.removeDocument
  rw [hid]
  dsimp only
  rw [hlength]
  dsimp only
  rw [hensured, removePostings, hterms']
  rfl

/-- **Removing a live document** empties its slot. -/
theorem Describes.removeDocument (h : Describes asF32 freq index slots)
    (hash : Hashing) (hdoc : slots.doc? i = some (d, tokens)) :
    (index.removeDocument asF32 hash d).1 = true ∧
      Describes asF32 freq (index.removeDocument asF32 hash d).2 (slots.kill i) ∧
      (index.removeDocument asF32 hash d).2.totalTokens = index.totalTokens - tokens.length ∧
      (index.removeDocument asF32 hash d).2.tokenizer = index.tokenizer := by
  obtain ⟨terms, hterms⟩ : ∃ terms, index.forwardIndex.get i = some terms := by
    rw [← Option.isSome_iff_exists, h.forward, hdoc]
    rfl
  rw [h.removeDocument_eq hash hdoc hterms]
  refine ⟨rfl, ?_, rfl, rfl⟩
  refine
    { next := by rw [Slots.kill, List.length_set]; exact h.next
      space := by rw [Slots.kill, List.length_set]; exact h.space
      distinct := fun j k e ts ts' hj hk ↦
        h.distinct j k e ts ts' (Slots.of_doc?_kill hj).2 (Slots.of_doc?_kill hk).2
      nonempty := fun j e ts hj ↦ h.nonempty j e ts (Slots.of_doc?_kill hj).2
      ids := h.ids_kill hdoc
      names_length := by rw [Slots.kill, List.length_set]; exact h.names_length
      names := fun j e ts hj ↦ h.names j e ts (Slots.of_doc?_kill hj).2
      lengths := ?_
      lengthsVec := ?_
      forward := ?_
      terms := ?_
      inverted := h.inverted_kill hdoc hterms
      blockSize := h.blockSize
      config := h.config }
  · intro j
    show (index.docLengths.erase i).get j = _
    rw [OrderedMap.get_erase, Slots.doc?_kill, h.lengths]
    split_ifs <;> rfl
  · -- the vectors keep their places, and only the slot's own is cleared
    intro j e ts hj
    obtain ⟨hne, hj⟩ := Slots.of_doc?_kill hj
    obtain ⟨hvec, hf32⟩ := h.lengthsVec j e ts hj
    exact ⟨(List.getElem?_set_ne hne.symm).trans hvec, (List.getElem?_set_ne hne.symm).trans hf32⟩
  · intro j
    show ((index.forwardIndex.erase i).get j).isSome = _
    rw [OrderedMap.get_erase, Slots.doc?_kill]
    split_ifs
    · rfl
    · exact h.forward j
  · intro j e ts terms' hj hget
    obtain ⟨hne, hj⟩ := Slots.of_doc?_kill hj
    have hget : (index.forwardIndex.erase i).get j = some terms' := hget
    rw [OrderedMap.get_erase, if_neg hne] at hget
    exact h.terms j e ts terms' hj hget

end Remove

/-- A document that is not held is not removed. -/
theorem Describes.removeDocument_of_not_mem {freq : Frequency}
    (h : Describes asF32 freq index slots)
    (hnone : ∀ i tokens, slots.doc? i ≠ some (d, tokens)) :
    index.removeDocument asF32 hash d = (false, index) := by
  have hget : index.idToInternal.get d = none := by
    rcases hid : index.idToInternal.get d with _ | i
    · rfl
    · obtain ⟨tokens, htokens⟩ := (h.ids d i).mp hid
      exact absurd htokens (hnone i tokens)
  unfold Bm25Index.removeDocument
  rw [hget]

/-! ## Indexing -/

/-- What indexing a document does to the posting list of one of its terms. -/
def extendPosting (internalId : ℕ) (entry : String × ℕ) (held : Option PostingList) :
    Option PostingList :=
  let postings := held.getD .empty
  some (postings.insert (postings.partitionPointByDocId internalId) internalId (min entry.2 255))

theorem get_addPosting (inverted : OrderedMap String PostingList) (entry : String × ℕ)
    (t : String) :
    (addPosting i inverted entry).get t =
      if t = entry.1 then extendPosting i entry (inverted.get t) else inverted.get t := by
  rw [addPosting, OrderedMap.get_insert]
  split_ifs with h
  · rw [h]
    rfl
  · rfl

theorem listOf_getD (freq : Frequency) (slots : Slots) (term : String) :
    (listOf freq slots term).getD .empty = .ofEntries (slots.postings freq term).entries := by
  rw [listOf]
  split_ifs with h
  · rw [List.isEmpty_iff.mp h]
    rfl
  · rfl

section Append

/-- A live slot is the new one or one from before. -/
theorem Slots.of_doc?_append {doc : String × List String}
    (h : Slots.doc? (slots ++ [some (d, tokens)]) j = some doc) :
    j = slots.length ∧ doc = (d, tokens) ∨ j ≠ slots.length ∧ slots.doc? j = some doc := by
  rw [Slots.doc?_append] at h
  split_ifs at h with hj
  · exact .inl ⟨hj, (Option.some.inj h).symm⟩
  · exact .inr ⟨hj, h⟩

theorem Describes.distinct_append (h : Describes asF32 wrappedFreq index slots)
    (hnew : ∀ i ts, slots.doc? i ≠ some (d, ts)) (j k : ℕ) (e : String) (ts ts' : List String)
    (hj : Slots.doc? (slots ++ [some (d, tokens)]) j = some (e, ts))
    (hk : Slots.doc? (slots ++ [some (d, tokens)]) k = some (e, ts')) : j = k := by
  rcases Slots.of_doc?_append hj with ⟨rfl, hdoc⟩ | ⟨-, hj'⟩
  · obtain ⟨rfl, -⟩ := Prod.mk.inj hdoc
    rcases Slots.of_doc?_append hk with ⟨rfl, -⟩ | ⟨-, hk'⟩
    · rfl
    · exact absurd hk' (hnew k ts')
  · rcases Slots.of_doc?_append hk with ⟨rfl, hdoc⟩ | ⟨-, hk'⟩
    · obtain ⟨rfl, -⟩ := Prod.mk.inj hdoc
      exact absurd hj' (hnew j ts)
    · exact h.distinct j k e ts ts' hj' hk'

/-- The identifiers with the one of the document. -/
theorem Describes.ids_append (h : Describes asF32 wrappedFreq index slots)
    (hnew : ∀ i ts, slots.doc? i ≠ some (d, ts)) (e : String) (j : ℕ) :
    (index.idToInternal.insert d index.nextInternalId).get e = some j ↔
      ∃ ts, Slots.doc? (slots ++ [some (d, tokens)]) j = some (e, ts) := by
  rw [OrderedMap.get_insert, h.next, Slots.doc?_append]
  split_ifs with he hj hj
  · subst he hj
    exact iff_of_true rfl ⟨tokens, rfl⟩
  · subst he
    refine iff_of_false (fun heq ↦ hj (Option.some.inj heq).symm) ?_
    rintro ⟨ts, hts⟩
    exact hnew j ts hts
  · subst hj
    refine iff_of_false (fun hget ↦ ?_) ?_
    · obtain ⟨ts, hts⟩ := (h.ids e _).mp hget
      exact lt_irrefl _ (Slots.lt_length (Option.isSome_iff_exists.mpr ⟨_, hts⟩))
    · rintro ⟨ts, hts⟩
      exact he (Prod.mk.inj (Option.some.inj hts)).1.symm
  · exact h.ids e j

/-- The names with the one of the document. -/
theorem Describes.internalToId_assign (h : Describes asF32 wrappedFreq index slots) (d : String) :
    (index.assignInternalId d).internalToId = index.internalToId ++ [d] := by
  rw [assignInternalId]
  dsimp only
  rw [h.next, h.names_length, if_pos le_rfl, resize,
    List.take_of_length_le (by rw [h.names_length]; omega), h.names_length,
    Nat.add_sub_cancel_left]
  rw [List.set_append_right _ _ (by rw [h.names_length]), h.names_length, Nat.sub_self]
  rfl

theorem Describes.names_append (h : Describes asF32 wrappedFreq index slots) (j : ℕ) (e : String)
    (ts : List String) (hj : Slots.doc? (slots ++ [some (d, tokens)]) j = some (e, ts)) :
    (index.internalToId ++ [d])[j]? = some e := by
  rcases Slots.of_doc?_append hj with ⟨rfl, hdoc⟩ | ⟨-, hj⟩
  · obtain ⟨rfl, -⟩ := Prod.mk.inj hdoc
    rw [← h.names_length, List.getElem?_concat_length]
  · have hlt := Slots.lt_length (Option.isSome_iff_exists.mpr ⟨_, hj⟩)
    rw [List.getElem?_append_left (by rw [h.names_length]; exact hlt)]
    exact h.names j e ts hj

/-- The terms of each document, with those of the new one. -/
theorem Describes.terms_append (h : Describes asF32 wrappedFreq index slots) (j : ℕ) (e : String)
    (ts terms : List String) (hj : Slots.doc? (slots ++ [some (d, tokens)]) j = some (e, ts))
    (hget : (index.forwardIndex.insert slots.length
      ((termFreqs tokens).entries.map Prod.fst)).get j = some terms) :
    terms.Nodup ∧ ∀ t, t ∈ terms ↔ t ∈ ts := by
  rw [OrderedMap.get_insert] at hget
  rcases Slots.of_doc?_append hj with ⟨rfl, hdoc⟩ | ⟨hne, hj⟩
  · obtain ⟨-, rfl⟩ := Prod.mk.inj hdoc
    rw [if_pos rfl] at hget
    obtain rfl := Option.some.inj hget
    exact ⟨(termFreqs ts).nodup_keys, fun t ↦ mem_keys_termFreqs⟩
  · rw [if_neg hne] at hget
    exact h.terms j e ts terms hj hget

/-- A posting is of a slot. -/
theorem Slots.lt_length_of_mem_postings {freq : Frequency} {t : String} {e : ℕ × ℕ}
    (he : e ∈ (slots.postings freq t).entries) : e.1 < slots.length := by
  have hget := OrderedMap.get_eq_some.mpr he
  rw [Slots.get_postings] at hget
  obtain ⟨doc, hdoc, -⟩ := Option.bind_eq_some_iff.mp hget
  exact Slots.lt_length (Option.isSome_iff_exists.mpr ⟨doc, hdoc⟩)

/-- The posting lists with those of the document. -/
theorem Describes.inverted_append (h : Describes asF32 wrappedFreq index slots) (t : String) :
    ((termFreqs tokens).entries.foldl (addPosting slots.length) index.invertedIndex).get t =
      listOf wrappedFreq (slots ++ [some (d, tokens)]) t := by
  obtain ⟨hmem, hother⟩ := OrderedMap.get_foldl Prod.fst _
    get_addPosting (termFreqs tokens).nodup_keys index.invertedIndex
  by_cases ht : t ∈ tokens
  · have hentry : (t, tokens.count t % 2 ^ 32) ∈ (termFreqs tokens).entries := by
      rw [← OrderedMap.get_eq_some, get_termFreqs, if_pos ht]
    have hheld : (index.invertedIndex.get t).getD .empty =
        .ofEntries (slots.postings wrappedFreq t).entries := by
      rw [h.inverted]
      exact listOf_getD wrappedFreq slots t
    rw [hmem _ hentry, extendPosting]
    dsimp only
    rw [hheld, PostingList.insert_ofEntries fun e he ↦ Slots.lt_length_of_mem_postings he, listOf,
      Slots.entries_postings_append, if_pos ht, if_neg (by simp)]
    rfl
  · have hkey : t ∉ (termFreqs tokens).entries.map Prod.fst := by rwa [mem_keys_termFreqs]
    rw [hother t hkey, h.inverted, listOf, Slots.entries_postings_append, if_neg ht,
      List.append_nil]

/-- **Indexing a document that is not held** appends its slot. -/
theorem Describes.addDocument (h : Describes asF32 wrappedFreq index slots)
    (hspace : slots.length + 1 < 2 ^ 32) (hnew : ∀ i ts, slots.doc? i ≠ some (d, ts))
    (hne : tokens ≠ []) :
    Describes asF32 wrappedFreq
      ((index.assignInternalId d).addDocument asF32 slots.length tokens)
      (slots ++ [some (d, tokens)]) := by
  have hnames := h.internalToId_assign d
  refine
    { next := by rw [List.length_append]; exact congrArg (· + 1) h.next
      space := by rw [List.length_append]; exact hspace
      distinct := h.distinct_append hnew
      nonempty := ?_
      ids := h.ids_append hnew
      names_length := ?_
      names := fun j e ts hj ↦ (congrArg (·[j]?) hnames).trans (h.names_append j e ts hj)
      lengths := ?_
      lengthsVec := ?_
      forward := ?_
      terms := h.terms_append
      inverted := h.inverted_append
      blockSize := h.blockSize
      config := h.config }
  · intro j e ts hj
    rcases Slots.of_doc?_append hj with ⟨-, hdoc⟩ | ⟨-, hj⟩
    · obtain ⟨rfl, rfl⟩ := Prod.mk.inj hdoc
      exact hne
    · exact h.nonempty j e ts hj
  · show (index.assignInternalId d).internalToId.length = _
    rw [hnames, List.length_append, List.length_append, h.names_length]
    rfl
  · intro j
    show (index.docLengths.insert slots.length tokens.length).get j = _
    rw [OrderedMap.get_insert, Slots.doc?_append, h.lengths]
    split_ifs <;> rfl
  · -- the vectors grow up to the new slot and keep what they have
    intro j e ts hj
    rcases Slots.of_doc?_append hj with ⟨rfl, hdoc⟩ | ⟨hk, hj⟩
    · obtain ⟨-, rfl⟩ := Prod.mk.inj hdoc
      exact ⟨getElem?_setGrowing_self, getElem?_setGrowing_self⟩
    · obtain ⟨hvec, hf32⟩ := h.lengthsVec j e ts hj
      exact ⟨getElem?_setGrowing hk hvec, getElem?_setGrowing hk hf32⟩
  · intro j
    show ((index.forwardIndex.insert slots.length _).get j).isSome = _
    rw [OrderedMap.get_insert, Slots.doc?_append]
    split_ifs
    · rfl
    · exact h.forward j

end Append

end Khive.Bm25
