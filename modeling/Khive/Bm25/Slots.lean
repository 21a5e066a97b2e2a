import Khive.Bm25.Snapshot

/-!
# What an index describes

`Slots` says which document each internal number stands for: the slot of a number is emptied when its
document is removed and never filled again, and a document that is indexed gets a slot at the end.
Everything the index holds is determined by the slots, which is `Describes`.
-/

namespace Khive.Bm25

/-- The live documents with their tokens, by internal number. -/
abbrev Slots := List (Option (String × List String))

/-- How often a term counts as occurring in a list of tokens. -/
abbrev Frequency := List String → String → ℕ

/-- The count as the index keeps it, in a `u32` and then clamped. -/
def wrappedFreq : Frequency := fun tokens term ↦ min (tokens.count term % 2 ^ 32) 255

/-- The count, clamped. -/
def clampedFreq : Frequency := fun tokens term ↦ min (tokens.count term) 255

namespace Slots

variable {freq : Frequency} {slots : Slots} {i j : ℕ} {d : String} {tokens : List String}
  {term : String}

/-- The live document of a number. -/
def doc? (slots : Slots) (i : ℕ) : Option (String × List String) := slots[i]?.join

def kill (slots : Slots) (i : ℕ) : Slots := slots.set i none

def total (slots : Slots) : ℕ := (slots.map fun slot ↦ (slot.map fun doc ↦ doc.2.length).getD 0).sum

/-- What a document contributes to the posting list of a term. -/
def posting (freq : Frequency) (term : String) (doc : Option (String × List String)) : Option ℕ :=
  doc.bind fun doc ↦ if term ∈ doc.2 then some (freq doc.2 term) else none

theorem doc?_eq_some {doc : String × List String} :
    slots.doc? i = some doc ↔ slots[i]? = some (some doc) := by
  rw [doc?, Option.join_eq_some_iff]

theorem lt_length (h : (slots.doc? i).isSome) : i < slots.length := by
  obtain ⟨doc, hdoc⟩ := Option.isSome_iff_exists.mp h
  obtain ⟨hi, -⟩ := List.getElem?_eq_some_iff.mp (doc?_eq_some.mp hdoc)
  exact hi

theorem doc?_kill : (slots.kill i).doc? j = if j = i then none else slots.doc? j := by
  rw [doc?, doc?, kill, List.getElem?_set]
  split_ifs with h h' h'' <;> simp_all

theorem doc?_append (doc : String × List String) :
    Slots.doc? (slots ++ [some doc]) j = if j = slots.length then some doc else slots.doc? j := by
  rw [doc?, doc?, List.getElem?_append]
  split_ifs with h h' h'
  · omega
  · rfl
  · simp [h']
  · have hlt : slots.length < j := by omega
    have hnone : slots[j]? = none := List.getElem?_eq_none (by omega)
    have hnone' : [some doc][j - slots.length]? = none := List.getElem?_eq_none (by simp; omega)
    rw [hnone, hnone']

/-- A map by internal number, of what each slot gives. -/
def tabulate (f : Option (String × List String) → Option ℕ) (slots : Slots) : OrderedMap ℕ ℕ where
  entries := slots.zipIdx.filterMap fun entry ↦ (f entry.1).map (entry.2, ·)
  sorted := by
    rw [SortedMap.Sorted, List.pairwise_filterMap, List.pairwise_iff_getElem]
    intro a b ha hb hab e he f hf
    obtain ⟨_, -, rfl⟩ := Option.map_eq_some_iff.mp he
    obtain ⟨_, -, rfl⟩ := Option.map_eq_some_iff.mp hf
    simpa using hab

theorem get_tabulate {f : Option (String × List String) → Option ℕ} (hf : f none = none) :
    (slots.tabulate f).get i = f (slots.doc? i) := by
  apply Option.ext
  intro n
  rw [OrderedMap.get_eq_some, tabulate, List.mem_filterMap]
  constructor
  · rintro ⟨⟨slot, k⟩, hmem, hpair⟩
    obtain ⟨_, hslot, hpair⟩ := Option.map_eq_some_iff.mp hpair
    obtain ⟨rfl, rfl⟩ := Prod.mk.inj hpair
    rw [doc?, List.mem_zipIdx_iff_getElem?.mp hmem]
    exact hslot
  · intro hslot
    rcases hdoc : slots.doc? i with _ | doc
    · rw [hdoc, hf] at hslot
      cases hslot
    · refine ⟨(some doc, i), List.mem_zipIdx_iff_getElem?.mpr (doc?_eq_some.mp hdoc), ?_⟩
      rw [hdoc] at hslot
      simp [hslot]

/-- The posting list that the slots give a term. -/
def postings (freq : Frequency) (slots : Slots) (term : String) : OrderedMap ℕ ℕ :=
  slots.tabulate (posting freq term)

theorem get_postings : (slots.postings freq term).get i = posting freq term (slots.doc? i) :=
  get_tabulate rfl

/-- The lengths of the live documents add up to the total. -/
theorem sum_lengths :
    ((slots.tabulate (Option.map fun doc ↦ doc.2.length)).entries.map Prod.snd).sum =
      slots.total := by
  have hsum : ∀ k, (((slots.zipIdx k).filterMap fun entry ↦
      (entry.1.map fun doc ↦ doc.2.length).map (entry.2, ·)).map Prod.snd).sum = slots.total := by
    induction slots with
    | nil => exact fun _ ↦ rfl
    | cons slot slots ih =>
      intro k
      have hcons : Slots.total (slot :: slots) =
          (slot.map fun doc ↦ doc.2.length).getD 0 + Slots.total slots := rfl
      rw [List.zipIdx_cons, hcons, ← ih (k + 1)]
      rcases slot with _ | doc
      · simp
      · simp
  exact hsum 0

theorem postings_kill : (slots.kill i).postings freq term = (slots.postings freq term).erase i := by
  apply OrderedMap.ext_get
  intro j
  rw [OrderedMap.get_erase, get_postings, get_postings, doc?_kill]
  split_ifs <;> rfl

theorem entries_postings_append (doc : String × List String) :
    (Slots.postings freq (slots ++ [some doc]) term).entries =
      (slots.postings freq term).entries ++
        if term ∈ doc.2 then [(slots.length, freq doc.2 term)] else [] := by
  simp only [postings, tabulate, List.zipIdx_append, List.filterMap_append]
  refine congrArg _ ?_
  by_cases h : term ∈ doc.2 <;> simp [posting, h]

/-- Where the document of a number has no occurrence of a term, removing it changes nothing there. -/
theorem postings_kill_of_not_mem (h : ∀ d tokens, slots.doc? i = some (d, tokens) → term ∉ tokens) :
    (slots.kill i).postings freq term = slots.postings freq term := by
  apply OrderedMap.ext_get
  intro j
  rw [get_postings, get_postings, doc?_kill]
  split_ifs with hj
  · subst hj
    rcases hdoc : slots.doc? j with _ | ⟨d, tokens⟩
    · rfl
    · simp [posting, h d tokens hdoc]
  · rfl

theorem total_append (doc : String × List String) :
    Slots.total (slots ++ [some doc]) = slots.total + doc.2.length := by
  simp [total]

theorem total_kill (h : slots.doc? i = some (d, tokens)) :
    (slots.kill i).total + tokens.length = slots.total := by
  obtain ⟨hi, hget⟩ := List.getElem?_eq_some_iff.mp (doc?_eq_some.mp h)
  have hsplit := List.take_append_drop i slots
  rw [List.drop_eq_getElem_cons hi, hget] at hsplit
  rw [kill, List.set_eq_take_append_cons_drop, if_pos hi]
  conv_rhs => rw [← hsplit]
  simp [total]
  omega

end Slots

/-! ## Posting lists -/

namespace PostingList

/-- The two vectors of a posting list given by its entries. -/
def ofEntries (entries : List (ℕ × ℕ)) : PostingList :=
  ⟨entries.map Prod.fst, entries.map Prod.snd⟩

theorem isEmpty_ofEntries {entries : List (ℕ × ℕ)} :
    (ofEntries entries).isEmpty = entries.isEmpty := by
  cases entries <;> rfl

/-- A document above all others goes to the end. -/
theorem insert_ofEntries {entries : List (ℕ × ℕ)} {docId termFreq : ℕ}
    (h : ∀ e ∈ entries, e.1 < docId) :
    (ofEntries entries).insert ((ofEntries entries).partitionPointByDocId docId) docId termFreq =
      ofEntries (entries ++ [(docId, termFreq)]) := by
  have hpoint : (ofEntries entries).partitionPointByDocId docId = entries.length := by
    rw [partitionPointByDocId, ofEntries, List.takeWhile_eq_self_iff.mpr (by simpa using h),
      List.length_map]
  rw [hpoint, insert, ofEntries, ofEntries, List.map_append, List.map_append]
  refine congrArg₂ _ ?_ ?_
  · have hlen : entries.length = (entries.map Prod.fst).length := (List.length_map _).symm
    rw [hlen, List.insertIdx_length_self]
    rfl
  · have hlen : entries.length = (entries.map Prod.snd).length := (List.length_map _).symm
    rw [hlen, List.insertIdx_length_self]
    rfl

/-- The binary search finds a document of the list, and taking it out there leaves the others. -/
theorem remove_ofEntries {entries : List (ℕ × ℕ)} (hsorted : SortedMap.Sorted entries) {i f : ℕ}
    (hmem : (i, f) ∈ entries) :
    (ofEntries entries).docIds[(ofEntries entries).partitionPointByDocId i]? = some i ∧
      (ofEntries entries).remove ((ofEntries entries).partitionPointByDocId i) =
        ofEntries (entries.filter fun e ↦ decide (e.1 ≠ i)) := by
  induction entries with
  | nil => cases hmem
  | cons e entries ih =>
    obtain ⟨hlt, hrest⟩ := List.pairwise_cons.mp hsorted
    rcases List.mem_cons.mp hmem with rfl | hmem
    · -- the document is the first one, and all others are above it
      have hpoint : (ofEntries ((i, f) :: entries)).partitionPointByDocId i = 0 := by
        simp [partitionPointByDocId, ofEntries]
      have hfilter : entries.filter (fun e ↦ decide (e.1 ≠ i)) = entries :=
        List.filter_eq_self.mpr fun e he ↦ decide_eq_true (hlt e he).ne'
      rw [hpoint]
      refine ⟨rfl, ?_⟩
      rw [List.filter_cons_of_neg (by simp), hfilter]
      rfl
    · have hlt' : e.1 < i := hlt _ hmem
      have hpoint : (ofEntries (e :: entries)).partitionPointByDocId i =
          (ofEntries entries).partitionPointByDocId i + 1 := by
        simp [partitionPointByDocId, ofEntries, hlt']
      obtain ⟨hget, hremove⟩ := ih hrest hmem
      rw [hpoint, List.filter_cons_of_pos (by simpa using hlt'.ne)]
      refine ⟨hget, ?_⟩
      simp only [remove, ofEntries, List.map_cons, List.eraseIdx_cons_succ,
        PostingList.mk.injEq] at hremove ⊢
      exact ⟨congrArg _ hremove.1, congrArg _ hremove.2⟩

end PostingList

/-! ## The index of some slots -/

variable {F : Type} {asF32 : ℕ → F}

/-- **Everything the index holds is what its slots determine.** -/
structure Describes (asF32 : ℕ → F) (freq : Frequency) (index : Bm25Index F) (slots : Slots) :
    Prop where
  next : index.nextInternalId = slots.length
  space : slots.length < 2 ^ 32
  distinct : ∀ i j d tokens tokens', slots.doc? i = some (d, tokens) →
    slots.doc? j = some (d, tokens') → i = j
  nonempty : ∀ i d tokens, slots.doc? i = some (d, tokens) → tokens ≠ []
  ids : ∀ d i, index.idToInternal.get d = some i ↔ ∃ tokens, slots.doc? i = some (d, tokens)
  names_length : index.internalToId.length = slots.length
  names : ∀ i d tokens, slots.doc? i = some (d, tokens) → index.internalToId[i]? = some d
  lengths : ∀ i, index.docLengths.get i = (slots.doc? i).map fun doc ↦ doc.2.length
  lengthsVec : ∀ i d tokens, slots.doc? i = some (d, tokens) →
    index.docLengthsVec[i]? = some tokens.length ∧
      index.docLengthsF32[i]? = some (asF32 tokens.length)
  forward : ∀ i, (index.forwardIndex.get i).isSome = (slots.doc? i).isSome
  terms : ∀ i d tokens terms, slots.doc? i = some (d, tokens) →
    index.forwardIndex.get i = some terms → terms.Nodup ∧ ∀ t, t ∈ terms ↔ t ∈ tokens
  inverted : ∀ term, index.invertedIndex.get term =
    if (slots.postings freq term).entries.isEmpty then none
    else some (.ofEntries (slots.postings freq term).entries)
  blockSize : 0 < index.blockSize
  config : index.config.validate = .ok ()

end Khive.Bm25
