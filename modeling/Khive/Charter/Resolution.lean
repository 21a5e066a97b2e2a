import Khive.Charter.Registry

/-!
# What a vocabulary adds

What the entries of a vocabulary resolve to depends on the vocabulary alone. The registry it is
added to only decides whether it is refused, and `add_eq_ok` says when: the vocabulary resolves by
itself, nobody else and no later version holds one of its names, and every trigger that its subjects
name is its own or held by another vocabulary.
-/

namespace Khive

namespace Charter

variable {registry : Registry} {source : VocabularySource} {entry : EntrySource} {d : EntryDef}
  {n : String}

theorem define_ok (h : define source entry = .ok d) :
    d.name = entry.name ∧ d.kind = entry.kind ∧ d.newGeneration = entry.newGeneration.getD [] ∧
      d.vocabulary = source.name ∧ d.vocabularyVersion = source.version := by
  unfold define at h
  split at h
  · cases h
  · split_ifs at h
    split at h
    · cases h
    · dsimp only at h
      split_ifs at h
      cases h
      exact ⟨rfl, rfl, rfl, rfl, rfl⟩

/-! ## The loop over the entries -/

/-- A turn against a registry that raises no objection is a turn against no registry. -/
theorem resolveEntry_of_not_held (hheld : heldProblem registry source entry = none)
    (state : List Problem × Registry) :
    resolveEntry registry source state entry =
      resolveEntry OrderedMap.empty source state entry := by
  rw [resolveEntry, resolveEntry, hheld]
  rfl

/-- No problem is ever taken back. -/
theorem prefix_resolveEntry (state : List Problem × Registry) :
    state.1 <+: (resolveEntry registry source state entry).1 := by
  rw [resolveEntry]
  split_ifs
  · exact List.prefix_append _ _
  · split
    · exact List.prefix_append _ _
    · split
      · exact List.prefix_append _ _
      · exact List.prefix_rfl

theorem prefix_foldl_resolveEntry (entries : List EntrySource) (state : List Problem × Registry) :
    state.1 <+: (entries.foldl (resolveEntry registry source) state).1 := by
  induction entries generalizing state with
  | nil => exact List.prefix_rfl
  | cons entry entries ih => exact (prefix_resolveEntry state).trans (ih _)

theorem not_held_of_resolveEntry {state : List Problem × Registry}
    (h : (resolveEntry registry source state entry).1 = []) :
    heldProblem registry source entry = none := by
  rw [resolveEntry] at h
  split_ifs at h
  · simp at h
  · split at h
    · simp at h
    · assumption

theorem foldl_resolveEntry_eq_nil {entries : List EntrySource} {state : List Problem × Registry} :
    (entries.foldl (resolveEntry registry source) state).1 = [] ↔
      (entries.foldl (resolveEntry OrderedMap.empty source) state).1 = [] ∧
        ∀ entry ∈ entries, heldProblem registry source entry = none := by
  induction entries generalizing state with
  | nil => simp
  | cons entry entries ih =>
    rw [List.foldl_cons, List.foldl_cons, List.forall_mem_cons]
    constructor
    · intro h
      have hfirst : (resolveEntry registry source state entry).1 = [] :=
        List.prefix_nil.mp (h ▸ prefix_foldl_resolveEntry entries _)
      have hheld := not_held_of_resolveEntry hfirst
      rw [resolveEntry_of_not_held hheld] at h
      exact ⟨(ih.mp h).1, hheld, (ih.mp h).2⟩
    · rintro ⟨h, hheld, hrest⟩
      rw [resolveEntry_of_not_held hheld]
      exact ih.mpr ⟨h, hrest⟩

theorem foldl_resolveEntry_of_not_held {entries : List EntrySource}
    (h : ∀ entry ∈ entries, heldProblem registry source entry = none)
    (state : List Problem × Registry) :
    entries.foldl (resolveEntry registry source) state =
      entries.foldl (resolveEntry OrderedMap.empty source) state :=
  List.foldl_ext _ _ _ fun _ entry hentry ↦ resolveEntry_of_not_held (h entry hentry) _

/-- What a resolved name came from. -/
theorem foldl_resolveEntry_get {entries : List EntrySource} {state : List Problem × Registry}
    (h : (entries.foldl (resolveEntry registry source) state).2.get n = some d) :
    state.2.get n = some d ∨ ∃ entry ∈ entries, entry.name = n ∧ define source entry = .ok d := by
  induction entries generalizing state with
  | nil => exact Or.inl h
  | cons entry entries ih =>
    rcases ih h with h | ⟨e, he, hname, hdef⟩
    · rw [resolveEntry] at h
      split_ifs at h
      · exact Or.inl h
      · split at h
        · exact Or.inl h
        · split at h
          · exact Or.inl h
          · rename_i d' hdef
            dsimp only at h
            rw [OrderedMap.get_insert] at h
            split_ifs at h with hn
            · cases h
              exact Or.inr ⟨entry, List.mem_cons_self, hn.symm, hdef⟩
            · exact Or.inl h
    · exact Or.inr ⟨e, List.mem_cons_of_mem _ he, hname, hdef⟩

/-! ## Definitions -/

/-- The definitions of a vocabulary, resolved by itself. -/
def definitions (source : VocabularySource) : Registry := (resolve OrderedMap.empty source).2

theorem exists_entry_of_definitions (h : (definitions source).get n = some d) :
    ∃ entry ∈ source.entries, entry.name = n ∧ define source entry = .ok d := by
  rcases foldl_resolveEntry_get h with h | h
  · exact absurd h (by rw [OrderedMap.get_empty]; exact Option.some_ne_none d ∘ Eq.symm)
  · exact h

theorem definitions_vocabulary (h : (definitions source).get n = some d) :
    d.vocabulary = source.name := by
  obtain ⟨entry, -, -, hdef⟩ := exists_entry_of_definitions h
  exact (define_ok hdef).2.2.2.1

theorem definitions_version (h : (definitions source).get n = some d) :
    d.vocabularyVersion = source.version := by
  obtain ⟨entry, -, -, hdef⟩ := exists_entry_of_definitions h
  exact (define_ok hdef).2.2.2.2

theorem mem_entries_of_definitions (h : (definitions source).get n = some d) :
    ∃ entry ∈ source.entries, entry.name = n := by
  obtain ⟨entry, hentry, hname, -⟩ := exists_entry_of_definitions h
  exact ⟨entry, hentry, hname⟩

/-- The triggers that the subjects of a vocabulary name. -/
def newGenerations (source : VocabularySource) : List String :=
  source.entries.flatMap fun entry ↦ entry.newGeneration.getD []

theorem mem_newGenerations_of_definitions (h : (definitions source).get n = some d) {t : String}
    (ht : t ∈ d.newGeneration) : t ∈ newGenerations source := by
  obtain ⟨entry, hentry, -, hdef⟩ := exists_entry_of_definitions h
  rw [(define_ok hdef).2.2.1] at ht
  exact List.mem_flatMap.mpr ⟨entry, hentry, ht⟩

/-! ## Acceptance -/

theorem heldProblem_eq_none :
    heldProblem registry source entry = none ↔
      ∀ held, registry.get entry.name = some held →
        held.vocabulary = source.name ∧ held.vocabularyVersion ≤ source.version := by
  rw [heldProblem]
  cases registry.get entry.name with
  | none => simp
  | some held =>
    simp only [Option.some.injEq, forall_eq']
    split_ifs with hname hversion
    · exact iff_of_false not_false fun h ↦ hname h.1
    · exact iff_of_false not_false fun h ↦ absurd hversion h.2.not_gt
    · exact iff_of_true rfl ⟨not_not.mp hname, not_lt.mp hversion⟩

theorem unknownTriggers_eq_nil {resolved : Registry} :
    unknownTriggers registry resolved source = [] ↔
      ∀ t ∈ newGenerations source, isTrigger (findTrigger registry resolved source t) = true := by
  simp only [unknownTriggers, newGenerations, List.flatMap_eq_nil_iff, List.map_eq_nil_iff,
    List.filter_eq_nil_iff, List.mem_flatMap, forall_exists_index, and_imp]
  constructor
  · intro h t entry hentry ht
    simpa using h entry hentry t ht
  · intro h entry hentry t ht
    simpa using h t entry hentry ht

/-- The registry after a vocabulary has replaced what it held. -/
def replaced (registry : Registry) (source : VocabularySource) : Registry :=
  (registry.retain fun held ↦ held.vocabulary ≠ source.name).extend (definitions source)

theorem get_replaced :
    (replaced registry source).get n = findTrigger registry (definitions source) source n := by
  rw [replaced, OrderedMap.get_extend, OrderedMap.get_retain]
  rfl

/-- Every entry may be held: nobody else and no later version holds its name. -/
def NotHeld (registry : Registry) (source : VocabularySource) : Prop :=
  ∀ entry ∈ source.entries, ∀ held, registry.get entry.name = some held →
    held.vocabulary = source.name ∧ held.vocabularyVersion ≤ source.version

/-- Every trigger that the vocabulary names is one after it has been added. -/
def TriggersHeld (registry : Registry) (source : VocabularySource) : Prop :=
  ∀ t ∈ newGenerations source, isTrigger ((replaced registry source).get t) = true

/-- The vocabulary resolves by itself. -/
def Resolves (source : VocabularySource) : Prop := (resolve OrderedMap.empty source).1 = []

theorem addInner_eq_ok {compiled : Bool} {added : List EntryDef} {registry' : Registry} :
    registry.addInner source compiled = .ok (added, registry') ↔
      (compiled = true ∨ compiledProblems source = []) ∧ Resolves source ∧
        NotHeld registry source ∧ TriggersHeld registry source ∧
        added = (definitions source).values ∧ registry' = replaced registry source := by
  -- a problem is one of the source itself, or a name that another vocabulary holds
  have hresolve : (resolve registry source).1 = [] ↔ Resolves source ∧ NotHeld registry source := by
    rw [resolve, foldl_resolveEntry_eq_nil]
    simp only [heldProblem_eq_none]
    rfl
  have hsame : NotHeld registry source → (resolve registry source).2 = definitions source := by
    intro h
    rw [definitions, resolve, resolve, foldl_resolveEntry_of_not_held]
    exact fun entry hentry ↦ heldProblem_eq_none.mpr (h entry hentry)
  rw [Registry.addInner]
  by_cases hcompiled : compiled = true ∨ compiledProblems source = []
  · rw [if_neg (by simpa [or_iff_not_imp_left] using hcompiled)]
    dsimp only
    by_cases hok : Resolves source ∧ NotHeld registry source
    · rw [hresolve.mpr hok, hsame hok.2, List.nil_append]
      have htriggers : unknownTriggers registry (definitions source) source = [] ↔
          TriggersHeld registry source := by
        rw [unknownTriggers_eq_nil, TriggersHeld]
        simp only [get_replaced]
      by_cases ht : TriggersHeld registry source
      · rw [if_neg (by simpa using htriggers.mpr ht)]
        simp only [Except.ok.injEq, Prod.mk.injEq, hcompiled, hok.1, hok.2, ht, true_and]
        exact and_congr eq_comm eq_comm
      · rw [if_pos (fun h ↦ ht (htriggers.mp h))]
        simp [ht]
    · rw [if_pos]
      · refine iff_of_false (by simp) ?_
        rintro ⟨-, h₁, h₂, -⟩
        exact hok ⟨h₁, h₂⟩
      · intro h
        exact hok (hresolve.mp (List.append_eq_nil_iff.mp h).1)
  · rw [if_pos (by simpa [not_or] using hcompiled)]
    simp [hcompiled]

theorem add_eq_ok {added : List EntryDef} {registry' : Registry} :
    registry.add source = .ok (added, registry') ↔
      compiledProblems source = [] ∧ Resolves source ∧ NotHeld registry source ∧
        TriggersHeld registry source ∧ added = (definitions source).values ∧
          registry' = replaced registry source := by
  rw [Registry.add, addInner_eq_ok, or_iff_right Bool.false_ne_true]

theorem addCompiled_eq_ok {added : List EntryDef} {registry' : Registry} :
    registry.addCompiled source = .ok (added, registry') ↔
      Resolves source ∧ NotHeld registry source ∧ TriggersHeld registry source ∧
        added = (definitions source).values ∧ registry' = replaced registry source := by
  rw [Registry.addCompiled, addInner_eq_ok, eq_self, true_or, true_and]

/-! ## The compiled vocabularies -/

/-- Entries of different names that are well formed are resolved without a problem, every one of
them. -/
theorem foldl_resolveEntry_of_defines {entries : List EntrySource}
    (hdefines : ∀ entry ∈ entries, (define source entry).toOption.isSome = true)
    (hnames : (entries.map EntrySource.name).Nodup) (state : List Problem × Registry)
    (hstate : state.1 = []) (hfresh : ∀ entry ∈ entries, state.2.get entry.name = none) :
    (entries.foldl (resolveEntry OrderedMap.empty source) state).1 = [] ∧
      (∀ n d, state.2.get n = some d →
        (entries.foldl (resolveEntry OrderedMap.empty source) state).2.get n = some d) ∧
      ∀ entry ∈ entries, ∃ d, define source entry = .ok d ∧
        (entries.foldl (resolveEntry OrderedMap.empty source) state).2.get entry.name = some d := by
  induction entries generalizing state with
  | nil => exact ⟨hstate, fun _ _ h ↦ h, fun _ h ↦ (List.not_mem_nil h).elim⟩
  | cons entry entries ih =>
    rw [List.forall_mem_cons] at hdefines hfresh
    rw [List.map_cons, List.nodup_cons] at hnames
    obtain ⟨d, hd⟩ : ∃ d, define source entry = .ok d := by
      rcases hdef : define source entry with problems | d
      · rw [hdef] at hdefines
        exact absurd hdefines.1 Bool.false_ne_true
      · exact ⟨d, rfl⟩
    -- resolved over the empty registry, an entry can only fail by itself
    have hstep : resolveEntry OrderedMap.empty source state entry =
        (state.1, state.2.insert entry.name d) := by
      rw [resolveEntry, hfresh.1, hd, heldProblem, OrderedMap.get_empty]
      rfl
    rw [List.foldl_cons, hstep]
    obtain ⟨hnil, hkeeps, hall⟩ := ih hdefines.2 hnames.2
      (state.1, state.2.insert entry.name d) hstate (fun e he ↦ by
        rw [OrderedMap.get_insert, if_neg, hfresh.2 e he]
        intro hname
        exact hnames.1 (hname ▸ List.mem_map_of_mem he))
    refine ⟨hnil, fun n d' hget ↦ hkeeps n d' ?_, List.forall_mem_cons.mpr ⟨⟨d, hd, ?_⟩, hall⟩⟩
    · rw [OrderedMap.get_insert, if_neg, hget]
      rintro rfl
      cases hget.symm.trans hfresh.1
    · refine hkeeps _ _ ?_
      rw [OrderedMap.get_insert, if_pos rfl]

theorem resolves_of_defines (hdefines : ∀ entry ∈ source.entries,
      (define source entry).toOption.isSome = true)
    (hnames : (source.entries.map EntrySource.name).Nodup) :
    Resolves source ∧ ∀ entry ∈ source.entries, ∃ d, define source entry = .ok d ∧
      (definitions source).get entry.name = some d := by
  obtain ⟨hnil, -, hall⟩ := foldl_resolveEntry_of_defines hdefines hnames
    ([], OrderedMap.empty) rfl fun _ _ ↦ OrderedMap.get_empty _
  exact ⟨hnil, hall⟩

/-- The number that the bytes of a name spell. -/
def nameCode (name : String) : Nat :=
  name.toByteArray.data.toList.foldl (fun code byte ↦ code * 256 + byte.toNat) 1

/-- No name is compiled in twice: numbers are compared, which is quicker than comparing names. -/
theorem nodup_compiledEntryNames : compiledEntryNames.Nodup :=
  List.Nodup.of_map nameCode (by decide +kernel)

theorem compiled_names_disjoint {entry entry' : EntrySource} (h : entry ∈ coreVocabulary.entries)
    (h' : entry' ∈ prMergeVocabulary.entries) : entry.name ≠ entry'.name := by
  have hnodup := nodup_compiledEntryNames
  rw [compiledEntryNames, List.map_append, List.nodup_append] at hnodup
  exact hnodup.2.2 _ (List.mem_map_of_mem h) _ (List.mem_map_of_mem h')

theorem resolves_coreVocabulary : Resolves coreVocabulary ∧
    ∀ entry ∈ coreVocabulary.entries, ∃ d, define coreVocabulary entry = .ok d ∧
      (definitions coreVocabulary).get entry.name = some d := by
  have hnodup := nodup_compiledEntryNames
  rw [compiledEntryNames, List.map_append, List.nodup_append] at hnodup
  exact resolves_of_defines (by decide +kernel) hnodup.1

theorem resolves_prMergeVocabulary : Resolves prMergeVocabulary := by
  have hnodup := nodup_compiledEntryNames
  rw [compiledEntryNames, List.map_append, List.nodup_append] at hnodup
  exact (resolves_of_defines (by decide +kernel) hnodup.2.1).1

/-- The triggers that the subjects of the core vocabulary name are entries of it. -/
theorem newGenerations_coreVocabulary : ∀ t ∈ newGenerations coreVocabulary,
    ∃ entry ∈ coreVocabulary.entries, entry.name = t ∧ entry.kind = .trigger := by
  decide +kernel

theorem get_replaced_empty :
    (replaced OrderedMap.empty source).get n = (definitions source).get n := by
  rw [get_replaced, findTrigger, OrderedMap.get_empty]
  exact Option.or_none

theorem addCompiled_coreVocabulary :
    Registry.addCompiled OrderedMap.empty coreVocabulary =
      .ok ((definitions coreVocabulary).values, replaced OrderedMap.empty coreVocabulary) := by
  refine addCompiled_eq_ok.mpr ⟨resolves_coreVocabulary.1, ?_, ?_, rfl, rfl⟩
  · intro entry _ held hget
    rw [OrderedMap.get_empty] at hget
    cases hget
  · intro t ht
    obtain ⟨entry, hentry, rfl, hkind⟩ := newGenerations_coreVocabulary t ht
    obtain ⟨d, hd, hget⟩ := resolves_coreVocabulary.2 entry hentry
    rw [get_replaced_empty, hget]
    exact decide_eq_true ((define_ok hd).2.1.trans hkind)

theorem addCompiled_prMergeVocabulary :
    Registry.addCompiled (replaced OrderedMap.empty coreVocabulary) prMergeVocabulary =
      .ok ((definitions prMergeVocabulary).values,
        replaced (replaced OrderedMap.empty coreVocabulary) prMergeVocabulary) := by
  refine addCompiled_eq_ok.mpr ⟨resolves_prMergeVocabulary, ?_, ?_, rfl, rfl⟩
  · intro entry hentry held hget
    rw [get_replaced_empty] at hget
    obtain ⟨entry', hentry', hname⟩ := mem_entries_of_definitions hget
    exact absurd hname (compiled_names_disjoint hentry' hentry)
  · intro t ht
    cases ht

namespace Registry

theorem loadCompiled_isSome : loadCompiled.toOption.isSome = true := by
  rw [loadCompiled, addCompiled_coreVocabulary, ok_bind]
  dsimp only
  rw [addCompiled_prMergeVocabulary]
  rfl

/-- The compiled vocabularies are consistent, and this is the registry they make. -/
def core : Registry := loadCompiled.toOption.get loadCompiled_isSome

theorem loadCompiled_eq : loadCompiled = .ok core := by
  have h : loadCompiled.toOption = some core := (Option.some_get _).symm
  cases hload : loadCompiled with
  | error problems => rw [hload] at h; exact absurd h (Option.some_ne_none _).symm
  | ok registry => rw [hload] at h; rw [Option.some.inj h]

end Registry

end Charter

end Khive
