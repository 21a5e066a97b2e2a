import Khive.Charter.Resolution

/-!
# Loading stored vocabularies

Stored vocabularies are loaded over the compiled ones in the order of their names and versions. The
order matters only for what is refused: whatever is loaded, the registry holds the compiled entries
and the definitions of the versions in force, which are the highest stored ones. `replay_eq_ok` says
when the load succeeds, vocabulary by vocabulary and without the order, and `replay_publish` compares
it with the check that was made when the last vocabulary was published.
-/

namespace Khive

namespace Charter

variable {registry registry' : Registry} {stored stored' : List VocabularySource}
  {source t u : VocabularySource} {d : EntryDef} {n : String}

/-! ## The compiled vocabularies -/

theorem compiledProblems_eq_nil (h : compiledProblems source = []) :
    source.name ∉ compiledVocabularyNames ∧
      ∀ entry ∈ source.entries, entry.name ∉ compiledEntryNames := by
  obtain ⟨hname, hentries⟩ := List.append_eq_nil_iff.mp h
  constructor
  · intro hmem
    rw [if_pos hmem] at hname
    cases hname
  · intro entry hentry hmem
    have hnil := List.flatMap_eq_nil_iff.mp hentries entry hentry
    rw [if_pos hmem] at hnil
    cases hnil

theorem loadCompiled_eq_ok (h : Registry.loadCompiled = .ok registry) :
    registry = replaced (replaced OrderedMap.empty coreVocabulary) prMergeVocabulary ∧
      TriggersHeld OrderedMap.empty coreVocabulary ∧
      NotHeld (replaced OrderedMap.empty coreVocabulary) prMergeVocabulary ∧
      TriggersHeld (replaced OrderedMap.empty coreVocabulary) prMergeVocabulary := by
  rw [Registry.loadCompiled] at h
  obtain ⟨a, hcore, h⟩ := bind_eq_ok.mp h
  obtain ⟨b, hpr, h⟩ := bind_eq_ok.mp h
  obtain ⟨-, -, htriggers, -, ha⟩ := addCompiled_eq_ok.mp hcore
  rw [ha] at hpr
  obtain ⟨-, hheld, htriggers', -, hb⟩ := addCompiled_eq_ok.mp hpr
  exact ⟨(pure_eq_ok.mp h).symm.trans hb, htriggers, hheld, htriggers'⟩

theorem get_replaced_eq_some :
    (replaced registry source).get n = some d ↔
      (definitions source).get n = some d ∨
        (definitions source).get n = none ∧ registry.get n = some d ∧ d.vocabulary ≠ source.name := by
  rw [get_replaced, findTrigger, Option.or_eq_some_iff, Option.filter_eq_some_iff,
    decide_eq_true_iff]

/-- A compiled entry is one of the two compiled vocabularies'. -/
theorem core_get (h : Registry.core.get n = some d) :
    (definitions prMergeVocabulary).get n = some d ∨ (definitions coreVocabulary).get n = some d := by
  rw [(loadCompiled_eq_ok Registry.loadCompiled_eq).1, get_replaced_eq_some, get_replaced_empty] at h
  exact h.imp_right fun h ↦ h.2.1

theorem core_vocabulary (h : Registry.core.get n = some d) :
    d.vocabulary ∈ compiledVocabularyNames := by
  rcases core_get h with h | h
  · rw [definitions_vocabulary h]
    exact List.mem_cons_of_mem _ List.mem_cons_self
  · rw [definitions_vocabulary h]
    exact List.mem_cons_self

theorem core_name (h : Registry.core.get n = some d) : n ∈ compiledEntryNames := by
  rcases core_get h with h | h
  · obtain ⟨entry, hentry, rfl⟩ := mem_entries_of_definitions h
    exact List.mem_map_of_mem (List.mem_append_right _ hentry)
  · obtain ⟨entry, hentry, rfl⟩ := mem_entries_of_definitions h
    exact List.mem_map_of_mem (List.mem_append_left _ hentry)

theorem core_of_not_mem (h : n ∉ compiledEntryNames) : Registry.core.get n = none :=
  Option.eq_none_iff_forall_ne_some.mpr fun _ hd ↦ h (core_name hd)

/-- The compiled subjects name triggers that the registry holds. -/
theorem core_triggers (h : Registry.core.get n = some d) {name : String}
    (hname : name ∈ d.newGeneration) : isTrigger (Registry.core.get name) = true := by
  obtain ⟨heq, hcore, hheld, hpr⟩ := loadCompiled_eq_ok Registry.loadCompiled_eq
  rcases core_get h with h | h
  · have htrigger := hpr name (mem_newGenerations_of_definitions h hname)
    rwa [← heq] at htrigger
  · have htrigger := hcore name (mem_newGenerations_of_definitions h hname)
    rw [get_replaced_empty] at htrigger
    obtain ⟨e, he, -⟩ := (Option.any_eq_true _ _).mp htrigger
    have hsome : Registry.core.get name = some e := by
      rw [heq, get_replaced_eq_some, get_replaced_empty]
      have hcoreName : e.vocabulary ≠ prMergeVocabulary.name := by
        rw [definitions_vocabulary he]
        decide
      refine Or.inr ⟨?_, he, hcoreName⟩
      -- the second vocabulary holds no name of the first
      rw [Option.eq_none_iff_forall_ne_some]
      intro e' he'
      obtain ⟨entry, hentry, rfl⟩ := mem_entries_of_definitions he'
      exact hcoreName (hheld entry hentry e (by rw [get_replaced_empty]; exact he)).1
    rw [hsome, ← he]
    exact htrigger

/-! ## Versions in force -/

/-- The highest stored version of its vocabulary. -/
def InForce (stored : List VocabularySource) (t : VocabularySource) : Prop :=
  t ∈ stored ∧ ∀ u ∈ stored, u.name = t.name → u.version ≤ t.version

/-- The registry holds the compiled entries and the definitions of the versions in force. -/
def HoldsLatest (stored : List VocabularySource) (registry : Registry) : Prop :=
  ∀ n d, registry.get n = some d ↔
    Registry.core.get n = some d ∨ ∃ t, InForce stored t ∧ (definitions t).get n = some d

theorem HoldsLatest.isTrigger (h : HoldsLatest stored registry) :
    isTrigger (registry.get n) = true ↔
      isTrigger (Registry.core.get n) = true ∨
        ∃ t, InForce stored t ∧ isTrigger ((definitions t).get n) = true := by
  simp only [Charter.isTrigger, Option.any_eq_true, h n]
  constructor
  · rintro ⟨d, hd | ⟨t, ht, hd⟩, hk⟩
    · exact Or.inl ⟨d, hd, hk⟩
    · exact Or.inr ⟨t, ht, d, hd, hk⟩
  · rintro (⟨d, hd, hk⟩ | ⟨t, ht, d, hd, hk⟩)
    · exact ⟨d, Or.inl hd, hk⟩
    · exact ⟨d, Or.inr ⟨t, ht, hd⟩, hk⟩

/-- The stored vocabularies with one more. -/
def Adds (stored stored' : List VocabularySource) (source : VocabularySource) : Prop :=
  ∀ t, t ∈ stored' ↔ t = source ∨ t ∈ stored

/-- No stored version of the vocabulary reaches the new one. -/
def Newest (stored : List VocabularySource) (source : VocabularySource) : Prop :=
  ∀ t ∈ stored, t.name = source.name → t.version < source.version

theorem Adds.inForce_of_newest (hadds : Adds stored stored' source) (hnew : Newest stored source) :
    InForce stored' t ↔ t = source ∨ InForce stored t ∧ t.name ≠ source.name := by
  constructor
  · rintro ⟨ht, hmax⟩
    rcases (hadds t).mp ht with rfl | ht
    · exact Or.inl rfl
    · refine Or.inr ⟨⟨ht, fun u hu ↦ hmax u ((hadds u).mpr (Or.inr hu))⟩, fun hname ↦ ?_⟩
      exact absurd (hnew t ht hname) (hmax source ((hadds source).mpr (Or.inl rfl)) hname.symm).not_gt
  · rintro (rfl | ⟨⟨ht, hmax⟩, hname⟩)
    · refine ⟨(hadds t).mpr (Or.inl rfl), fun u hu hu' ↦ ?_⟩
      rcases (hadds u).mp hu with rfl | hu
      · exact le_rfl
      · exact (hnew u hu hu').le
    · refine ⟨(hadds t).mpr (Or.inr ht), fun u hu hu' ↦ ?_⟩
      rcases (hadds u).mp hu with rfl | hu
      · exact absurd hu'.symm hname
      · exact hmax u hu hu'

/-- Vocabularies of other names are in force as before. -/
theorem Adds.inForce_of_ne (hadds : Adds stored stored' source) (hname : t.name ≠ source.name) :
    InForce stored' t ↔ InForce stored t := by
  constructor
  · rintro ⟨ht, hmax⟩
    rcases (hadds t).mp ht with rfl | ht
    · exact absurd rfl hname
    · exact ⟨ht, fun u hu ↦ hmax u ((hadds u).mpr (Or.inr hu))⟩
  · rintro ⟨ht, hmax⟩
    refine ⟨(hadds t).mpr (Or.inr ht), fun u hu hu' ↦ ?_⟩
    rcases (hadds u).mp hu with rfl | hu
    · exact absurd hu'.symm hname
    · exact hmax u hu hu'

/-- Adding the newest version of a vocabulary puts it in force, and leaves the others. -/
theorem HoldsLatest.replaced (h : HoldsLatest stored registry) (hadds : Adds stored stored' source)
    (hnew : Newest stored source) (hcompiled : compiledProblems source = [])
    (hheld : NotHeld registry source) : HoldsLatest stored' (replaced registry source) := by
  obtain ⟨hname, hentries⟩ := compiledProblems_eq_nil hcompiled
  intro n d
  rw [get_replaced_eq_some]
  constructor
  · rintro (hd | ⟨-, hd, hne⟩)
    · exact Or.inr ⟨source, (hadds.inForce_of_newest hnew).mpr (Or.inl rfl), hd⟩
    · rcases (h n d).mp hd with hd | ⟨t, ht, hd⟩
      · exact Or.inl hd
      · rw [definitions_vocabulary hd] at hne
        exact Or.inr ⟨t, (hadds.inForce_of_newest hnew).mpr (Or.inr ⟨ht, hne⟩), hd⟩
  · -- an entry that another vocabulary holds is not one of the new definitions
    have hother : registry.get n = some d → d.vocabulary ≠ source.name →
        (definitions source).get n = some d ∨
          (definitions source).get n = none ∧ registry.get n = some d ∧
            d.vocabulary ≠ source.name := by
      intro hd hne
      refine Or.inr ⟨Option.eq_none_iff_forall_ne_some.mpr fun e he ↦ ?_, hd, hne⟩
      obtain ⟨entry, hentry, rfl⟩ := mem_entries_of_definitions he
      exact hne (hheld entry hentry d hd).1
    rintro (hd | ⟨t, ht, hd⟩)
    · refine hother ((h n d).mpr (Or.inl hd)) fun heq ↦ hname ?_
      rw [← heq]
      exact core_vocabulary hd
    · rcases (hadds.inForce_of_newest hnew).mp ht with rfl | ⟨ht, hne⟩
      · exact Or.inl hd
      · refine hother ((h n d).mpr (Or.inr ⟨t, ht, hd⟩)) ?_
        rwa [definitions_vocabulary hd]

/-! ## Loading in order -/

/-- The order of `name, version`. -/
def Precedes (t u : VocabularySource) : Prop :=
  t.name < u.name ∨ t.name = u.name ∧ t.version < u.version

/-- Add the vocabularies one after the other. -/
def replay (registry : Registry) (stored : List VocabularySource) :
    Except (List Problem) Registry :=
  stored.foldlM (fun registry source ↦ (registry.add source).map Prod.snd) registry

/-- A trigger of the compiled vocabularies or of a version in force, named below. -/
def HeldBelow (stored : List VocabularySource) (t : VocabularySource) (n : String) : Prop :=
  isTrigger (Registry.core.get n) = true ∨
    ∃ u, InForce stored u ∧ u.name < t.name ∧ isTrigger ((definitions u).get n) = true

/-- What the load asks of a stored vocabulary: it may be published and resolves by itself, the
versions in force that are loaded before it hold none of its names, and every trigger that it names
is its own or held by then. -/
structure Fits (stored : List VocabularySource) (t : VocabularySource) : Prop where
  publishable : compiledProblems t = []
  resolves : Resolves t
  names : ∀ u, InForce stored u → u.name < t.name →
    ∀ entry ∈ t.entries, (definitions u).get entry.name = none
  triggers : ∀ n ∈ newGenerations t,
    isTrigger ((definitions t).get n) = true ∨ HeldBelow stored t n

theorem Adds.append (stored : List VocabularySource) (source : VocabularySource) :
    Adds stored (stored ++ [source]) source := by
  intro t
  rw [List.mem_append, List.mem_singleton, or_comm]

theorem Adds.heldBelow (hadds : Adds stored stored' source) (h : ¬source.name < t.name) :
    HeldBelow stored' t n ↔ HeldBelow stored t n := by
  refine or_congr_right (exists_congr fun u ↦ ?_)
  constructor
  · rintro ⟨hu, hlt, ht⟩
    exact ⟨(hadds.inForce_of_ne fun heq ↦ h (heq ▸ hlt)).mp hu, hlt, ht⟩
  · rintro ⟨hu, hlt, ht⟩
    exact ⟨(hadds.inForce_of_ne fun heq ↦ h (heq ▸ hlt)).mpr hu, hlt, ht⟩

/-- A vocabulary that is loaded later does not matter. -/
theorem Adds.fits (hadds : Adds stored stored' source) (h : ¬source.name < t.name) :
    Fits stored' t ↔ Fits stored t := by
  have hforce : ∀ u, u.name < t.name → (InForce stored' u ↔ InForce stored u) := fun u hlt ↦
    hadds.inForce_of_ne fun heq ↦ h (heq ▸ hlt)
  constructor
  · intro hfits
    exact ⟨hfits.publishable, hfits.resolves, fun u hu hlt ↦ hfits.names u ((hforce u hlt).mpr hu) hlt,
      fun n hn ↦ (hfits.triggers n hn).imp_right (hadds.heldBelow h).mp⟩
  · intro hfits
    exact ⟨hfits.publishable, hfits.resolves, fun u hu hlt ↦ hfits.names u ((hforce u hlt).mp hu) hlt,
      fun n hn ↦ (hfits.triggers n hn).imp_right (hadds.heldBelow h).mpr⟩

theorem newest_of_precedes (h : ∀ t ∈ stored, Precedes t source) : Newest stored source := by
  intro t ht hname
  rcases h t ht with hlt | ⟨-, hlt⟩
  · exact absurd hname hlt.ne
  · exact hlt

/-- Against the versions in force, nobody else holds a name of the vocabulary. -/
theorem notHeld_iff (h : HoldsLatest stored registry) (hnew : Newest stored source)
    (hcompiled : compiledProblems source = []) :
    NotHeld registry source ↔ ∀ u, InForce stored u → u.name ≠ source.name →
      ∀ entry ∈ source.entries, (definitions u).get entry.name = none := by
  obtain ⟨-, hentries⟩ := compiledProblems_eq_nil hcompiled
  constructor
  · intro hheld u hu hne entry hentry
    rw [Option.eq_none_iff_forall_ne_some]
    intro d hd
    have hvocabulary := (hheld entry hentry d ((h _ _).mpr (Or.inr ⟨u, hu, hd⟩))).1
    rw [definitions_vocabulary hd] at hvocabulary
    exact hne hvocabulary
  · intro hfree entry hentry held hget
    rcases (h _ _).mp hget with hcore | ⟨u, hu, hd⟩
    · exact absurd (core_name hcore) (hentries entry hentry)
    · have hname : u.name = source.name := by
        by_contra hne
        rw [hfree u hu hne entry hentry] at hd
        cases hd
      rw [definitions_vocabulary hd, definitions_version hd]
      exact ⟨hname, (hnew u hu.1 hname).le⟩

/-- Against what was loaded before, the vocabulary is accepted exactly when it fits. -/
theorem fits_iff_add (h : HoldsLatest stored registry)
    (hsorted : ∀ t ∈ stored, Precedes t source) :
    Fits (stored ++ [source]) source ↔
      compiledProblems source = [] ∧ Resolves source ∧ NotHeld registry source ∧
        TriggersHeld registry source := by
  have hadds := Adds.append stored source
  have hnew := newest_of_precedes hsorted
  -- what is in force before is named below, or is replaced
  have hbelow : ∀ u, InForce stored u → u.name ≠ source.name → u.name < source.name := by
    intro u hu hne
    exact (hsorted u hu.1).resolve_right fun heq ↦ hne heq.1
  have hforce : ∀ u, u.name < source.name →
      (InForce (stored ++ [source]) u ↔ InForce stored u) := fun u hlt ↦
    hadds.inForce_of_ne hlt.ne
  have hnames : compiledProblems source = [] → (NotHeld registry source ↔
      ∀ u, InForce (stored ++ [source]) u → u.name < source.name →
        ∀ entry ∈ source.entries, (definitions u).get entry.name = none) := by
    intro hcompiled
    rw [notHeld_iff h hnew hcompiled]
    exact ⟨fun hfree u hu hlt ↦ hfree u ((hforce u hlt).mp hu) hlt.ne,
      fun hfree u hu hne ↦ hfree u ((hforce u (hbelow u hu hne)).mpr hu) (hbelow u hu hne)⟩
  have htriggers : compiledProblems source = [] → NotHeld registry source →
      (TriggersHeld registry source ↔ ∀ n ∈ newGenerations source,
        isTrigger ((definitions source).get n) = true ∨ HeldBelow (stored ++ [source]) source n) := by
    intro hcompiled hheld
    refine forall₂_congr fun n hn ↦ ?_
    rw [(h.replaced hadds hnew hcompiled hheld).isTrigger]
    constructor
    · rintro (hcore | ⟨u, hu, ht⟩)
      · exact Or.inr (Or.inl hcore)
      · rcases (hadds.inForce_of_newest hnew).mp hu with rfl | ⟨hu', hne⟩
        · exact Or.inl ht
        · exact Or.inr (Or.inr ⟨u, hu, hbelow u hu' hne, ht⟩)
    · rintro (ht | hcore | ⟨u, hu, -, ht⟩)
      · exact Or.inr ⟨source, (hadds.inForce_of_newest hnew).mpr (Or.inl rfl), ht⟩
      · exact Or.inl hcore
      · exact Or.inr ⟨u, hu, ht⟩
  constructor
  · intro hfits
    have hheld := (hnames hfits.publishable).mpr hfits.names
    exact ⟨hfits.publishable, hfits.resolves, hheld,
      (htriggers hfits.publishable hheld).mpr hfits.triggers⟩
  · rintro ⟨hcompiled, hresolves, hheld, ht⟩
    exact ⟨hcompiled, hresolves, (hnames hcompiled).mp hheld, (htriggers hcompiled hheld).mp ht⟩

theorem holdsLatest_core : HoldsLatest [] Registry.core := by
  intro n d
  refine ⟨Or.inl, ?_⟩
  rintro (h | ⟨t, ⟨ht, -⟩, -⟩)
  · exact h
  · exact absurd ht List.not_mem_nil

theorem replay_append (registry : Registry) (stored : List VocabularySource)
    (source : VocabularySource) :
    replay registry (stored ++ [source]) =
      (do let registry ← replay registry stored; (registry.add source).map Prod.snd) := by
  rw [replay, List.foldlM_append]
  refine bind_congr fun registry ↦ ?_
  rw [List.foldlM_cons]
  exact bind_pure _

/-- The load in order succeeds exactly when every vocabulary fits, and then the registry holds the
versions in force. -/
theorem replay_eq_ok (hsorted : stored.Pairwise Precedes) :
    ((∃ registry, replay Registry.core stored = .ok registry) ↔ ∀ t ∈ stored, Fits stored t) ∧
      ∀ registry, replay Registry.core stored = .ok registry → HoldsLatest stored registry := by
  induction stored using List.reverseRecOn with
  | nil =>
    refine ⟨iff_of_true ⟨_, rfl⟩ (by simp), fun registry h ↦ ?_⟩
    rw [← Except.ok.inj h]
    exact holdsLatest_core
  | append_singleton stored source ih =>
    obtain ⟨hstored, -, hlast⟩ := List.pairwise_append.mp hsorted
    have hprecedes : ∀ t ∈ stored, Precedes t source := fun t ht ↦
      hlast t ht source List.mem_cons_self
    obtain ⟨hok, hholds⟩ := ih hstored
    have hadds := Adds.append stored source
    -- the vocabularies before it fit as they did without it
    have hbefore : (∀ t ∈ stored, Fits (stored ++ [source]) t) ↔ ∀ t ∈ stored, Fits stored t := by
      refine forall₂_congr fun t ht ↦ hadds.fits ?_
      rcases hprecedes t ht with hlt | ⟨heq, -⟩
      · exact hlt.not_gt
      · rw [heq]
        exact lt_irrefl _
    have hall : (∀ t ∈ stored ++ [source], Fits (stored ++ [source]) t) ↔
        (∀ t ∈ stored, Fits stored t) ∧ Fits (stored ++ [source]) source := by
      rw [List.forall_mem_append, hbefore, List.forall_mem_singleton]
    rw [hall, ← hok, replay_append]
    constructor
    · constructor
      · rintro ⟨registry', h⟩
        obtain ⟨registry, hreplay, h⟩ := bind_eq_ok.mp h
        obtain ⟨⟨added, r⟩, hadd, -⟩ := map_eq_ok.mp h
        obtain ⟨h₁, h₂, h₃, h₄, -⟩ := add_eq_ok.mp hadd
        exact ⟨⟨registry, hreplay⟩,
          (fits_iff_add (hholds registry hreplay) hprecedes).mpr ⟨h₁, h₂, h₃, h₄⟩⟩
      · rintro ⟨⟨registry, hreplay⟩, hfits⟩
        obtain ⟨h₁, h₂, h₃, h₄⟩ := (fits_iff_add (hholds registry hreplay) hprecedes).mp hfits
        refine ⟨replaced registry source, bind_eq_ok.mpr ⟨registry, hreplay, ?_⟩⟩
        exact map_eq_ok.mpr ⟨(_, _), add_eq_ok.mpr ⟨h₁, h₂, h₃, h₄, rfl, rfl⟩, rfl⟩
    · intro registry' h
      obtain ⟨registry, hreplay, h⟩ := bind_eq_ok.mp h
      obtain ⟨⟨added, r⟩, hadd, rfl⟩ := map_eq_ok.mp h
      obtain ⟨hcompiled, -, hheld, -, -, hr⟩ := add_eq_ok.mp hadd
      rw [hr]
      exact (hholds registry hreplay).replaced hadds (newest_of_precedes hprecedes) hcompiled hheld

/-- Two registries with the versions in force of the same vocabularies are one. -/
theorem HoldsLatest.unique (h : HoldsLatest stored registry) (h' : HoldsLatest stored registry') :
    registry = registry' :=
  OrderedMap.ext_get fun n ↦ Option.ext fun d ↦ (h n d).trans (h' n d).symm

/-- The subjects of a loaded registry name triggers that it holds. -/
theorem HoldsLatest.triggers_held (h : HoldsLatest stored registry)
    (hfits : ∀ t ∈ stored, Fits stored t) (hd : registry.get n = some d) {name : String}
    (hname : name ∈ d.newGeneration) : Charter.isTrigger (registry.get name) = true := by
  rw [h.isTrigger]
  rcases (h n d).mp hd with hd | ⟨t, ht, hd⟩
  · exact Or.inl (core_triggers hd hname)
  · rcases (hfits t ht.1).triggers name (mem_newGenerations_of_definitions hd hname) with
      htrigger | hcore | ⟨u, hu, -, htrigger⟩
    · exact Or.inr ⟨t, ht, htrigger⟩
    · exact Or.inl hcore
    · exact Or.inr ⟨u, hu, htrigger⟩

/-! ## Publishing -/

/-- What keeps the stored vocabularies loadable when one more is accepted. The load takes them by
name, so nothing may depend on a vocabulary of a later name, and it takes every stored version, not
only the one in force. -/
structure Lasting (stored : List VocabularySource) (source : VocabularySource) : Prop where
  /-- It is the highest version of its vocabulary, or neither it nor the one in force declares
  anything. -/
  newest : Newest stored source ∨ (∀ n, (definitions source).get n = none) ∧
    ∀ t, InForce stored t → t.name = source.name → ∀ n, (definitions t).get n = none
  /-- Every trigger it names is its own, a compiled one, or held by a vocabulary named below. -/
  triggers : ∀ n ∈ newGenerations source,
    isTrigger ((definitions source).get n) = true ∨ HeldBelow stored source n
  /-- No stored version of a vocabulary named above has an entry of a name that it declares. -/
  names : ∀ t ∈ stored, source.name < t.name →
    ∀ entry ∈ t.entries, (definitions source).get entry.name = none
  /-- It keeps every trigger that a stored version of a vocabulary named above takes from the
  version in force. -/
  kept : ∀ t ∈ stored, source.name < t.name → ∀ n ∈ newGenerations t,
    isTrigger ((definitions t).get n) = false → ∀ u, InForce stored u → u.name = source.name →
      isTrigger ((definitions u).get n) = true → isTrigger ((definitions source).get n) = true

section Publish

variable (hadds : Adds stored stored' source) (hsorted : stored.Pairwise Precedes)
  (hsorted' : stored'.Pairwise Precedes)
  (hfresh : ∀ t ∈ stored, t.name = source.name → t.version ≠ source.version)
  (hreplay : replay Registry.core stored = .ok registry)
  (hcompiled : compiledProblems source = []) (hresolves : Resolves source)
  (hheld : NotHeld registry source) (htriggers : TriggersHeld registry source)

include hadds hsorted hsorted' hfresh hreplay hcompiled hheld

/-- What the publication computed is loaded only if the publication is lasting. -/
theorem lasting_of_replay
    (hreplay' : replay Registry.core stored' = .ok (replaced registry source)) :
    Lasting stored source := by
  have hholds := (replay_eq_ok hsorted).2 registry hreplay
  have hholds' := (replay_eq_ok hsorted').2 _ hreplay'
  have hfits := (replay_eq_ok hsorted).1.mp ⟨_, hreplay⟩
  have hfits' := (replay_eq_ok hsorted').1.mp ⟨_, hreplay'⟩
  have hname := (compiledProblems_eq_nil hcompiled).1
  have hsource : Fits stored' source := hfits' source ((hadds source).mpr (Or.inl rfl))
  -- an older version replaces the one in force at publication, but not in the load
  have hnewest : Newest stored source ∨ (∀ n, (definitions source).get n = none) ∧
      ∀ t, InForce stored t → t.name = source.name → ∀ n, (definitions t).get n = none := by
    by_cases hnew : Newest stored source
    · exact Or.inl hnew
    · right
      have hnew' : ∃ t ∈ stored, t.name = source.name ∧ source.version ≤ t.version := by
        simpa only [Newest, not_forall, not_lt, exists_prop] using hnew
      obtain ⟨t₀, ht₀, hname₀, hle₀⟩ := hnew'
      have hlt₀ : source.version < t₀.version :=
        lt_of_le_of_ne hle₀ (hfresh t₀ ht₀ hname₀).symm
      constructor
      · intro n
        rw [Option.eq_none_iff_forall_ne_some]
        intro d hd
        rcases (hholds' n d).mp (get_replaced_eq_some.mpr (Or.inl hd)) with hcore | ⟨u, hu, hd'⟩
        · have hvocabulary := core_vocabulary hcore
          rw [definitions_vocabulary hd] at hvocabulary
          exact hname hvocabulary
        · have huname : u.name = source.name := by
            rw [← definitions_vocabulary hd', definitions_vocabulary hd]
          have huversion : u.version = source.version := by
            rw [← definitions_version hd', definitions_version hd]
          have hmax := hu.2 t₀ ((hadds t₀).mpr (Or.inr ht₀)) (hname₀.trans huname.symm)
          omega
      · intro t ht htname n
        rw [Option.eq_none_iff_forall_ne_some]
        intro d hd
        have hlt : source.version < t.version :=
          hlt₀.trans_le (ht.2 t₀ ht₀ (hname₀.trans htname.symm))
        have ht' : InForce stored' t := by
          refine ⟨(hadds t).mpr (Or.inr ht.1), fun u hu huname ↦ ?_⟩
          rcases (hadds u).mp hu with rfl | hu
          · exact hlt.le
          · exact ht.2 u hu huname
        rcases get_replaced_eq_some.mp ((hholds' n d).mpr (Or.inr ⟨t, ht', hd⟩)) with
          hd' | ⟨-, -, hne⟩
        · have hversion := (definitions_version hd').symm.trans (definitions_version hd)
          omega
        · exact hne ((definitions_vocabulary hd).trans htname)
  -- what is in force in the load, and is not the new one, was in force before
  have hbefore : ∀ u, InForce stored' u → u ≠ source → InForce stored u := by
    intro u hu hne
    exact ⟨((hadds u).mp hu.1).resolve_left hne,
      fun v hv ↦ hu.2 v ((hadds v).mpr (Or.inr hv))⟩
  refine ⟨hnewest, fun n hn ↦ ?_, fun t ht hlt entry hentry ↦ ?_, ?_⟩
  · refine (hsource.triggers n hn).imp_right fun h ↦ (hadds.heldBelow (lt_irrefl _)).mp h
  · rcases hnewest with hnew | ⟨hnone, -⟩
    · have hforce := (hadds.inForce_of_newest hnew).mpr (Or.inl rfl)
      exact (hfits' t ((hadds t).mpr (Or.inr ht))).names source hforce hlt entry hentry
    · exact hnone _
  · intro t ht hlt n hn hown u hu huname htrigger
    obtain ⟨d, hd, -⟩ := (Option.any_eq_true _ _).mp htrigger
    rcases (hfits' t ((hadds t).mpr (Or.inr ht))).triggers n hn with h | hcore | ⟨w, hw, -, hwt⟩
    · rw [h] at hown
      cases hown
    · -- published entries are not compiled ones
      obtain ⟨e, he, -⟩ := (Option.any_eq_true _ _).mp hcore
      obtain ⟨entry, hentry, rfl⟩ := mem_entries_of_definitions hd
      exact absurd (core_name he)
        ((compiledProblems_eq_nil (hfits u hu.1).publishable).2 entry hentry)
    · by_cases hws : w = source
      · rwa [hws] at hwt
      · obtain ⟨e, he, -⟩ := (Option.any_eq_true _ _).mp hwt
        have hw' := hbefore w hw hws
        have heq : some d = some e :=
          ((hholds n d).mpr (Or.inr ⟨u, hu, hd⟩)).symm.trans
            ((hholds n e).mpr (Or.inr ⟨w, hw', he⟩))
        have hwname : w.name = source.name := by
          rw [← definitions_vocabulary he, ← Option.some.inj heq, definitions_vocabulary hd, huname]
        -- the new version is not in force, so nothing of the vocabulary is
        rcases hnewest with hnew | ⟨-, hnone⟩
        · exact absurd hwname (((hadds.inForce_of_newest hnew).mp hw).resolve_left hws).2
        · rw [hnone w hw' hwname n] at he
          cases he

include htriggers hresolves

/-- A lasting publication is loaded as it was computed. -/
theorem replay_of_lasting (hlasting : Lasting stored source) :
    replay Registry.core stored' = .ok (replaced registry source) := by
  have hholds := (replay_eq_ok hsorted).2 registry hreplay
  have hfits := (replay_eq_ok hsorted).1.mp ⟨_, hreplay⟩
  have hname := (compiledProblems_eq_nil hcompiled).1
  have hbefore : ∀ u, InForce stored' u → u = source ∨ InForce stored u := by
    intro u hu
    by_cases hus : u = source
    · exact Or.inl hus
    · exact Or.inr ⟨((hadds u).mp hu.1).resolve_left hus,
        fun v hv ↦ hu.2 v ((hadds v).mpr (Or.inr hv))⟩
  -- a version that was in force still is, or the new one has taken its place
  have hafter : ∀ u, InForce stored u →
      InForce stored' u ∨ u.name = source.name ∧ InForce stored' source := by
    intro u hu
    by_cases huname : u.name = source.name
    · by_cases hle : source.version ≤ u.version
      · left
        refine ⟨(hadds u).mpr (Or.inr hu.1), fun v hv hvname ↦ ?_⟩
        rcases (hadds v).mp hv with rfl | hv
        · exact hle
        · exact hu.2 v hv hvname
      · refine Or.inr ⟨huname, (hadds source).mpr (Or.inl rfl), fun v hv hvname ↦ ?_⟩
        rcases (hadds v).mp hv with rfl | hv
        · exact le_rfl
        · exact (hu.2 v hv (hvname.trans huname.symm)).trans (not_le.mp hle).le
    · exact Or.inl ((hadds.inForce_of_ne huname).mpr hu)
  have hfits' : ∀ t ∈ stored', Fits stored' t := by
    intro t ht
    rcases (hadds t).mp ht with rfl | ht
    · refine ⟨hcompiled, hresolves, fun u hu hlt entry hentry ↦ ?_, fun n hn ↦ ?_⟩
      · rw [Option.eq_none_iff_forall_ne_some]
        intro d hd
        have hu' : InForce stored u := (hadds.inForce_of_ne hlt.ne).mp hu
        have hvocabulary := (hheld entry hentry d ((hholds _ _).mpr (Or.inr ⟨u, hu', hd⟩))).1
        rw [definitions_vocabulary hd] at hvocabulary
        exact absurd hvocabulary hlt.ne
      · exact (hlasting.triggers n hn).imp_right (hadds.heldBelow (lt_irrefl _)).mpr
    · have hold := hfits t ht
      refine ⟨hold.publishable, hold.resolves, fun u hu hlt entry hentry ↦ ?_, fun n hn ↦ ?_⟩
      · rcases hbefore u hu with rfl | hu
        · exact hlasting.names t ht hlt entry hentry
        · exact hold.names u hu hlt entry hentry
      · by_cases hown : isTrigger ((definitions t).get n) = true
        · exact Or.inl hown
        · rcases hold.triggers n hn with h | hcore | ⟨u, hu, hlt, htrigger⟩
          · exact absurd h hown
          · exact Or.inr (Or.inl hcore)
          · rcases hafter u hu with hu' | ⟨huname, hsource⟩
            · exact Or.inr (Or.inr ⟨u, hu', hlt, htrigger⟩)
            · rw [huname] at hlt
              exact Or.inr (Or.inr ⟨source, hsource, hlt, hlasting.kept t ht hlt n hn
                (Bool.eq_false_iff.mpr hown) u hu huname htrigger⟩)
  obtain ⟨registry', hreplay'⟩ := (replay_eq_ok hsorted').1.mpr hfits'
  have hholds' := (replay_eq_ok hsorted').2 _ hreplay'
  suffices h : HoldsLatest stored' (replaced registry source) by rw [hreplay', hholds'.unique h]
  rcases hlasting.newest with hnew | ⟨hnone, hnone'⟩
  · exact hholds.replaced hadds hnew hcompiled hheld
  · -- nothing was held for the vocabulary and nothing is
    intro n d
    rw [get_replaced_eq_some, hnone n]
    simp only [reduceCtorEq, false_or, true_and]
    constructor
    · rintro ⟨hd, hne⟩
      rcases (hholds n d).mp hd with hd | ⟨u, hu, hd⟩
      · exact Or.inl hd
      · rw [definitions_vocabulary hd] at hne
        exact Or.inr ⟨u, (hadds.inForce_of_ne hne).mpr hu, hd⟩
    · rintro (hd | ⟨u, hu, hd⟩)
      · refine ⟨(hholds n d).mpr (Or.inl hd), fun heq ↦ hname ?_⟩
        rw [← heq]
        exact core_vocabulary hd
      · rcases hbefore u hu with rfl | hu'
        · rw [hnone n] at hd
          cases hd
        · refine ⟨(hholds n d).mpr (Or.inr ⟨u, hu', hd⟩), fun heq ↦ ?_⟩
          rw [definitions_vocabulary hd] at heq
          rw [hnone' u hu' heq n] at hd
          cases hd

end Publish

end Charter

end Khive
