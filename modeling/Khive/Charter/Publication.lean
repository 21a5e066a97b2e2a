import Khive.Charter.Replay
import Khive.Charter.Scope
import Mathlib.Data.List.Sort

/-!
# Publishing vocabularies

`charter.vocabulary` stores a vocabulary source under a policy domain and a namespace, after adding
it to the registry that the stored sources load to. Rows are never changed or deleted. A registry is
loaded from the rows of one domain whose namespaces are visible, in the order of names and versions.
-/

namespace Khive

namespace Charter

/-- What the model takes from outside the registry. -/
structure Libraries where
  /-- The characters that `Debug` escapes by number. -/
  unprintable : Char → Bool
  /-- The BLAKE3 digest of a text, with its algorithm. -/
  digest : String → String
  parseVocabularySource : String → Except (List Diagnostic) VocabularySource

def refusalText (diagnostics : List Diagnostic) : String :=
  "; ".intercalate (diagnostics.map fun d ↦
    "line " ++ toString d.line ++ " " ++ d.code ++ ": " ++ d.message)

/-! ## Rows -/

structure VocabularyRow where
  policyDomain : String
  name : String
  version : Int
  «namespace» : String
  sourceDigest : String
  sourceBytes : String
  createdAtUs : Int
  deriving DecidableEq, Repr

/-- `ORDER BY name, version`. -/
def rowLE (a b : VocabularyRow) : Prop := a.name < b.name ∨ a.name = b.name ∧ a.version ≤ b.version

instance : DecidableRel rowLE := fun _ _ ↦ inferInstanceAs (Decidable (_ ∨ _))

/-- The rows of a domain in visible namespaces. -/
def visibleRows (table : List VocabularyRow) (domain : String) (visible : List String) :
    List VocabularyRow :=
  table.filter fun row ↦ row.policyDomain = domain ∧ row.namespace ∈ visible

/-- `vocabularies-list.sql`. -/
def vocabulariesList (table : List VocabularyRow) (domain : String) (visible : List String) :
    List VocabularyRow :=
  (visibleRows table domain visible).insertionSort rowLE

/-- `vocabulary-insert.sql`, under the checks and triggers of the schema. -/
def vocabularyInsert (table : List VocabularyRow) (row : VocabularyRow) :
    Except StorageError (List VocabularyRow) := do
  if table.any fun held ↦ held.policyDomain = row.policyDomain ∧ held.name = row.name ∧
      held.version = row.version then
    throw (.aborted "charter vocabularies are immutable")
  if row.policyDomain = "" ∨ row.name = "" ∨ row.version ≤ 0 ∨ row.sourceDigest = "" ∨
      row.createdAtUs < 0 then
    throw (.constraint "charter_vocabularies")
  pure (table ++ [row])

/-! ## The registry of a domain -/

section Verbs

variable (lib : Libraries)

def Problem.refusalText (problems : List Problem) : String :=
  Charter.refusalText (problems.map (Problem.diagnostic lib.unprintable))

/-- Parse a stored source and add it. -/
def loadRow (registry : Registry) (row : VocabularyRow) : Except StorageError Registry := do
  let parsed ← (lib.parseVocabularySource row.sourceBytes).mapError fun diagnostics ↦
    .internal ("charter: stored vocabulary does not parse: " ++ refusalText diagnostics)
  let (_, registry) ← (registry.add parsed).mapError fun problems ↦
    .internal ("charter: stored vocabulary does not load: " ++ Problem.refusalText lib problems)
  pure registry

def registryFrom (table : List VocabularyRow) (domain : String) (visible : List String) :
    Except StorageError Registry :=
  (vocabulariesList table domain visible).foldlM (loadRow lib) Registry.core

/-! ## The verb -/

inductive VocabularyOutcome
  | alreadyPublished (vocabulary : String) (version : Int)
  | published (vocabulary : String) (version : Int) (entries : List EntryDef)
  deriving DecidableEq, Repr

def vocabularyVerb : String := "charter.vocabulary"

/-- The entries that a publication adds and the registry that it computes. -/
def publicationRegistry (table : List VocabularyRow) (domain : String) (visible : List String)
    (parsed : VocabularySource) : Except StorageError (List EntryDef × Registry) := do
  let registry ← registryFrom lib table domain visible
  (registry.add parsed).mapError fun problems ↦
    refuse vocabularyVerb ⟨"vocabulary_refused", Problem.refusalText lib problems⟩

/-- The unit of `charter.vocabulary`. -/
def vocabulary (scope : Scope) (visible : List String) (source : String)
    (table : List VocabularyRow) : Except StorageError (VocabularyOutcome × List VocabularyRow) := do
  let parsed ← (lib.parseVocabularySource source).mapError fun diagnostics ↦
    .invalidInput vocabularyVerb
      (vocabularyVerb ++ ": vocabulary source refused: " ++ refusalText diagnostics)
  let rows := vocabulariesList table scope.domain visible
  match rows.find? fun row ↦ row.name = parsed.name ∧ row.version = parsed.version with
  | some row =>
    if row.sourceDigest ≠ lib.digest source then
      throw (refuse vocabularyVerb ⟨"version_conflict", "vocabulary " ++ parsed.name ++ " v" ++
        toString parsed.version ++
        " is published with different source; publish a new version"⟩)
    pure (.alreadyPublished parsed.name parsed.version, table)
  | none =>
    let (added, _) ← publicationRegistry lib table scope.domain visible parsed
    let table ← vocabularyInsert table
      { policyDomain := scope.domain
        name := parsed.name
        version := parsed.version
        «namespace» := scope.namespace
        sourceDigest := lib.digest source
        sourceBytes := source
        createdAtUs := scope.nowUs }
    pure (.published parsed.name parsed.version added, table)

end Verbs

/-! ## Runs -/

/-- A publication by a caller with the given visible namespaces, of which the one it writes to is
always one. -/
structure Publication (visible : List String) where
  «namespace» : String
  mem_visible : «namespace» ∈ visible
  actor : String
  source : String
  nowUs : Int

section Runs

variable (lib : Libraries) (domain : String) {visible : List String}

/-- The answer of one publication, with the table that it leaves. -/
def publish (table : List VocabularyRow) (p : Publication visible) :
    Except StorageError (VocabularyOutcome × List VocabularyRow) :=
  vocabulary lib ⟨domain, p.namespace, p.actor, p.nowUs⟩ visible p.source table

/-- A refused publication leaves the table as it was. -/
def afterPublication (table : List VocabularyRow) (p : Publication visible) :
    List VocabularyRow :=
  match publish lib domain table p with
  | .ok (_, table') => table'
  | .error _ => table

/-- The table after publications, one after the other. -/
def afterPublications (table : List VocabularyRow) (ps : List (Publication visible)) :
    List VocabularyRow :=
  ps.foldl (afterPublication lib domain) table

/-- The stored sources, as they are loaded. -/
def storedSources (table : List VocabularyRow) (visible : List String) : List VocabularySource :=
  (vocabulariesList table domain visible).filterMap fun row ↦
    (lib.parseVocabularySource row.sourceBytes).toOption

/-- The publication of `parsed` is accepted: its row is stored, and this is the registry that was
computed for it. -/
structure Accepted (table : List VocabularyRow) (p : Publication visible)
    (parsed : VocabularySource) (registry : Registry) (table' : List VocabularyRow) : Prop where
  parses : lib.parseVocabularySource p.source = .ok parsed
  answer : ∃ entries, publish lib domain table p =
    .ok (.published parsed.name parsed.version entries, table')
  computed : ∃ entries, publicationRegistry lib table domain visible parsed = .ok (entries, registry)

/-- The rows that are visible in the domain parse to what their columns say, and no two are of one
version of one vocabulary. -/
structure Consistent (table : List VocabularyRow) (visible : List String) : Prop where
  parses : ∀ row ∈ visibleRows table domain visible, ∃ parsed,
    lib.parseVocabularySource row.sourceBytes = .ok parsed ∧ parsed.name = row.name ∧
      parsed.version = row.version
  keys : (visibleRows table domain visible).Pairwise fun a b ↦
    ¬(a.name = b.name ∧ a.version = b.version)

variable {lib domain} {table table' : List VocabularyRow} {p : Publication visible}
  {parsed source : VocabularySource} {registry : Registry}

instance : IsTrans VocabularyRow rowLE where
  trans a b c hab hbc := by
    rcases hab with hab | ⟨hab, hab'⟩ <;> rcases hbc with hbc | ⟨hbc, hbc'⟩
    · exact Or.inl (hab.trans hbc)
    · exact Or.inl (hbc ▸ hab)
    · exact Or.inl (hab ▸ hbc)
    · exact Or.inr ⟨hab.trans hbc, hab'.trans hbc'⟩

instance : Std.Total rowLE where
  total a b := by
    rcases lt_trichotomy a.name b.name with h | h | h
    · exact Or.inl (Or.inl h)
    · rcases le_total a.version b.version with hv | hv
      · exact Or.inl (Or.inr ⟨h, hv⟩)
      · exact Or.inr (Or.inr ⟨h.symm, hv⟩)
    · exact Or.inr (Or.inl h)

theorem mem_vocabulariesList {row : VocabularyRow} :
    row ∈ vocabulariesList table domain visible ↔ row ∈ visibleRows table domain visible :=
  List.mem_insertionSort _

theorem mem_storedSources :
    source ∈ storedSources lib domain table visible ↔
      ∃ row ∈ visibleRows table domain visible,
        lib.parseVocabularySource row.sourceBytes = .ok source := by
  rw [storedSources, List.mem_filterMap]
  refine exists_congr fun row ↦ and_congr mem_vocabulariesList ?_
  cases lib.parseVocabularySource row.sourceBytes <;> simp [Except.toOption]

theorem Consistent.sorted (h : Consistent lib domain table visible) :
    (storedSources lib domain table visible).Pairwise Precedes := by
  have hkeys : (vocabulariesList table domain visible).Pairwise fun a b ↦
      ¬(a.name = b.name ∧ a.version = b.version) := by
    refine ((List.perm_insertionSort rowLE _).pairwise_iff ?_).mpr h.keys
    intro a b hab heq
    exact hab ⟨heq.1.symm, heq.2.symm⟩
  have horder : (vocabulariesList table domain visible).Pairwise rowLE :=
    List.pairwise_insertionSort rowLE _
  refine List.Pairwise.filterMap _ ?_ ((horder.and hkeys).imp_of_mem (S := fun a b ↦
    a ∈ visibleRows table domain visible ∧ b ∈ visibleRows table domain visible ∧
      rowLE a b ∧ ¬(a.name = b.name ∧ a.version = b.version)) fun ha hb hab ↦
        ⟨mem_vocabulariesList.mp ha, mem_vocabulariesList.mp hb, hab⟩)
  rintro a b ⟨ha, hb, hle, hne⟩ s hs t ht
  obtain ⟨s', hs', hsname, hsversion⟩ := h.parses a ha
  obtain ⟨t', ht', htname, htversion⟩ := h.parses b hb
  rw [hs'] at hs
  rw [ht'] at ht
  cases hs
  cases ht
  rw [Precedes, hsname, htname, hsversion, htversion]
  rcases hle with hlt | ⟨heq, hle⟩
  · exact Or.inl hlt
  · exact Or.inr ⟨heq, lt_of_le_of_ne hle fun h ↦ hne ⟨heq, h⟩⟩

theorem loadRow_eq_ok {row : VocabularyRow} {r : Registry}
    (hparsed : lib.parseVocabularySource row.sourceBytes = .ok parsed) :
    loadRow lib r row = .ok registry ↔ (r.add parsed).map Prod.snd = .ok registry := by
  rw [loadRow, hparsed, map_eq_ok]
  constructor
  · intro h
    obtain ⟨parsed', hparsed', h⟩ := bind_eq_ok.mp h
    obtain ⟨result, hadd, h⟩ := bind_eq_ok.mp h
    rw [← Except.ok.inj (mapError_eq_ok.mp hparsed')] at hadd
    exact ⟨result, mapError_eq_ok.mp hadd, pure_eq_ok.mp h⟩
  · rintro ⟨result, hadd, rfl⟩
    refine bind_eq_ok.mpr ⟨parsed, rfl, bind_eq_ok.mpr ⟨result, ?_, rfl⟩⟩
    exact mapError_eq_ok.mpr hadd

/-- Loading the rows is loading their sources. -/
theorem foldlM_loadRow {rows : List VocabularyRow} {r : Registry}
    (h : ∀ row ∈ rows, ∃ parsed, lib.parseVocabularySource row.sourceBytes = .ok parsed) :
    rows.foldlM (loadRow lib) r = .ok registry ↔
      replay r (rows.filterMap fun row ↦ (lib.parseVocabularySource row.sourceBytes).toOption) =
        .ok registry := by
  induction rows generalizing r with
  | nil => exact pure_eq_ok.trans pure_eq_ok.symm
  | cons row rows ih =>
    obtain ⟨⟨parsed, hparsed⟩, hrows⟩ := List.forall_mem_cons.mp h
    rw [List.foldlM_cons, List.filterMap_cons_some (by rw [hparsed]; rfl), replay, List.foldlM_cons,
      bind_eq_ok, bind_eq_ok]
    exact exists_congr fun r' ↦ and_congr (loadRow_eq_ok hparsed) (ih hrows)

theorem Consistent.registryFrom_eq_ok (h : Consistent lib domain table visible) :
    registryFrom lib table domain visible = .ok registry ↔
      replay Registry.core (storedSources lib domain table visible) = .ok registry :=
  foldlM_loadRow fun row hrow ↦
    let ⟨parsed, hparsed, _⟩ := h.parses row (mem_vocabulariesList.mp hrow)
    ⟨parsed, hparsed⟩

theorem vocabularyInsert_eq_ok {row : VocabularyRow} (h : vocabularyInsert table row = .ok table') :
    table' = table ++ [row] := by
  rw [vocabularyInsert] at h
  obtain ⟨-, h⟩ := guard_eq_ok.mp h
  dsimp only at h
  obtain ⟨-, h⟩ := guard_eq_ok.mp h
  exact (pure_eq_ok.mp h).symm

/-- The row that a publication stores. -/
def publishedRow (lib : Libraries) (domain : String) (p : Publication visible)
    (parsed : VocabularySource) : VocabularyRow where
  policyDomain := domain
  name := parsed.name
  version := parsed.version
  «namespace» := p.namespace
  sourceDigest := lib.digest p.source
  sourceBytes := p.source
  createdAtUs := p.nowUs

/-- An accepted publication adds its row, of a version that is not visible yet. -/
theorem Accepted.stores (h : Accepted lib domain table p parsed registry table') :
    table' = table ++ [publishedRow lib domain p parsed] ∧
      ∀ row ∈ visibleRows table domain visible,
        ¬(row.name = parsed.name ∧ row.version = parsed.version) := by
  obtain ⟨entries, hanswer⟩ := h.answer
  rw [publish, vocabulary, h.parses] at hanswer
  obtain ⟨parsed', hparsed', hanswer⟩ := bind_eq_ok.mp hanswer
  obtain rfl : parsed = parsed' := Except.ok.inj hparsed'
  dsimp only at hanswer
  split at hanswer
  · -- the version is stored already
    obtain ⟨-, hanswer⟩ := guard_eq_ok.mp hanswer
    cases pure_eq_ok.mp hanswer
  · rename_i hfind
    obtain ⟨⟨added, r⟩, -, hanswer⟩ := bind_eq_ok.mp hanswer
    obtain ⟨table'', hinsert, hanswer⟩ := bind_eq_ok.mp hanswer
    cases pure_eq_ok.mp hanswer
    refine ⟨vocabularyInsert_eq_ok hinsert, fun row hrow hkey ↦ ?_⟩
    have hnone := List.find?_eq_none.mp hfind row (mem_vocabulariesList.mpr hrow)
    exact hnone (decide_eq_true hkey)

theorem visibleRows_append_publishedRow :
    visibleRows (table ++ [publishedRow lib domain p parsed]) domain visible =
      visibleRows table domain visible ++ [publishedRow lib domain p parsed] := by
  rw [visibleRows, List.filter_append, visibleRows]
  congr 1
  exact List.filter_cons_of_pos (decide_eq_true ⟨rfl, p.mem_visible⟩)

theorem Accepted.consistent (h : Accepted lib domain table p parsed registry table')
    (hcons : Consistent lib domain table visible) : Consistent lib domain table' visible := by
  obtain ⟨rfl, hfresh⟩ := h.stores
  constructor
  · intro row hrow
    rw [visibleRows_append_publishedRow] at hrow
    rcases List.mem_append.mp hrow with hrow | hrow
    · exact hcons.parses row hrow
    · rw [List.mem_singleton.mp hrow]
      exact ⟨parsed, h.parses, rfl, rfl⟩
  · rw [visibleRows_append_publishedRow]
    refine List.pairwise_append.mpr ⟨hcons.keys, List.pairwise_singleton _ _, ?_⟩
    intro row hrow row' hrow'
    rw [List.mem_singleton.mp hrow']
    exact hfresh row hrow

theorem Accepted.adds (h : Accepted lib domain table p parsed registry table') :
    Adds (storedSources lib domain table visible) (storedSources lib domain table' visible)
      parsed := by
  obtain ⟨rfl, -⟩ := h.stores
  intro t
  rw [mem_storedSources, visibleRows_append_publishedRow]
  simp only [List.mem_append, List.mem_singleton, or_and_right, exists_or, exists_eq_left,
    mem_storedSources]
  rw [or_comm]
  refine or_congr ?_ Iff.rfl
  have hparses : lib.parseVocabularySource (publishedRow lib domain p parsed).sourceBytes =
      .ok parsed := h.parses
  rw [hparses, Except.ok.injEq]
  exact eq_comm

theorem Accepted.fresh (h : Accepted lib domain table p parsed registry table')
    (hcons : Consistent lib domain table visible) :
    ∀ t ∈ storedSources lib domain table visible, t.name = parsed.name →
      t.version ≠ parsed.version := by
  intro t ht hname hversion
  obtain ⟨row, hrow, ht⟩ := mem_storedSources.mp ht
  obtain ⟨t', ht', hrowName, hrowVersion⟩ := hcons.parses row hrow
  obtain rfl : t = t' := Except.ok.inj (ht.symm.trans ht')
  exact h.stores.2 row hrow ⟨hrowName ▸ hname, hrowVersion ▸ hversion⟩

theorem Accepted.added (h : Accepted lib domain table p parsed registry table')
    (hcons : Consistent lib domain table visible) :
    ∃ before, replay Registry.core (storedSources lib domain table visible) = .ok before ∧
      compiledProblems parsed = [] ∧ Resolves parsed ∧ NotHeld before parsed ∧
        TriggersHeld before parsed ∧ registry = replaced before parsed := by
  obtain ⟨entries, h⟩ := h.computed
  obtain ⟨before, hload, h⟩ := bind_eq_ok.mp h
  obtain ⟨h₁, h₂, h₃, h₄, -, h₅⟩ := add_eq_ok.mp (mapError_eq_ok.mp h)
  exact ⟨before, hcons.registryFrom_eq_ok.mp hload, h₁, h₂, h₃, h₄, h₅⟩

/-! ## The load after a publication -/

/-- The rows load to the registry, which puts the highest stored versions in force and holds the
triggers that its subjects name. -/
structure LoadsBack (lib : Libraries) (domain : String) (table : List VocabularyRow)
    (visible : List String) (registry : Registry) : Prop where
  loads : registryFrom lib table domain visible = .ok registry
  latest : HoldsLatest (storedSources lib domain table visible) registry
  triggers : ∀ n d, registry.get n = some d → d.kind = .subject → ∀ name ∈ d.newGeneration,
    ∃ t, registry.get name = some t ∧ t.kind = .trigger

/-- After one accepted publication, the rows load back exactly when the publication is lasting. -/
theorem Accepted.loadsBack_iff (h : Accepted lib domain table p parsed registry table')
    (hcons : Consistent lib domain table visible) :
    LoadsBack lib domain table' visible registry ↔
      Lasting (storedSources lib domain table visible) parsed := by
  obtain ⟨before, hreplay, hcompiled, hresolves, hheld, htriggers, rfl⟩ := h.added hcons
  have hcons' := h.consistent hcons
  constructor
  · intro hback
    exact lasting_of_replay h.adds hcons.sorted hcons'.sorted (h.fresh hcons) hreplay hcompiled
      hheld (hcons'.registryFrom_eq_ok.mp hback.loads)
  · intro hlasting
    have hreplay' := replay_of_lasting h.adds hcons.sorted hcons'.sorted (h.fresh hcons) hreplay
      hcompiled hresolves hheld htriggers hlasting
    have hlatest := (replay_eq_ok hcons'.sorted).2 _ hreplay'
    have hfits := (replay_eq_ok hcons'.sorted).1.mp ⟨_, hreplay'⟩
    refine ⟨hcons'.registryFrom_eq_ok.mpr hreplay', hlatest, fun n d hd _ name hname ↦ ?_⟩
    obtain ⟨t, ht, hkind⟩ := (Option.any_eq_true _ _).mp (hlatest.triggers_held hfits hd hname)
    exact ⟨t, ht, of_decide_eq_true hkind⟩

/-! ## Runs of publications -/

theorem consistent_of_no_rows (h : visibleRows table domain visible = []) :
    Consistent lib domain table visible := by
  constructor
  · rw [h]
    exact fun row hrow ↦ absurd hrow List.not_mem_nil
  · rw [h]
    exact List.Pairwise.nil

theorem accepted_of_published {version : Int} {name : String} {entries : List EntryDef}
    (h : publish lib domain table p = .ok (.published name version entries, table')) :
    ∃ parsed registry, Accepted lib domain table p parsed registry table' := by
  have hpublish := h
  rw [publish, vocabulary] at h
  obtain ⟨parsed, hparsed, h⟩ := bind_eq_ok.mp h
  dsimp only at h
  split at h
  · obtain ⟨-, h⟩ := guard_eq_ok.mp h
    cases pure_eq_ok.mp h
  · obtain ⟨⟨added, registry⟩, hcomputed, h⟩ := bind_eq_ok.mp h
    obtain ⟨table'', -, h⟩ := bind_eq_ok.mp h
    cases pure_eq_ok.mp h
    exact ⟨parsed, registry, mapError_eq_ok.mp hparsed, ⟨added, hpublish⟩, added, hcomputed⟩

/-- A publication that is not accepted changes nothing. -/
theorem publish_cases (lib : Libraries) (domain : String) (table : List VocabularyRow)
    (p : Publication visible) :
    afterPublication lib domain table p = table ∨
      ∃ parsed registry,
        Accepted lib domain table p parsed registry (afterPublication lib domain table p) := by
  rw [afterPublication]
  cases h : publish lib domain table p with
  | error e => exact Or.inl rfl
  | ok answer =>
    obtain ⟨outcome, table'⟩ := answer
    cases outcome with
    | published name version entries => exact Or.inr (accepted_of_published h)
    | alreadyPublished name version =>
      left
      rw [publish, vocabulary] at h
      obtain ⟨parsed, -, h⟩ := bind_eq_ok.mp h
      dsimp only at h
      split at h
      · obtain ⟨-, h⟩ := guard_eq_ok.mp h
        exact (Prod.mk.inj (pure_eq_ok.mp h)).2.symm
      · obtain ⟨_, -, h⟩ := bind_eq_ok.mp h
        obtain ⟨_, -, h⟩ := bind_eq_ok.mp h
        cases (Prod.mk.inj (pure_eq_ok.mp h)).1

theorem Consistent.after (h : Consistent lib domain table visible)
    (ps : List (Publication visible)) :
    Consistent lib domain (afterPublications lib domain table ps) visible := by
  induction ps generalizing table with
  | nil => exact h
  | cons p ps ih =>
    refine ih ?_
    rcases publish_cases lib domain table p with heq | ⟨parsed, registry, hacc⟩
    · rwa [heq]
    · exact hacc.consistent h

/-- The run accepts a publication of `parsed` on the table it has reached. -/
def AcceptsAt (lib : Libraries) (domain : String) (table : List VocabularyRow)
    (ps : List (Publication visible)) (reached : List VocabularyRow) (parsed : VocabularySource)
    (registry : Registry) (table' : List VocabularyRow) : Prop :=
  ∃ before p after, ps = before ++ p :: after ∧
    reached = afterPublications lib domain table before ∧
    Accepted lib domain reached p parsed registry table'

/-- **Published vocabularies load back when they last**: in every run of publications into a domain
that starts without visible rows, the rows load back to what was computed after every accepted
publication if and only if every accepted publication is lasting. -/
theorem publications_load_back (lib : Libraries) (domain : String) (visible : List String)
    (table : List VocabularyRow) (hempty : visibleRows table domain visible = [])
    (ps : List (Publication visible)) :
    (∀ reached parsed registry table',
        AcceptsAt lib domain table ps reached parsed registry table' →
          LoadsBack lib domain table' visible registry) ↔
      ∀ reached parsed registry table',
        AcceptsAt lib domain table ps reached parsed registry table' →
          Lasting (storedSources lib domain reached visible) parsed := by
  refine forall₅_congr fun reached parsed registry table' haccepts ↦ ?_
  obtain ⟨before, p, after, -, rfl, hacc⟩ := haccepts
  exact hacc.loadsBack_iff ((consistent_of_no_rows hempty).after before)

end Runs

/-! ## A vocabulary that depends on a later name -/

/-- `vocabulary z v1` with one trigger. -/
def triggerVocabulary : VocabularySource where
  name := "z"
  version := 1
  entries := [.plain 2 .trigger "z.fired" "something happened" "platform"]

/-- `vocabulary a v1` with one subject, whose generation that trigger moves. -/
def subjectVocabulary : VocabularySource where
  name := "a"
  version := 1
  entries := [{ EntrySource.plain 2 .subject "widget" "a widget" "system" with
    newGeneration := some ["z.fired"] }]

def triggerText : String :=
  "vocabulary z v1\ntrigger z.fired \"something happened\":\n    producer platform\n"

def subjectText : String :=
  "vocabulary a v1\nsubject widget \"a widget\":\n    producer system\n" ++
    "    new_generation z.fired\n"

/-- The parser on the two texts, and a digest. -/
def sampleLibraries : Libraries where
  unprintable _ := false
  digest text := "blake3:" ++ text
  parseVocabularySource text :=
    if text = triggerText then .ok triggerVocabulary
    else if text = subjectText then .ok subjectVocabulary
    else .error [⟨1, "empty", "a vocabulary source starts with `vocabulary <name> v<version>`"⟩]

def samplePublication (source : String) (nowUs : Int) : Publication ["local"] where
  «namespace» := "local"
  mem_visible := List.mem_cons_self
  actor := "publisher"
  source := source
  nowUs := nowUs

def triggerRow : VocabularyRow :=
  publishedRow sampleLibraries "local" (samplePublication triggerText 1) triggerVocabulary

def subjectRow : VocabularyRow :=
  publishedRow sampleLibraries "local" (samplePublication subjectText 2) subjectVocabulary

theorem accepted_of_add {lib : Libraries} {domain : String} {visible : List String}
    {table table' : List VocabularyRow} {p : Publication visible} {parsed : VocabularySource}
    {before : Registry} (hparses : lib.parseVocabularySource p.source = .ok parsed)
    (hfresh : ((vocabulariesList table domain visible).find? fun row ↦
      row.name = parsed.name ∧ row.version = parsed.version) = none)
    (hload : registryFrom lib table domain visible = .ok before)
    (hcompiled : compiledProblems parsed = []) (hresolves : Resolves parsed)
    (hheld : NotHeld before parsed) (htriggers : TriggersHeld before parsed)
    (hinsert : vocabularyInsert table (publishedRow lib domain p parsed) = .ok table') :
    Accepted lib domain table p parsed (replaced before parsed) table' := by
  have hcomputed : publicationRegistry lib table domain visible parsed =
      .ok ((definitions parsed).values, replaced before parsed) := by
    refine bind_eq_ok.mpr ⟨before, hload, mapError_eq_ok.mpr ?_⟩
    exact add_eq_ok.mpr ⟨hcompiled, hresolves, hheld, htriggers, rfl, rfl⟩
  refine ⟨hparses, ⟨(definitions parsed).values, ?_⟩, ⟨_, hcomputed⟩⟩
  rw [publish, vocabulary, hparses]
  refine bind_eq_ok.mpr ⟨parsed, rfl, ?_⟩
  dsimp only
  rw [hfresh]
  exact bind_eq_ok.mpr ⟨_, hcomputed, bind_eq_ok.mpr ⟨table', hinsert, rfl⟩⟩

/-- What the two sources come to by themselves: their names are not compiled ones, they resolve, and
their rows are stored and read back. -/
theorem sample_facts :
    ("z.fired" ∉ compiledEntryNames ∧ "widget" ∉ compiledEntryNames) ∧
      (compiledProblems triggerVocabulary = [] ∧ compiledProblems subjectVocabulary = []) ∧
      ((resolve OrderedMap.empty triggerVocabulary).1 = [] ∧
        (resolve OrderedMap.empty subjectVocabulary).1 = []) ∧
      (sampleLibraries.parseVocabularySource triggerText = .ok triggerVocabulary ∧
        sampleLibraries.parseVocabularySource subjectText = .ok subjectVocabulary) ∧
      (vocabularyInsert [] triggerRow = .ok [triggerRow] ∧
        vocabularyInsert [triggerRow] subjectRow = .ok [triggerRow, subjectRow]) ∧
      (isTrigger ((definitions triggerVocabulary).get "z.fired") = true ∧
        (definitions triggerVocabulary).get "widget" = none ∧
        (definitions subjectVocabulary).get "z.fired" = none) ∧
      vocabulariesList [triggerRow] "local" ["local"] = [triggerRow] ∧
      storedSources sampleLibraries "local" [triggerRow, subjectRow] ["local"] =
        [subjectVocabulary, triggerVocabulary] ∧ ¬"z" < "a" := by decide +kernel

theorem core_get_fired : Registry.core.get "z.fired" = none :=
  core_of_not_mem sample_facts.1.1

theorem core_get_widget : Registry.core.get "widget" = none :=
  core_of_not_mem sample_facts.1.2

theorem add_triggerVocabulary :
    compiledProblems triggerVocabulary = [] ∧ Resolves triggerVocabulary ∧
      NotHeld Registry.core triggerVocabulary ∧ TriggersHeld Registry.core triggerVocabulary := by
  obtain ⟨-, ⟨hcompiled, -⟩, ⟨hresolves, -⟩, -⟩ := sample_facts
  refine ⟨hcompiled, hresolves, ?_, ?_⟩
  · intro entry hentry held hget
    rw [List.mem_singleton.mp hentry] at hget
    cases core_get_fired.symm.trans hget
  · intro t ht
    cases ht

theorem accepted_triggerVocabulary :
    Accepted sampleLibraries "local" [] (samplePublication triggerText 1) triggerVocabulary
      (replaced Registry.core triggerVocabulary) [triggerRow] := by
  obtain ⟨hcompiled, hresolves, hheld, htriggers⟩ := add_triggerVocabulary
  obtain ⟨-, -, -, ⟨hparses, -⟩, ⟨hinsert, -⟩, -⟩ := sample_facts
  exact accepted_of_add hparses rfl rfl hcompiled hresolves hheld htriggers hinsert

theorem registryFrom_triggerRow :
    registryFrom sampleLibraries [triggerRow] "local" ["local"] =
      .ok (replaced Registry.core triggerVocabulary) := by
  obtain ⟨hcompiled, hresolves, hheld, htriggers⟩ := add_triggerVocabulary
  obtain ⟨-, -, -, ⟨hparses, -⟩, -, -, hrows, -⟩ := sample_facts
  rw [registryFrom, hrows, List.foldlM_cons]
  have hload : loadRow sampleLibraries Registry.core triggerRow =
      .ok (replaced Registry.core triggerVocabulary) := by
    rw [loadRow_eq_ok hparses, map_eq_ok]
    exact ⟨(_, _), add_eq_ok.mpr ⟨hcompiled, hresolves, hheld, htriggers, rfl, rfl⟩, rfl⟩
  exact bind_eq_ok.mpr ⟨_, hload, rfl⟩

theorem accepted_subjectVocabulary :
    Accepted sampleLibraries "local" [triggerRow] (samplePublication subjectText 2)
      subjectVocabulary
      (replaced (replaced Registry.core triggerVocabulary) subjectVocabulary)
      [triggerRow, subjectRow] := by
  obtain ⟨-, ⟨-, hcompiled⟩, ⟨-, hresolves⟩, ⟨-, hparses⟩, ⟨-, hinsert⟩,
    ⟨htrigger, hwidget, hfired⟩, hrows, -, -⟩ := sample_facts
  have hfresh : (vocabulariesList [triggerRow] "local" ["local"]).find? (fun row ↦
      row.name = subjectVocabulary.name ∧ row.version = subjectVocabulary.version) = none := by
    rw [hrows]
    rfl
  refine accepted_of_add hparses hfresh registryFrom_triggerRow hcompiled hresolves ?_ ?_ hinsert
  · -- nobody holds the subject
    intro entry hentry held hget
    rw [List.mem_singleton.mp hentry] at hget
    rcases get_replaced_eq_some.mp hget with h | ⟨-, h, -⟩
    · cases hwidget.symm.trans h
    · cases core_get_widget.symm.trans h
  · -- the trigger is held by the other vocabulary
    intro t ht
    rw [List.mem_singleton.mp ht]
    obtain ⟨d, hd, hkind⟩ := (Option.any_eq_true _ _).mp htrigger
    have hget : (replaced (replaced Registry.core triggerVocabulary) subjectVocabulary).get
        "z.fired" = some d := by
      refine get_replaced_eq_some.mpr (Or.inr ⟨hfired, get_replaced_eq_some.mpr (Or.inl hd), ?_⟩)
      rw [definitions_vocabulary hd]
      decide
    rw [hget]
    exact hkind

/-- The load comes to the subject first, where its trigger is not held. -/
theorem registryFrom_sample (registry : Registry) :
    registryFrom sampleLibraries [triggerRow, subjectRow] "local" ["local"] ≠ .ok registry := by
  have hcons : Consistent sampleLibraries "local" [triggerRow, subjectRow] ["local"] :=
    accepted_subjectVocabulary.consistent (accepted_triggerVocabulary.consistent
      (consistent_of_no_rows rfl))
  intro hload
  have hfits := (replay_eq_ok hcons.sorted).1.mp ⟨_, hcons.registryFrom_eq_ok.mp hload⟩
  obtain ⟨-, -, -, -, -, ⟨-, -, hfired⟩, -, hstored, hlast⟩ := sample_facts
  rw [hstored] at hfits
  rcases (hfits subjectVocabulary List.mem_cons_self).triggers "z.fired" List.mem_cons_self with
    h | h | ⟨u, hu, hlt, -⟩
  · rw [hfired] at h
    cases h
  · rw [core_get_fired] at h
    cases h
  · rcases List.mem_cons.mp hu.1 with rfl | hu
    · exact absurd hlt (lt_irrefl _)
    · rw [List.mem_singleton.mp hu] at hlt
      exact hlast hlt

theorem Accepted.afterPublication_eq {lib : Libraries} {domain : String} {visible : List String}
    {table table' : List VocabularyRow} {p : Publication visible} {parsed : VocabularySource}
    {registry : Registry} (h : Accepted lib domain table p parsed registry table') :
    afterPublication lib domain table p = table' := by
  obtain ⟨entries, hanswer⟩ := h.answer
  rw [afterPublication, hanswer]

theorem afterPublications_trigger :
    afterPublications sampleLibraries "local" [] [samplePublication triggerText 1] =
      [triggerRow] := by
  rw [afterPublications, List.foldl_cons, List.foldl_nil]
  exact accepted_triggerVocabulary.afterPublication_eq

/-- The publication of the subject is accepted, and the stored vocabularies no longer load. -/
theorem publication_does_not_load_back :
    AcceptsAt sampleLibraries "local" []
        [samplePublication triggerText 1, samplePublication subjectText 2]
        [triggerRow] subjectVocabulary
        (replaced (replaced Registry.core triggerVocabulary) subjectVocabulary)
        [triggerRow, subjectRow] ∧
      ¬LoadsBack sampleLibraries "local" [triggerRow, subjectRow] ["local"]
        (replaced (replaced Registry.core triggerVocabulary) subjectVocabulary) :=
  ⟨⟨[samplePublication triggerText 1], samplePublication subjectText 2, [], rfl,
    afterPublications_trigger.symm, accepted_subjectVocabulary⟩,
    fun h ↦ registryFrom_sample _ h.loads⟩

/-- In the run that publishes the trigger, every accepted publication is lasting. -/
theorem lasting_triggerVocabulary {reached table' : List VocabularyRow} {parsed : VocabularySource}
    {registry : Registry} (h : AcceptsAt sampleLibraries "local" []
      [samplePublication triggerText 1] reached parsed registry table') :
    Lasting (storedSources sampleLibraries "local" reached ["local"]) parsed := by
  obtain ⟨before, p, after, heq, hreached, hacc⟩ := h
  rcases List.cons_eq_append_iff.mp heq with ⟨rfl, hp⟩ | ⟨before', -, hp⟩
  · have hparsed : parsed = triggerVocabulary := by
      rw [(List.cons.inj hp).1] at hacc
      exact Except.ok.inj (hacc.parses.symm.trans accepted_triggerVocabulary.parses)
    have hstored : storedSources sampleLibraries "local" reached ["local"] = [] := by
      rw [hreached]
      rfl
    rw [hstored, hparsed]
    have hnone : ∀ t ∈ ([] : List VocabularySource), False := fun t ht ↦ List.not_mem_nil ht
    refine ⟨Or.inl fun t ht ↦ (hnone t ht).elim, fun n hn ↦ (List.not_mem_nil hn).elim,
      fun t ht ↦ (hnone t ht).elim, fun t ht ↦ (hnone t ht).elim⟩
  · exact absurd hp.symm (by simp)

/-- The publication of the trigger alone loads back. -/
theorem publications_load_back_trigger :
    LoadsBack sampleLibraries "local" [triggerRow] ["local"]
      (replaced Registry.core triggerVocabulary) :=
  (publications_load_back sampleLibraries "local" ["local"] [] rfl
    [samplePublication triggerText 1]).mpr (fun _ _ _ _ h ↦ lasting_triggerVocabulary h) [] _ _ _
      ⟨[], _, [], rfl, rfl, accepted_triggerVocabulary⟩

end Charter

end Khive
