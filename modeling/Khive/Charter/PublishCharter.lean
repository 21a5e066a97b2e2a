import Khive.Charter.Performs

/-!
# Publishing charters

`charter.publish` compiles a source against the registry of its domain, refuses performs of
charters that are not published or run on another subject kind, refuses a definition that closes a
perform cycle, and stores it under its version unless that is stored already. The order of versions
is free: an older version is stored without becoming the latest.
-/

namespace Khive

namespace Charter

open Relation

/-- What the verb takes from the language: the definition a source compiles to, and the digest of
a definition's canonical text. -/
structure Language where
  compile : String → Registry → Except (List Diagnostic) Definition
  definitionDigest : Definition → String

inductive CharterOutcome
  | alreadyPublished (definition : Definition)
  | published (definition : Definition)

def publishVerb : String := "charter.publish"

namespace World

variable (language : Language) (world : World)

/-- A perform names a published charter of the same subject kind. -/
def checkPerform (domain : String) (definition : Definition) (child : String) :
    Except StorageError Unit :=
  match world.latestDefinition domain child with
  | none => .error (refuse publishVerb ⟨"unpublished_perform",
      "perform " ++ child ++ ": publish " ++ child ++ " first"⟩)
  | some row =>
    if row.definition.subject ≠ definition.subject then
      .error (refuse publishVerb ⟨"perform_subject_mismatch",
        "perform " ++ child ++ ": " ++ child ++ " runs on " ++ row.definition.subject ++
          " subjects, this charter on " ++ definition.subject⟩)
    else .ok ()

/-- `definition-get.sql` for the namespaces that are visible. -/
def heldDefinition (domain charterId : String) (version : Int) (visible : List String) :
    Option DefinitionRow :=
  world.definitions.find? fun row ↦ row.policyDomain = domain ∧ row.definition.id = charterId ∧
    row.definition.version = version ∧ row.namespace ∈ visible

/-- A row of the same version of the same charter in the same domain. -/
def SameVersion (a b : DefinitionRow) : Prop := a.policyDomain = b.policyDomain ∧
  a.definition.id = b.definition.id ∧ a.definition.version = b.definition.version

instance : DecidableRel SameVersion := fun _ _ ↦ inferInstanceAs (Decidable (_ ∧ _))

/-- `definition-insert.sql`, under the checks and triggers of the schema. -/
def definitionInsert (row : DefinitionRow) (nowUs : Int) : Except StorageError World :=
  if hheld : ∃ held ∈ world.definitions, SameVersion held row then
    .error (.aborted "charter definitions are immutable")
  else if row.policyDomain = "" ∨ row.definition.id = "" ∨ row.definition.version ≤ 0 ∨
      language.definitionDigest row.definition = "" ∨ nowUs < 0 then
    .error (.constraint "charter_definitions")
  else .ok { world with
    definitions := world.definitions ++ [row]
    versions := by
      refine List.pairwise_append.mpr ⟨world.versions, List.pairwise_singleton _ _, ?_⟩
      rintro held hmem _ hrow hsame
      obtain rfl := List.mem_singleton.mp hrow
      exact hheld ⟨held, hmem, hsame⟩ }

/-- The unit of `charter.publish`. -/
def publishCharter (scope : Scope) (visible : List String) (source : String) :
    Except StorageError (CharterOutcome × World) := do
  let registry ← registryFrom world.libraries world.vocabularies scope.domain visible
  let definition ← (language.compile source registry).mapError fun diagnostics ↦
    .invalidInput publishVerb
      (publishVerb ++ ": charter source refused: " ++ refusalText diagnostics)
  definition.performs.forM (world.checkPerform scope.domain definition)
  if let some path := world.performCycle scope.domain definition then
    throw (refuse publishVerb ⟨"perform_cycle",
      "perform dependency cycle: " ++ " -> ".intercalate path⟩)
  match world.heldDefinition scope.domain definition.id definition.version visible with
  | some row =>
    if language.definitionDigest row.definition ≠ language.definitionDigest definition then
      throw (refuse publishVerb ⟨"version_conflict", definition.id ++ " v" ++
        toString definition.version ++ " is published with a different definition (" ++
        language.definitionDigest row.definition ++ "); publish a new version"⟩)
    pure (.alreadyPublished definition, world)
  | none =>
    let world ← world.definitionInsert language
      ⟨scope.domain, scope.namespace, definition, registry⟩ scope.nowUs
    pure (.published definition, world)

/-! ## What a publication changes -/

section Publication

variable {language : Language} {world world' : World} {domain : String}

theorem latestDefinition_append {row : DefinitionRow}
    (hrows : world'.definitions = world.definitions ++ [row]) (domain charterId : String) :
    world'.latestDefinition domain charterId =
      if row.policyDomain = domain ∧ row.definition.id = charterId then
        later (world.latestDefinition domain charterId) row
      else world.latestDefinition domain charterId := by
  rw [latestDefinition, hrows, List.filter_append, List.foldl_append]
  split_ifs with hrow
  · simp [hrow, latestDefinition]
  · simp [hrow, latestDefinition]

theorem later_eq (held : Option DefinitionRow) (row : DefinitionRow) :
    later held row = some row ∨ later held row = held := by
  rcases held with - | old
  · exact Or.inl rfl
  · rw [later]
    split_ifs
    · exact Or.inl rfl
    · exact Or.inr rfl

theorem definitions_of_definitionInsert {row : DefinitionRow} {nowUs : Int}
    (h : world.definitionInsert language row nowUs = .ok world') :
    world'.definitions = world.definitions ++ [row] := by
  rw [definitionInsert] at h
  split_ifs at h
  obtain rfl := Except.ok.inj h
  rfl

/-- A publication stores nothing, or one row of a definition that closes no cycle. -/
theorem publishCharter_cases {scope : Scope} {visible : List String} {source : String}
    {outcome : CharterOutcome}
    (h : world.publishCharter language scope visible source = .ok (outcome, world')) :
    world' = world ∨ ∃ row, row.policyDomain = scope.domain ∧
      world.performCycle scope.domain row.definition = none ∧
      world'.definitions = world.definitions ++ [row] := by
  obtain ⟨registry, -, h⟩ := bind_eq_ok.mp h
  obtain ⟨definition, -, h⟩ := bind_eq_ok.mp h
  obtain ⟨-, -, h⟩ := bind_eq_ok.mp h
  rcases hcycle : world.performCycle scope.domain definition with - | path
  · simp only [hcycle] at h
    rcases hheld : world.heldDefinition scope.domain definition.id definition.version visible with
      - | row
    · simp only [hheld] at h
      obtain ⟨stored, hinsert, h⟩ := bind_eq_ok.mp h
      obtain ⟨-, rfl⟩ := Prod.mk.inj (Except.ok.inj h)
      exact Or.inr ⟨_, rfl, hcycle, definitions_of_definitionInsert hinsert⟩
    · simp only [hheld] at h
      split_ifs at h
      · cases h
      · exact Or.inl (Prod.mk.inj (Except.ok.inj h)).2.symm
  · rw [hcycle] at h
    cases h

/-- The latest versions' performs form no cycle. -/
def Acyclic (world : World) (domain : String) : Prop :=
  ∀ charterId, ¬TransGen (world.Performs domain) charterId charterId

/-- A row of a definition that closes no cycle keeps the performs acyclic, whatever its version. -/
theorem Acyclic.append {row : DefinitionRow} (h : world.Acyclic domain)
    (hcycle : row.policyDomain = domain → world.performCycle domain row.definition = none)
    (hrows : world'.definitions = world.definitions ++ [row]) : world'.Acyclic domain := by
  by_cases hdomain : row.policyDomain = domain
  · have hnone : ¬ReachesCycle (world.Effective domain row.definition) row.definition.id := by
      rw [← (performCycle_spec world domain row.definition).1, hcycle hdomain]
      simp
    -- the performs are now the candidate's, or those of before if a later version is stored
    have hcandidate : ∀ u, ¬TransGen (world.Effective domain row.definition) u u := by
      refine not_transGen_of_agree (fun u v hu hstep ↦ ?_) h fun hloop ↦
        hnone ⟨_, ReflTransGen.refl, hloop⟩
      rwa [Effective, if_neg hu] at hstep
    have hperforms : world'.Performs domain = world.Effective domain row.definition ∨
        world'.Performs domain = world.Performs domain := by
      have hother : ∀ u, row.definition.id ≠ u →
          world'.latestDefinition domain u = world.latestDefinition domain u := by
        intro u hu
        rw [latestDefinition_append hrows, if_neg fun heq ↦ hu heq.2]
      have hown := latestDefinition_append hrows domain row.definition.id
      rw [if_pos ⟨hdomain, rfl⟩] at hown
      rcases later_eq (world.latestDefinition domain row.definition.id) row with heq | heq
      · rw [heq] at hown
        left
        funext u v
        by_cases hu : u = row.definition.id
        · subst hu
          rw [Performs, hown, Effective, if_pos rfl]
          simp
        · rw [Performs, hother u (Ne.symm hu), Effective, if_neg hu, Performs]
      · rw [heq] at hown
        right
        funext u v
        by_cases hu : row.definition.id = u
        · subst hu
          rw [Performs, hown, Performs]
        · rw [Performs, hother u hu, Performs]
    intro u hloop
    rcases hperforms with heq | heq
    · exact hcandidate u (heq ▸ hloop)
    · exact h u (heq ▸ hloop)
  · intro u hloop
    have hperforms : world'.Performs domain = world.Performs domain := by
      funext u v
      rw [Performs, Performs, latestDefinition_append hrows, if_neg fun heq ↦ hdomain heq.1]
    exact h u (hperforms ▸ hloop)

end Publication

/-! ## Runs -/

/-- What happens in a store: a publication of a charter, or a change of the vocabularies. -/
inductive Event
  | publish (scope : Scope) (visible : List String) (source : String)
  | vocabularies (rows : List VocabularyRow)

/-- A refused publication leaves the store as it was. -/
def afterEvent (language : Language) (world : World) : Event → World
  | .publish scope visible source =>
    match world.publishCharter language scope visible source with
    | .ok (_, world) => world
    | .error _ => world
  | .vocabularies rows => { world with vocabularies := rows }

/-- The store after events, one after the other. -/
def afterEvents (language : Language) (world : World) (events : List Event) : World :=
  events.foldl (afterEvent language) world

/-- A store without charters. -/
def unpublished (world : World) : World where
  __ := world
  definitions := []
  versions := List.Pairwise.nil

theorem acyclic_afterEvent (language : Language) {world : World} {domain : String}
    (h : world.Acyclic domain) (event : Event) :
    (world.afterEvent language event).Acyclic domain := by
  rcases event with ⟨scope, visible, source⟩ | rows
  · rw [afterEvent]
    rcases hpublish : world.publishCharter language scope visible source with
      - | ⟨outcome, world'⟩
    · exact h
    · rcases publishCharter_cases hpublish with rfl | ⟨row, hdomain, hcycle, hrows⟩
      · exact h
      · exact h.append (fun heq ↦ heq ▸ hdomain ▸ hcycle) hrows
  · exact h

theorem acyclic_afterEvents (language : Language) {world : World} {domain : String}
    (h : world.Acyclic domain) (events : List Event) :
    (world.afterEvents language events).Acyclic domain := by
  induction events generalizing world with
  | nil => exact h
  | cons event events ih => exact ih (acyclic_afterEvent language h event)

theorem acyclic_unpublished (world : World) (domain : String) :
    world.unpublished.Acyclic domain := by
  intro charterId hloop
  obtain ⟨_, ⟨row, hrow, -⟩, -⟩ := (TransGen.head'_iff).mp hloop
  cases hrow

/-- The search for a perform cycle is exact, and no sequence of publications closes a cycle. -/
theorem performCycle_exact :
    (∀ (world : World) (domain : String) (candidate : Definition),
      ((world.performCycle domain candidate).isSome ↔
        ReachesCycle (world.Effective domain candidate) candidate.id) ∧
      ∀ path, world.performCycle domain candidate = some path →
        ∃ passed last, path = passed ++ [last] ∧ passed.head? = some candidate.id ∧
          last ∈ passed ∧ path.IsChain (world.Effective domain candidate)) ∧
    ∀ (language : Language) (world : World) (domain : String) (events : List Event),
      (world.unpublished.afterEvents language events).Acyclic domain :=
  ⟨performCycle_spec, fun language world domain events ↦
    acyclic_afterEvents language (acyclic_unpublished world domain) events⟩

end World

end Charter

end Khive
