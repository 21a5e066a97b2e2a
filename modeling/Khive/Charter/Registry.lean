import Khive.Charter.Vocabulary
import Khive.Foundation.SortedMap

/-!
# The phrase registry

The registry is the map of all entries that charters may name, each held by one vocabulary. Adding a
vocabulary resolves its entries against the registry, collecting every problem it meets, and then
replaces whatever the vocabulary held before.

What an entry resolves to depends on the vocabulary alone, and the registry decides only whether it
is refused. `add_eq_ok` says this: a vocabulary is added exactly when it resolves by itself, no
vocabulary of another name and no later version holds one of its names, and the triggers of its
subjects are its own or held by others.
-/

namespace Khive

namespace Charter

inductive ParamType
  | string
  | integer
  | duration
  | bool
  | word
  deriving DecidableEq, Repr

def ParamType.parse (word : String) : Option ParamType :=
  if word = "string" then some .string
  else if word = "integer" then some .integer
  else if word = "duration" then some .duration
  else if word = "bool" then some .bool
  else if word = "word" then some .word
  else none

structure ParamDef where
  name : String
  ty : ParamType
  optional : Bool
  deriving DecidableEq, Repr

structure EntryDef where
  kind : EntryKind
  name : String
  description : Option String
  producerClass : String
  outcomes : List String
  passes : List String
  ceiling : Level
  params : List ParamDef
  /-- For a subject kind: the triggers whose observation starts a new generation. -/
  newGeneration : List String
  vocabulary : String
  vocabularyVersion : Int
  deriving DecidableEq, Repr

/-- One refusal or parse error, located by its line. -/
structure Diagnostic where
  line : Nat
  code : String
  message : String
  deriving DecidableEq, Repr

/-- What a vocabulary is refused for. -/
inductive Problem
  | compiledVocabulary (name : String)
  | compiledEntry (line : Nat) (name : String)
  | publishedCeiling (line : Nat)
  | duplicateEntry (line : Nat) (name : String)
  | entryConflict (line : Nat) (name vocabulary : String)
  | staleVocabulary (line : Nat) (vocabulary : String) (version held : Int)
  | missingProducerClass (line : Nat)
  | subjectFields (line : Nat)
  | strayNewGeneration (line : Nat) (name : String)
  | duplicateOutcome (line : Nat) (name : String)
  | badPasses (line : Nat) (stray name : String)
  | duplicateParam (line : Nat) (name param : String)
  | unknownTrigger (line : Nat) (name trigger : String)
  deriving DecidableEq, Repr

/-- The text of a problem, names in quotes. -/
def Problem.diagnostic (unprintable : Char → Bool) : Problem → Diagnostic
  | compiledVocabulary name =>
    ⟨1, "compiled_vocabulary", "vocabulary " ++ quoted name ++
      " is compiled into the registry and cannot be published as data"⟩
  | compiledEntry line name =>
    ⟨line, "compiled_entry", "entry " ++ quoted name ++
      " is defined by a compiled vocabulary and cannot be published as data"⟩
  | publishedCeiling line =>
    ⟨line, "published_ceiling", "a published vocabulary may declare only the advisory ceiling"⟩
  | duplicateEntry line name =>
    ⟨line, "duplicate_entry", quoted name ++ " is declared twice in this vocabulary"⟩
  | entryConflict line name vocabulary =>
    ⟨line, "entry_conflict", quoted name ++ " is already declared by vocabulary " ++
      quoted vocabulary⟩
  | staleVocabulary line vocabulary version held =>
    ⟨line, "stale_vocabulary", "vocabulary " ++ quoted vocabulary ++ " v" ++ toString version ++
      " is older than the held v" ++ toString held⟩
  | missingProducerClass line =>
    ⟨line, "missing_producer_class", "every vocabulary entry declares `producer <class>`"⟩
  | subjectFields line =>
    ⟨line, "bad_entry", "a subject kind takes only a description and new_generation"⟩
  | strayNewGeneration line name =>
    ⟨line, "bad_entry", quoted name ++ ": only a subject kind declares new_generation"⟩
  | duplicateOutcome line name =>
    ⟨line, "duplicate_outcome", quoted name ++ " lists an outcome twice"⟩
  | badPasses line stray name =>
    ⟨line, "bad_passes", "passing outcome " ++ quoted stray ++ " is not one of " ++ quoted name ++
      "'s outcomes"⟩
  | duplicateParam line name param =>
    ⟨line, "duplicate_param", quoted name ++ " declares parameter " ++ quoted param ++ " twice"⟩
  | unknownTrigger line name trigger =>
    ⟨line, "unknown_trigger", quoted name ++ " starts a new generation on " ++ quoted trigger ++
      ", which is not a registered trigger"⟩
where
  quoted (name : String) : String := debugText unprintable name.toList

/-- The entries by name. -/
abbrev Registry := OrderedMap String EntryDef

/-! ## Resolving one entry -/

def defaultOutcomes : EntryKind → List String
  | .subject => []
  | .trigger => ["observed"]
  | .phrase => ["pass", "fail"]
  | .action => ["done", "failed", "skipped"]

def defaultPasses : EntryKind → List String
  | .subject => []
  | .trigger => ["observed"]
  | .phrase => ["pass"]
  | .action => ["done", "skipped"]

def resolvedOutcomes (entry : EntrySource) : List String :=
  entry.outcomes.getD (defaultOutcomes entry.kind)

def resolvedPasses (entry : EntrySource) : List String :=
  match entry.passes, entry.outcomes, entry.kind with
  | some passes, _, _ => passes
  | none, some outcomes, .phrase => outcomes.filter (· == "pass")
  | none, some outcomes, .trigger => outcomes
  | none, some outcomes, .action => outcomes.filter fun o ↦ o == "done" || o == "skipped"
  | none, _, kind => defaultPasses kind

/-- The parameters of an entry, with the problems met and whether one was bad. A type that is no
type is bad and goes unreported. -/
def scanParams (entry : EntrySource) :
    List String → List ParamSource → List Problem × Bool × List ParamDef
  | _, [] => ([], false, [])
  | names, p :: rest =>
    if p.name ∈ names then
      let (errors, _, params) := scanParams entry names rest
      (.duplicateParam entry.line entry.name p.name :: errors, true, params)
    else
      let (errors, bad, params) := scanParams entry (p.name :: names) rest
      match ParamType.parse p.ty with
      | none => (errors, true, params)
      | some ty => (errors, bad, ⟨p.name, ty, p.optional⟩ :: params)

def resolvedCeiling (entry : EntrySource) : Level :=
  match entry.kind with
  | .phrase => entry.ceiling.getD .advisory
  | _ => entry.ceiling.getD .hard

/-- What an entry of a vocabulary resolves to, by itself. -/
def define (source : VocabularySource) (entry : EntrySource) : Except (List Problem) EntryDef :=
  match entry.producerClass with
  | none => .error [.missingProducerClass entry.line]
  | some producerClass =>
    if entry.kind = .subject ∧ (entry.outcomes.isSome ∨ entry.passes.isSome ∨
        entry.ceiling.isSome ∨ entry.params ≠ []) then
      .error [.subjectFields entry.line]
    else if entry.kind ≠ .subject ∧ entry.newGeneration.isSome then
      .error [.strayNewGeneration entry.line entry.name]
    else if ¬(resolvedOutcomes entry).Nodup then
      .error [.duplicateOutcome entry.line entry.name]
    else match (resolvedPasses entry).find? (· ∉ resolvedOutcomes entry) with
    | some stray => .error [.badPasses entry.line stray entry.name]
    | none =>
      let (errors, bad, params) := scanParams entry [] entry.params
      if bad then .error errors
      else .ok
        { kind := entry.kind
          name := entry.name
          description := entry.description
          producerClass := producerClass
          outcomes := resolvedOutcomes entry
          passes := resolvedPasses entry
          ceiling := resolvedCeiling entry
          params := params
          newGeneration := entry.newGeneration.getD []
          vocabulary := source.name
          vocabularyVersion := source.version }

/-- The refusal of an entry whose name the registry holds for another vocabulary, or for a later
version of this one. -/
def heldProblem (registry : Registry) (source : VocabularySource) (entry : EntrySource) :
    Option Problem :=
  match registry.get entry.name with
  | none => none
  | some held =>
    if held.vocabulary ≠ source.name then
      some (.entryConflict entry.line entry.name held.vocabulary)
    else if source.version < held.vocabularyVersion then
      some (.staleVocabulary entry.line source.name source.version held.vocabularyVersion)
    else none

/-! ## Adding a vocabulary -/

/-- One turn of the loop over the entries: the problems so far and the entries resolved. -/
def resolveEntry (registry : Registry) (source : VocabularySource)
    (state : List Problem × Registry) (entry : EntrySource) : List Problem × Registry :=
  if (state.2.get entry.name).isSome then
    (state.1 ++ [.duplicateEntry entry.line entry.name], state.2)
  else match heldProblem registry source entry with
  | some problem => (state.1 ++ [problem], state.2)
  | none => match define source entry with
    | .error problems => (state.1 ++ problems, state.2)
    | .ok entryDef => (state.1, state.2.insert entry.name entryDef)

def resolve (registry : Registry) (source : VocabularySource) : List Problem × Registry :=
  source.entries.foldl (resolveEntry registry source) ([], OrderedMap.empty)

/-- The entry that a name of `new_generation` means: one of the vocabulary itself, or one that
another vocabulary holds. -/
def findTrigger (registry resolved : Registry) (source : VocabularySource) (name : String) :
    Option EntryDef :=
  (resolved.get name).or ((registry.get name).filter fun held ↦ held.vocabulary ≠ source.name)

def isTrigger (entry : Option EntryDef) : Bool := entry.any fun t ↦ t.kind = .trigger

def unknownTriggers (registry resolved : Registry) (source : VocabularySource) : List Problem :=
  source.entries.flatMap fun entry ↦
    ((entry.newGeneration.getD []).filter fun name ↦
      !isTrigger (findTrigger registry resolved source name)).map
        (.unknownTrigger entry.line entry.name ·)

/-- What a vocabulary published as data is refused for at once. -/
def compiledProblems (source : VocabularySource) : List Problem :=
  (if source.name ∈ compiledVocabularyNames then [.compiledVocabulary source.name] else []) ++
    source.entries.flatMap fun entry ↦
      (if entry.name ∈ compiledEntryNames then [.compiledEntry entry.line entry.name] else []) ++
        (if entry.ceiling.any (· ≠ .advisory) then [.publishedCeiling entry.line] else [])

namespace Registry

def addInner (registry : Registry) (source : VocabularySource) (compiled : Bool) :
    Except (List Problem) (List EntryDef × Registry) :=
  if !compiled && compiledProblems source ≠ [] then .error (compiledProblems source)
  else
    let (errors, resolved) := resolve registry source
    let errors := errors ++ unknownTriggers registry resolved source
    if errors ≠ [] then .error errors
    else .ok (resolved.values,
      (registry.retain fun held ↦ held.vocabulary ≠ source.name).extend resolved)

/-- Resolve a vocabulary into entries and add them. -/
def add (registry : Registry) (source : VocabularySource) :
    Except (List Problem) (List EntryDef × Registry) :=
  registry.addInner source false

def addCompiled (registry : Registry) (source : VocabularySource) :
    Except (List Problem) (List EntryDef × Registry) :=
  registry.addInner source true

/-- The compiled vocabularies, loaded one after the other. -/
def loadCompiled : Except (List Problem) Registry := do
  let (_, registry) ← addCompiled OrderedMap.empty coreVocabulary
  let (_, registry) ← addCompiled registry prMergeVocabulary
  pure registry

end Registry

end Charter

end Khive
