import Khive.Charter.Effect

/-!
# The commands

`charter.start` finds or inserts the subject and starts a run on it, unless a run of the charter is
open for the subject. `charter.observe` records an observation on the open runs of its subject; when a
generation trigger names another generation, the subject moves on and its open runs are superseded
first. `charter.cancel` ends a run. Each command settles the work it queued. Before a unit begins,
`charter.start` and `charter.observe` are checked against the scopes of the subject and of its runs.
-/

namespace Khive

namespace Charter

/-! ## Subjects -/

/-- The subject at the next epoch. -/
def Subject.advanced (row : Subject) (generation : String) : Subject :=
  { row with subjectEpoch := row.subjectEpoch + 1, generation := some generation }

namespace Store

theorem map_key_advanced (rows : List Subject) (subjectId generation : String) :
    (rows.map fun held ↦ if held.subjectId = subjectId then held.advanced generation else held).map
      Subject.key = rows.map Subject.key := by
  rw [List.map_map]
  refine List.map_congr_left fun held _ ↦ ?_
  by_cases h : held.subjectId = subjectId
  · simp only [Function.comp_apply, h, if_true]
    rfl
  · simp only [Function.comp_apply, h, if_false]

/-- `subject-generation.sql`. -/
def advanceSubject (store : Store) (subjectId generation : String) : Store where
  subjects := store.subjects.update subjectId (Subject.advanced · generation) fun _ ↦ rfl
  keys := (congrArg List.Nodup (map_key_advanced store.subjects.rows subjectId generation)).mpr
    store.keys
  runs := store.runs
  triggers := store.triggers

/-- `subject-insert.sql`, under the checks and triggers of the schema. -/
def insertSubject (store : Store) (row : Subject) : Except StorageError Store :=
  if row.subjectKind = "" ∨ row.subjectRef = "" then
    .error (.aborted "charter subject kind and reference are required")
  else if hkey : row.key ∈ store.subjects.rows.map Subject.key then
    .error (.aborted "charter subject identity is immutable")
  else if hid : row.subjectId ∈ store.subjects.rows.map Subject.subjectId then
    .error (.aborted "charter subject identity is immutable")
  else if row.policyDomain = "" then
    .error (.constraint "charter_subjects")
  else
    .ok { store with
      subjects := ⟨store.subjects.rows ++ [row], Table.nodup_insert store.subjects.distinct hid⟩
      keys := Table.nodup_insert store.keys hkey }

end Store

namespace Session

variable (s : Session)

/-- Find or create the subject row. A different generation starts a new subject epoch only when
`establishes` is set, so a late observation for an older candidate never moves it back. -/
def subject (kind reference : String) (generation : Option String) (establishes : Bool)
    (e : Engine) : Except StorageError (Engine × String × Nat × Option String) :=
  match e.store.subject? kind reference with
  | none => do
    let row : Subject := {
      policyDomain := s.scope.domain
      subjectId := kind ++ ":" ++ reference
      «namespace» := s.scope.namespace
      subjectKind := kind
      subjectRef := reference
      subjectEpoch := 0
      generation := generation }
    let store ← e.store.insertSubject row
    pure ({ e with store := store }, row.subjectId, 0, generation)
  | some row =>
    match generation with
    | none => pure (e, row.subjectId, row.subjectEpoch, row.generation)
    | some g =>
      if row.generation ≠ some g ∧ establishes then
        let store := e.store.advanceSubject row.subjectId g
        let ended := store.openRunsForSubject s.scope.domain row.subjectId
        pure ({ e with
          store := store
          queue := e.queue ++ ended.map fun run ↦
            .end run.runId .superseded (some ("subject generation advanced to " ++ g)) },
          row.subjectId, row.subjectEpoch + 1, some g)
      else pure (e, row.subjectId, row.subjectEpoch, row.generation)

/-- Whether this generation trigger was received before; else its receipt is kept. -/
def recordGenerationTrigger (subjectId producer kind eventId : String) (payload : Payload)
    (e : Engine) : Except StorageError (Engine × Bool) :=
  let row : TriggerRow := {
    policyDomain := s.scope.domain
    caller := s.world.triggerCaller s.scope.domain subjectId producer kind
    requestId := eventId
    requestDigest := s.digest payload }
  match e.store.triggers.get row.key with
  | some held =>
    if held.requestDigest = row.requestDigest then pure (e, true)
    else throw (.conflict "EvidenceConflict"
      "the same generation trigger source event was submitted with different bytes")
  | none => do
    let triggers ← okOr (.constraint "charter_commands") (e.store.triggers.insert row)
    pure ({ e with store := { e.store with triggers := triggers } }, false)

/-- Record an external observation on one open run and queue its advance. The same event id is a new
observation at each subject epoch, so a candidate that returns re-reads its gates. -/
def observe (runId subjectId : String) (epoch : Nat) (kind producer eventId : String)
    (payload : Payload) (e : Engine) : Except StorageError (Engine × Bool) := do
  let own ← s.own e.store runId
  let (recorded, fresh) ← own.append s.digest {
    kind := kind
    producer := producer
    sourceIdentity := subjectId ++ "@" ++ toString epoch
    sourceEventId := eventId
    payload := payload }
  pure (written e recorded (if fresh then [.advance runId] else []) [], fresh)

end Session

/-! ## Observations -/

/-- The value fits the declared type. -/
def ParamType.admits : ParamType → ArgValue → Bool
  | .string, .string _ => true
  | .word, .string _ => true
  | .integer, .integer _ => true
  | .duration, .integer _ => true
  | .bool, .bool _ => true
  | _, _ => false

/-- A declared parameter is given a value of its type, or is optional and left out. -/
def checkParam (verb kind : String) (args : Args) (param : ParamDef) : Except StorageError Unit :=
  match args.lookup param.name with
  | none =>
    if param.optional then pure ()
    else throw (refuse verb ⟨"missing_argument", kind ++ " needs argument " ++ param.name⟩)
  | some value =>
    if param.ty.admits value then pure ()
    else throw (refuse verb ⟨"argument_type",
      kind ++ "." ++ param.name ++ " has the wrong value type"⟩)

/-- The outcome that an observation records. -/
def chosenOutcome (verb kind : String) (outcomes : List String) (requested : Option String) :
    Except StorageError String :=
  match requested, outcomes with
  | some outcome, _ =>
    if outcome ∈ outcomes then pure outcome
    else throw (refuse verb ⟨"unknown_outcome",
      kind ++ " has outcomes " ++ " ".intercalate outcomes ++ ", not " ++ outcome⟩)
  | none, [outcome] => pure outcome
  | none, _ => throw (refuse verb ⟨"missing_outcome",
      kind ++ " needs one of " ++ " ".intercalate outcomes⟩)

/-- Check an observation against the entry of its kind; the outcome that it records. -/
def validateObservation (verb kind : String) (entry : Option EntryDef) (requested : Option String)
    (args : Args) : Except StorageError String := do
  let entry ← okOr
    (refuse verb ⟨"unknown_kind", kind ++ " is not registered for the target run"⟩) entry
  if entry.kind = .subject then
    throw (refuse verb ⟨"wrong_entry_kind", kind ++ " is a subject, not an observation"⟩)
  let outcome ← chosenOutcome verb kind entry.outcomes requested
  match args.find? fun arg ↦ !entry.params.any fun param ↦ param.name = arg.1 with
  | some arg =>
    throw (refuse verb ⟨"unknown_argument", kind ++ " declares no argument " ++ arg.1⟩)
  | none =>
    entry.params.forM (checkParam verb kind args)
    pure outcome

/-- An observation to be recorded. -/
structure Observation where
  verb : String
  subjectKind : String
  subjectRef : String
  kind : String
  requestedOutcome : Option String
  args : Args
  detail : Args
  generation : Option String
  onlyCharter : Option String
  producer : String
  eventId : String
  deriving DecidableEq, Repr

/-- The payload that an observation records at an epoch. -/
def Observation.payload (o : Observation) (outcome : String) (epoch : Nat)
    (current : Option String) : Payload where
  outcome := some outcome
  args := some o.args
  detail := some o.detail
  epoch := some epoch
  generation := o.generation.or current

/-- The payload that the receipt of a trigger is of. -/
def Observation.triggerPayload (o : Observation) (outcome : String) : Payload where
  outcome := some outcome
  args := some o.args
  detail := some o.detail
  generation := o.generation

/-- The kind starts a new generation of the subject kind. -/
def establishing (registry : OrderedMap String EntryDef) (subjectKind kind : String) : Bool :=
  (registry.get subjectKind).any fun subject ↦ subject.newGeneration.contains kind

/-- The runs an observation is recorded on. -/
structure Targets where
  runs : List Run := []
  outcome : Option String := none
  establishes : Bool := false

namespace Session

variable (s : Session)

/-- Add an open run to the targets, unless the observation is for another charter. -/
def addTarget (o : Observation) (targets : Targets) (run : Run) : Except StorageError Targets :=
  if o.onlyCharter.any fun charter ↦ charter ≠ run.charterId then pure targets
  else do
    let row ← okOr (corrupt ("run pins missing definition " ++ run.charterId ++ " v" ++
      toString run.definitionVersion))
      (s.world.getDefinition s.scope.domain run.charterId run.definitionVersion)
    let outcome ← validateObservation o.verb o.kind
      ((row.definition.registry.get o.kind).or (row.pinned.get o.kind)) o.requestedOutcome o.args
    if targets.outcome.any fun held ↦ held ≠ outcome then
      throw (refuse o.verb ⟨"ambiguous_outcome",
        o.kind ++ " resolves differently for open runs"⟩)
    pure {
      runs := targets.runs ++ [run]
      outcome := some outcome
      establishes := targets.establishes ||
        establishing row.definition.registry o.subjectKind o.kind ||
        establishing row.pinned o.subjectKind o.kind }

/-- Validate against the registry of the scope, when no run is a target. -/
def addScope (o : Observation) (visible : List String) : Except StorageError Targets := do
  let registry ← registryFrom s.world.libraries s.world.vocabularies s.scope.domain visible
  let outcome ← validateObservation o.verb o.kind (registry.get o.kind) o.requestedOutcome o.args
  pure { outcome := some outcome, establishes := establishing registry o.subjectKind o.kind }

/-- What an observation of a known subject is recorded on. -/
def targets (o : Observation) (visible : List String) (store : Store) (subjectId : String) :
    Except StorageError Targets := do
  let targets ← (store.openRunsForSubject s.scope.domain subjectId).foldlM (s.addTarget o) {}
  if targets.runs = [] then s.addScope o visible else pure targets

/-- Only a trigger that establishes has a receipt. -/
def receive (o : Observation) (subjectId : String) (establishes : Bool) (outcome : String)
    (e : Engine) : Except StorageError (Engine × Bool) :=
  if establishes then
    s.recordGenerationTrigger subjectId o.producer o.kind o.eventId (o.triggerPayload outcome) e
  else pure (e, false)

/-- Record on every target. -/
def observeAll (o : Observation) (subjectId : String) (epoch : Nat) (payload : Payload)
    (targets : List Run) (e : Engine) : Except StorageError Engine :=
  targets.foldlM (fun e run ↦ do
    let (e, _) ← s.observe run.runId subjectId epoch o.kind o.producer o.eventId payload e
    pure e) e

/-- The unit of an observation. -/
def commitObservation (o : Observation) (visible : List String) (store : Store) :
    Except StorageError Engine :=
  match store.subject? o.subjectKind o.subjectRef with
  | none => do
    let _ ← s.addScope o visible
    pure { store := store }
  | some subject => do
    let targets ← s.targets o visible store subject.subjectId
    let outcome ← okOr (.internal "charter: missing outcome") targets.outcome
    let (e, replayed) ← s.receive o subject.subjectId targets.establishes outcome { store := store }
    let (e, subjectId, epoch, current) ← s.subject o.subjectKind o.subjectRef o.generation
      (targets.establishes && !replayed) e
    let e ← s.observeAll o subjectId epoch (o.payload outcome epoch current) targets.runs e
    s.settle e

def quoted (text : String) : String := debugText s.world.libraries.unprintable text.toList

def quotedOption : Option String → String
  | none => "None"
  | some text => "Some(" ++ s.quoted text ++ ")"

/-- `charter.observe` is refused to the producers of the pack itself. -/
def observeVerb (o : Observation) (visible : List String) (store : Store) :
    Except StorageError Engine :=
  if s.scope.actor = engineProducer ∨ s.scope.actor = storeProducer then
    throw (.invalidInput o.verb (o.verb ++ ": actor " ++ s.quoted s.scope.actor ++
      " is reserved for observations the charter pack records itself"))
  else s.commitObservation { o with producer := s.scope.actor } visible store

/-! ## Starts and cancellations -/

def startVerb : String := "charter.start"

def cancelVerb : String := "charter.cancel"

/-- The charter that a start is of. -/
def requestedDefinition (charterId : String) (version : Option Int) : Option DefinitionRow :=
  match version with
  | some v => s.world.getDefinition s.scope.domain charterId v
  | none => s.world.latestDefinition s.scope.domain charterId

end Session

/-- A request to start a charter. -/
structure StartRequest where
  charter : String
  subjectKind : String
  subjectRef : String
  bindings : List (String × String)
  version : Option Int
  generation : Option String
  deriving DecidableEq, Repr

namespace Session

variable (s : Session)

/-- The unit of `charter.start`: the run that is open for the charter, or one that it starts. -/
def start (r : StartRequest) (store : Store) : Except StorageError (Engine × String × Bool) := do
  match r.bindings.find? fun binding ↦ binding.2 = "" with
  | some binding => throw (.invalidInput startVerb (startVerb ++ ": binding for role " ++ binding.1 ++
      " must be a non-empty actor id string"))
  | none =>
    let row ← okOr (refuse startVerb ⟨"not_published", "charter " ++ r.charter ++
      " has no published version in domain " ++ s.scope.domain⟩)
      (s.requestedDefinition r.charter r.version)
    if row.definition.subject ≠ r.subjectKind then
      throw (refuse startVerb ⟨"subject_mismatch", "charter " ++ r.charter ++ " runs on " ++
        row.definition.subject ++ " subjects, not " ++ r.subjectKind⟩)
    match r.bindings.find? fun binding ↦
        !row.definition.roles.any fun role ↦ role.name = binding.1 with
    | some binding => throw (refuse startVerb ⟨"unknown_role",
        "charter " ++ r.charter ++ " declares no role " ++ binding.1⟩)
    | none =>
      let (e, subjectId, epoch, current) ← s.subject r.subjectKind r.subjectRef r.generation false
        { store := store }
      if r.generation.any fun requested ↦ current ≠ some requested then
        throw (refuse startVerb ⟨"generation_mismatch", "subject " ++ r.subjectKind ++ ":" ++
          r.subjectRef ++ " is at generation " ++ s.quotedOption current ++ ", not " ++
          s.quoted (r.generation.getD "")⟩)
      match e.store.openRunForCharter s.scope.domain r.charter subjectId with
      | some run => pure (e, run.runId, false)
      | none =>
        let (e, runId) ← s.startRun row subjectId epoch current r.bindings none e
        let e ← s.settle e
        pure (e, runId, true)

/-- The unit of `charter.cancel`. -/
def cancel (runId : String) (reason : Option String) (visible : List String) (store : Store) :
    Except StorageError Engine := do
  let (run, _) ← okOr (refuse cancelVerb ⟨"unknown_run", "no run " ++ runId⟩) (store.loadRun runId)
  if run.policyDomain ≠ s.scope.domain ∨ run.namespace ∉ visible then
    throw (refuse cancelVerb ⟨"unknown_run", "no visible run " ++ runId⟩)
  if run.state ≠ .open then
    throw (refuse cancelVerb ⟨"not_open", "run " ++ runId ++ " is " ++ run.state.asStr ++
      " in domain " ++ run.policyDomain⟩)
  s.settle { store := store, queue := [.end runId .cancelled reason] }

end Session

/-! ## Calls -/

inductive Request
  | start (r : StartRequest)
  | observe (o : Observation)
  | cancel (runId : String) (reason : Option String)
  deriving DecidableEq, Repr

/-- A request of a caller, with the identifiers that are drawn for it. -/
structure Call where
  scope : Scope
  visible : List String
  draw : Nat → String
  request : Request

/-- The subject and all runs on it are in the domain and visible. -/
def Store.subjectInScope (store : Store) (domain : String) (visible : List String)
    (kind reference : String) : Bool :=
  (store.subject? kind reference).all fun subject ↦
    subject.policyDomain = domain ∧ subject.namespace ∈ visible ∧
      ∀ run ∈ store.runs.rows, run.subjectId = subject.subjectId →
        run.policyDomain = domain ∧ run.namespace ∈ visible

namespace Call

variable (world : World) (call : Call)

def session : Session := ⟨world, call.scope, call.draw⟩

/-- What is checked before the unit begins. -/
def allowed (store : Store) : Bool :=
  match call.request with
  | .start r =>
    store.subjectInScope call.scope.domain call.visible r.subjectKind r.subjectRef &&
      ((call.session world).requestedDefinition r.charter r.version).all fun row ↦
        call.visible.contains row.namespace
  | .observe o =>
    store.subjectInScope call.scope.domain call.visible o.subjectKind o.subjectRef
  | .cancel _ _ => true

/-- The engine that the unit ends with, and the run that a start answers with. -/
def unit (store : Store) : Except StorageError (Engine × Option (String × Bool)) :=
  match call.request with
  | .start r => do
    let (e, runId, started) ← (call.session world).start r store
    pure (e, some (runId, started))
  | .observe o => do
    let e ← (call.session world).observeVerb o call.visible store
    pure (e, none)
  | .cancel runId reason => do
    let e ← (call.session world).cancel runId reason call.visible store
    pure (e, none)

end Call

end Charter

end Khive
