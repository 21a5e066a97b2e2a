import Khive.Charter.Visit

/-!
# The run engine

A command queues work on runs and settles it: runs are advanced, children are started, and runs are
ended and their endings reported upward. All of it is in one unit, so what fails leaves nothing
behind. `Effect` says what each item of work does to the store and to the queue, and the results about
runs are derived from it.
-/

namespace Khive

namespace Charter

inductive Work
  | advance (runId : String)
  | «end» (runId : String) (how : Ending) (reason : Option String)
  | startChild (parentRunId charterId : String)
  deriving DecidableEq, Repr

/-- The work that an advance queues on its run. -/
def Onward.work (runId : String) : Onward → List Work
  | .stay => []
  | .enter performs => performs.map (Work.startChild runId) ++ [.advance runId]
  | .end how reason => [.end runId how reason]

/-- The engine of one command. -/
structure Engine where
  store : Store
  queue : List Work := []
  events : List Event := []
  started : List String := []
  /-- How many identifiers were drawn. -/
  drawn : Nat := 0
  deriving DecidableEq

/-- What a command runs in. -/
structure Session where
  world : World
  scope : Scope
  /-- The identifiers that the command draws. -/
  draw : Nat → String

/-- At most so many items of work are settled. -/
def stepLimit : Nat := 4096

namespace Run

/-- The row that records an ending in the run itself. -/
def endedRow (run : Run) (how : Ending) (reason : Option String) : Evidence where
  kind := "charter.ended"
  producer := engineProducer
  sourceIdentity := run.runId
  sourceEventId := "ended"
  payload := { outcome := some how.asStr, reason := reason }

/-- The row that reports an ending to the parent. -/
def reportRow (run : Run) (how : Ending) (reason : Option String) : Evidence where
  kind := run.charterId
  producer := engineProducer
  sourceIdentity := run.subjectId
  sourceEventId := run.runId
  payload := {
    outcome := some how.asStr
    childRunId := some run.runId
    reason := reason
    generation := run.generation
    epoch := some run.subjectEpoch }

/-- The row that records in the parent that a child was started. -/
def startedRow (parent : Run) (charterId childRunId phaseId : String) (round : Nat) : Evidence where
  kind := charterId
  producer := engineProducer
  sourceIdentity := parent.subjectId
  sourceEventId := "perform-start:" ++ phaseId ++ ":" ++ toString round ++ ":" ++ childRunId
  payload := {
    outcome := some "started"
    childRunId := some childRunId
    generation := parent.generation
    epoch := some parent.subjectEpoch
    phase := some phaseId
    round := some round }

/-- The row that records in the parent that a performed charter is not published. -/
def unpublishedRow (parent : Run) (charterId eventId : String) : Evidence where
  kind := charterId
  producer := engineProducer
  sourceIdentity := parent.subjectId
  sourceEventId := eventId
  payload := {
    outcome := some "cancelled"
    reason := some "the performed charter is not published" }

end Run

/-- The dormant row of a phase. -/
def PhaseDef.dormant (phase : PhaseDef) : PhaseRow where
  phaseId := phase.id
  ordinal := phase.ordinal
  state := .dormant
  round := 0
  waitingOn := none

/-- The phases satisfy the keys and checks of `charter_phases`. -/
def Definition.insertable (definition : Definition) (actor : String) : Bool :=
  (definition.phases.map PhaseDef.id).Nodup ∧ (definition.phases.map PhaseDef.ordinal).Nodup ∧
    ∀ phase ∈ definition.phases,
      phase.id ≠ "" ∧ 0 < phase.ordinal ∧ phase.owner.getD actor ≠ ""

/-- Neither a run nor any of its ancestors is of the charter. -/
def ancestry (store : Store) (charterId : String) :
    Nat → List String → String → Except StorageError Unit
  | 0, _, _ => throw (corrupt "perform_cycle: run ancestry contains a cycle")
  | fuel + 1, visited, runId => do
    if runId ∈ visited then throw (corrupt "perform_cycle: run ancestry contains a cycle")
    let (run, _) ← okOr (corrupt ("run ancestry references missing run " ++ runId))
      (store.loadRun runId)
    if run.charterId = charterId then
      throw (corrupt ("perform_cycle: " ++ charterId ++ " is already in the parent run ancestry"))
    match run.parentRunId with
    | none => pure ()
    | some parent => ancestry store charterId fuel (runId :: visited) parent

namespace Session

variable (s : Session)

def digest : Payload → String := s.world.payloadDigest

def definition (charterId : String) (version : Int) : Except StorageError Definition := do
  let row ← okOr
    (corrupt ("run pins missing definition " ++ charterId ++ " v" ++ toString version))
    (s.world.getDefinition s.scope.domain charterId version)
  pure row.definition

/-- The run whose rows are keyed by the scope's domain and the id. -/
def own (store : Store) (runId : String) : Except StorageError Run :=
  okOr (.constraint "charter_runs") (store.runIn? s.scope.domain runId)

/-- Write a run back, and queue work. -/
def written (e : Engine) (run : Run) (work : List Work) (events : List Event) : Engine :=
  { e with store := e.store.put run, queue := e.queue ++ work, events := e.events ++ events }

/-! ## Advancing -/

def staleReason : String := "subject generation no longer matches the run candidate"

def advance (runId : String) (e : Engine) : Except StorageError Engine := do
  let (run, subject) ← okOr (corrupt ("unknown run " ++ runId)) (e.store.loadRun runId)
  if run.state ≠ .open then
    pure e
  else
    let held ← okOr (corrupt "run subject missing")
      (e.store.subject? subject.subjectKind subject.subjectRef)
    if run.subjectEpoch ≠ held.subjectEpoch ∨ run.generation ≠ held.generation then
      pure { e with queue := .end runId .superseded (some staleReason) :: e.queue }
    else
      let definition ← s.definition run.charterId run.definitionVersion
      let own ← s.own e.store runId
      let (moved, events, onward) ← own.advance s.digest definition
      pure (written e moved (onward.work runId) events)

/-! ## Ending -/

/-- The open children of an ended run are cancelled, the last one first. -/
def cancelled (children : List Run) (runId : String) (how : Ending) : List Work :=
  (children.map fun child ↦ Work.end child.runId .cancelled
    (some ("parent run " ++ runId ++ " ended " ++ how.asStr))).reverse

/-- The engine once a run is closed and the ends of its children are queued. -/
def closing (e : Engine) (run closed : Run) (how : Ending) (reason : Option String) : Engine :=
  { e with
    store := e.store.put closed
    queue := cancelled ((e.store.put closed).openChildren s.scope.domain run.runId) run.runId
      how ++ e.queue
    events := e.events ++ [.ended run.runId run.charterId how reason] }

/-- Report an ending to the parent, when it is open. -/
def report (run : Run) (how : Ending) (reason : Option String) (e : Engine) :
    Except StorageError Engine :=
  match run.parentRunId with
  | none => pure e
  | some parentId =>
    if (e.store.loadRun parentId).any fun parent ↦ parent.1.state = .open then do
      let parent ← s.own e.store parentId
      let (recorded, _) ← parent.append s.digest (run.reportRow how reason)
      pure (written e recorded [.advance parentId] [])
    else
      pure e

def endRun (runId : String) (how : Ending) (reason : Option String) (e : Engine) :
    Except StorageError Engine := do
  let (run, _) ← okOr (corrupt ("unknown run " ++ runId)) (e.store.loadRun runId)
  if run.state ≠ .open then
    pure e
  else
    let own ← s.own e.store runId
    let (recorded, _) ← own.left.append s.digest (own.left.endedRow how reason)
    if recorded.state ≠ .open then throw (corrupt "ending a run that is not open")
    s.report run how reason (s.closing e run (recorded.finish how) how reason)

/-! ## Starting -/

/-- A run as it is inserted. -/
def newRun (definition : Definition) (runId subjectId : String) (epoch : Nat)
    (generation : Option String) (bindings : List (String × String))
    (parentRunId : Option String) : Run where
  policyDomain := s.scope.domain
  runId := runId
  «namespace» := s.scope.namespace
  subjectId := subjectId
  subjectEpoch := epoch
  charterId := definition.id
  definitionVersion := definition.version
  bindings := bindings
  generation := generation
  state := .open
  currentPhaseId := none
  parentRunId := parentRunId
  createdAtUs := s.scope.nowUs
  phases := definition.phases.map PhaseDef.dormant
  evidence := []

/-- The engine once a run is added that has entered its first phase. -/
def started (e : Engine) (runs : Table Run String Run.runId) (entered : Run) (events : List Event)
    (performs : List String) : Engine :=
  { e with
    store := { e.store with runs := runs.put entered }
    queue := e.queue ++ (Onward.enter performs).work entered.runId
    events := e.events ++ .started entered.runId entered.charterId entered.parentRunId :: events
    started := e.started ++ [entered.runId]
    drawn := e.drawn + 1 }

/-- Insert a run and its dormant phases, then enter the first phase. -/
def startRun (row : DefinitionRow) (subjectId : String) (epoch : Nat) (generation : Option String)
    (bindings : List (String × String)) (parentRunId : Option String) (e : Engine) :
    Except StorageError (Engine × String) := do
  let definition := row.definition
  let run := s.newRun definition (s.draw e.drawn) subjectId epoch generation bindings parentRunId
  if ¬parentRunId.all fun parent ↦ (e.store.runIn? s.scope.domain parent).isSome then
    throw (.aborted "charter run parent must exist")
  let runs ← okOr (.aborted "charter run identity is immutable") (e.store.runs.insert run)
  if run.runId = "" ∨ s.scope.nowUs < 0 ∨ (e.store.subjects.get subjectId).isNone then
    throw (.constraint "charter_runs")
  if ¬definition.insertable s.scope.actor then throw (.constraint "charter_phases")
  let first ← okOr (corrupt "definition has no phases") definition.phases.head?
  let (entered, events, performs) ← run.enter s.digest definition first.id
  pure (started e runs entered events performs, run.runId)

def startChild (parentRunId charterId : String) (e : Engine) : Except StorageError Engine := do
  let (parent, subject) ← okOr (corrupt ("unknown run " ++ parentRunId))
    (e.store.loadRun parentRunId)
  if parent.state ≠ .open then
    pure e
  else
    ancestry e.store charterId (e.store.runs.rows.length + 1) [] parentRunId
    match s.world.latestDefinition s.scope.domain charterId with
    | none =>
      -- publication refuses a perform of an unpublished charter
      let own ← s.own e.store parentRunId
      let (recorded, _) ← own.append s.digest (parent.unpublishedRow charterId (s.draw e.drawn))
      pure { written e recorded [.advance parentRunId] [] with drawn := e.drawn + 1 }
    | some row =>
      if row.definition.subject ≠ subject.subjectKind then
        throw (.conflict "PerformSubjectMismatch" ("perform " ++ charterId ++ ": version " ++
          toString row.definition.version ++ " runs on " ++ row.definition.subject ++
          " subjects, the parent run on " ++ subject.subjectKind))
      let epoch := ((e.store.subject? subject.subjectKind subject.subjectRef).map
        Subject.subjectEpoch).getD 0
      let bindings := parent.bindings.filter fun binding ↦
        row.definition.roles.any fun role ↦ role.name = binding.1
      let phaseId ← okOr (corrupt "open parent run has no current phase") parent.currentPhaseId
      let own ← s.own e.store parentRunId
      let phaseRow ← okOr (corrupt ("parent run has no phase " ++ phaseId)) (own.phaseRow phaseId)
      let (e', childRunId) ← s.startRun row parent.subjectId epoch parent.generation bindings
        (some parentRunId) e
      let own' ← s.own e'.store parentRunId
      let (recorded, _) ← own'.append s.digest
        (own'.startedRow charterId childRunId phaseId phaseRow.round)
      pure { e' with store := e'.store.put recorded }

/-! ## Settling -/

def perform : Work → Engine → Except StorageError Engine
  | .advance runId => s.advance runId
  | .end runId how reason => s.endRun runId how reason
  | .startChild parentRunId charterId => s.startChild parentRunId charterId

/-- Drain queued work, at most so many items of it. -/
def settleWithin : Nat → Engine → Except StorageError Engine
  | limit, e =>
    match e.queue with
    | [] => pure e
    | work :: rest =>
      match limit with
      | 0 => throw (corrupt "run settlement exceeded its step limit")
      | limit + 1 => do
        let e' ← s.perform work { e with queue := rest }
        settleWithin limit e'

def settle (e : Engine) : Except StorageError Engine := s.settleWithin stepLimit e

end Session

end Charter

end Khive
