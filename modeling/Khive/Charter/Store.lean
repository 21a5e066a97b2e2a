import Khive.Charter.Evaluate
import Khive.Charter.Publication
import Khive.Foundation.Table

/-!
# The charter store

Subjects are keyed by kind and reference; a run is attached to one subject and holds its phases and
the evidence recorded for it. Phase and evidence rows are keyed by their run, so they are kept inside
it, and evidence is numbered densely from one, so a row's sequence is its place. Published definitions
are never changed and are parameters of the model.
-/

namespace Khive

namespace Charter

/-- The payload of an evidence row: the members that some kind of row has. -/
structure Payload where
  outcome : Option String := none
  args : Option Args := none
  detail : Option Args := none
  generation : Option String := none
  epoch : Option Nat := none
  childRunId : Option String := none
  reason : Option String := none
  phase : Option String := none
  round : Option Nat := none
  requested : Option String := none
  deriving DecidableEq, Repr

structure Evidence where
  kind : String
  producer : String
  sourceIdentity : String
  sourceEventId : String
  payload : Payload
  deriving DecidableEq, Repr

/-- The row as an observation. -/
def Evidence.obs (row : Evidence) : Obs where
  kind := row.kind
  outcome := row.payload.outcome
  args := row.payload.args.getD []
  generation := row.payload.generation
  epoch := row.payload.epoch
  childRunId := row.payload.childRunId
  phase := row.payload.phase
  round := row.payload.round

/-- The unique key of evidence within its run. -/
def Evidence.identity (row : Evidence) : String × String × String × String :=
  (row.producer, row.kind, row.sourceIdentity, row.sourceEventId)

inductive PhaseState
  | dormant
  | waiting (state : WaitState)
  | completed
  deriving DecidableEq, Repr

/-- What a phase row says the phase waits on. -/
structure StoredWait where
  waitingOn : WaitingOn
  round : Nat
  owner : Option String
  deriving DecidableEq, Repr

structure PhaseRow where
  phaseId : String
  ordinal : Nat
  state : PhaseState
  round : Nat
  waitingOn : Option StoredWait
  deriving DecidableEq, Repr

/-- How a run ends. -/
inductive Ending
  | completed
  | cancelled
  | superseded
  | terminated
  deriving DecidableEq, Repr

def Ending.asStr : Ending → String
  | .completed => "completed"
  | .cancelled => "cancelled"
  | .superseded => "superseded"
  | .terminated => "terminated"

inductive RunState
  | «open»
  | ended (how : Ending)
  deriving DecidableEq, Repr

def RunState.asStr : RunState → String
  | .open => "open"
  | .ended how => how.asStr

structure Run where
  policyDomain : String
  runId : String
  «namespace» : String
  subjectId : String
  subjectEpoch : Nat
  charterId : String
  definitionVersion : Int
  bindings : List (String × String)
  generation : Option String
  state : RunState
  currentPhaseId : Option String
  parentRunId : Option String
  createdAtUs : Int
  phases : List PhaseRow
  evidence : List Evidence
  deriving DecidableEq, Repr

structure Subject where
  policyDomain : String
  subjectId : String
  «namespace» : String
  subjectKind : String
  subjectRef : String
  subjectEpoch : Nat
  generation : Option String
  deriving DecidableEq, Repr

/-- The natural key of a subject. -/
def Subject.key (s : Subject) : String × String := (s.subjectKind, s.subjectRef)

/-- The receipt of a generation trigger. -/
structure TriggerRow where
  policyDomain : String
  caller : String
  requestId : String
  requestDigest : String
  deriving DecidableEq, Repr

def TriggerRow.key (row : TriggerRow) : String × String × String :=
  (row.policyDomain, row.caller, row.requestId)

structure Store where
  subjects : Table Subject String Subject.subjectId
  /-- No two subjects are of one kind and reference. -/
  keys : (subjects.rows.map Subject.key).Nodup
  runs : Table Run String Run.runId
  triggers : Table TriggerRow (String × String × String) TriggerRow.key
  deriving DecidableEq

structure DefinitionRow where
  policyDomain : String
  «namespace» : String
  definition : Definition
  /-- The registry it was compiled against. -/
  pinned : Registry

/-- What commands do not change. -/
structure World where
  libraries : Libraries
  /-- The digest of the canonical text of a payload. -/
  payloadDigest : Payload → String
  /-- The caller that receipts of a domain's triggers of one kind by one producer are kept under. -/
  triggerCaller : (domain subjectId producer kind : String) → String
  vocabularies : List VocabularyRow
  definitions : List DefinitionRow
  /-- A version of a charter is published in a domain at most once. -/
  versions : definitions.Pairwise fun a b ↦ ¬(a.policyDomain = b.policyDomain ∧
    a.definition.id = b.definition.id ∧ a.definition.version = b.definition.version)

namespace World

variable (world : World)

/-- `definition-get.sql`. -/
def getDefinition (domain charterId : String) (version : Int) : Option DefinitionRow :=
  world.definitions.find? fun row ↦ row.policyDomain = domain ∧ row.definition.id = charterId ∧
    row.definition.version = version

/-- The later of two versions. -/
def later (held : Option DefinitionRow) (row : DefinitionRow) : Option DefinitionRow :=
  match held with
  | none => some row
  | some h => if h.definition.version < row.definition.version then some row else some h

/-- `definition-latest.sql`. -/
def latestDefinition (domain charterId : String) : Option DefinitionRow :=
  (world.definitions.filter fun row ↦
    row.policyDomain = domain ∧ row.definition.id = charterId).foldl later none

end World

namespace Run

/-- The run's row for a phase. -/
def phaseRow (run : Run) (phaseId : String) : Option PhaseRow :=
  run.phases.find? fun row ↦ row.phaseId = phaseId

/-- Change the row of a phase. -/
def updatePhase (run : Run) (phaseId : String) (f : PhaseRow → PhaseRow) : Run :=
  { run with phases := run.phases.map fun row ↦ if row.phaseId = phaseId then f row else row }

/-- `phase-state.sql`. -/
def setPhaseState (run : Run) (phaseId : String) (state : PhaseState)
    (waitingOn : Option StoredWait) : Run :=
  run.updatePhase phaseId fun row ↦ { row with state := state, waitingOn := waitingOn }

/-- `phase-enter.sql`. -/
def enterPhase (run : Run) (phaseId : String) : Run :=
  run.updatePhase phaseId fun row ↦
    { row with state := .waiting .trigger, round := row.round + 1, waitingOn := none }

/-- `run-set-phase.sql`. -/
def setPhase (run : Run) (phaseId : String) : Run := { run with currentPhaseId := some phaseId }

/-- `run-end.sql`. -/
def finish (run : Run) (how : Ending) : Run := { run with state := .ended how }

/-- `evidence-insert.sql`. -/
def record (run : Run) (row : Evidence) : Run := { run with evidence := run.evidence ++ [row] }

/-- `evidence-since.sql`: the observations of a later sequence. -/
def observationsSince (run : Run) (after : Nat) : List Obs :=
  (run.evidence.drop after).map Evidence.obs

/-- Append one observation to a run. One that is already recorded under the same producer, kind,
source and event id is not recorded again. -/
def append (digest : Payload → String) (run : Run) (row : Evidence) :
    Except StorageError (Run × Bool) :=
  match run.evidence.find? fun held ↦ held.identity = row.identity with
  | some held =>
    if digest held.payload = digest row.payload then .ok (run, false)
    else .error (.conflict "EvidenceConflict"
      "the same evidence source identity was submitted with different bytes")
  | none =>
    if row.kind = "" ∨ row.producer = "" ∨ row.sourceIdentity = "" ∨ row.sourceEventId = "" then
      .error (.constraint "charter_evidence")
    else .ok (run.record row, true)

end Run

/-- A run created no later, and of no later id. -/
def runLE (a b : Run) : Prop :=
  a.createdAtUs < b.createdAtUs ∨ a.createdAtUs = b.createdAtUs ∧ a.runId ≤ b.runId

instance : DecidableRel runLE := fun _ _ ↦ inferInstanceAs (Decidable (_ ∨ _))

namespace Store

/-- `ORDER BY created_at_us, run_id`. -/
def inOrder (runs : List Run) : List Run := runs.insertionSort runLE

/-- `subject-get.sql`. -/
def subject? (store : Store) (kind reference : String) : Option Subject :=
  store.subjects.rows.find? fun s ↦ s.key = (kind, reference)

/-- `run-get.sql`: the run with its subject. -/
def loadRun (store : Store) (runId : String) : Option (Run × Subject) := do
  let run ← store.runs.get runId
  let subject ← store.subjects.get run.subjectId
  pure (run, subject)

/-- The run of an id in a domain, whose phases and evidence are read. -/
def runIn? (store : Store) (domain runId : String) : Option Run :=
  (store.runs.get runId).filter fun run ↦ run.policyDomain = domain

/-- Write back what a run's rows have become. -/
def put (store : Store) (run : Run) : Store := { store with runs := store.runs.put run }

/-- `runs-open-for-subject.sql`. -/
def openRunsForSubject (store : Store) (domain subjectId : String) : List Run :=
  inOrder (store.runs.rows.filter fun run ↦
    run.policyDomain = domain ∧ run.subjectId = subjectId ∧ run.state = .open)

/-- `run-open-for-charter.sql`. -/
def openRunForCharter (store : Store) (domain charterId subjectId : String) : Option Run :=
  (inOrder (store.runs.rows.filter fun run ↦ run.policyDomain = domain ∧
    run.charterId = charterId ∧ run.subjectId = subjectId ∧ run.state = .open)).head?

/-- `runs-open-children.sql`. -/
def openChildren (store : Store) (domain runId : String) : List Run :=
  inOrder (store.runs.rows.filter fun run ↦
    run.policyDomain = domain ∧ run.parentRunId = some runId ∧ run.state = .open)

section Store

variable {store : Store} {domain runId subjectId kind reference : String} {run : Run}
  {subject : Subject}

theorem subject?_eq_some : store.subject? kind reference = some subject ↔
    subject ∈ store.subjects.rows ∧ subject.key = (kind, reference) := by
  constructor
  · intro h
    exact ⟨List.mem_of_find?_eq_some h, by simpa using List.find?_some h⟩
  · rintro ⟨hmem, hkey⟩
    cases hfind : store.subject? kind reference with
    | none => exact absurd (List.find?_eq_none.mp hfind subject hmem) (by simp [hkey])
    | some s =>
      have hs : s.key = (kind, reference) := by simpa using List.find?_some hfind
      rw [List.inj_on_of_nodup_map store.keys (List.mem_of_find?_eq_some hfind) hmem
        (hs.trans hkey.symm)]

/-- The subject of a run is the one that its kind and reference find. -/
theorem subject?_of_get (h : store.subjects.get subjectId = some subject) :
    store.subject? subject.subjectKind subject.subjectRef = some subject :=
  subject?_eq_some.mpr ⟨Table.mem_of_get h, rfl⟩

theorem loadRun_eq_some : store.loadRun runId = some (run, subject) ↔
    store.runs.get runId = some run ∧ store.subjects.get run.subjectId = some subject := by
  simp only [loadRun, Option.bind_eq_bind, Option.bind_eq_some_iff, Option.pure_def,
    Option.some.injEq, Prod.mk.injEq]
  constructor
  · rintro ⟨r, hr, s, hs, rfl, rfl⟩
    exact ⟨hr, hs⟩
  · rintro ⟨hr, hs⟩
    exact ⟨run, hr, subject, hs, rfl, rfl⟩

theorem runIn?_eq_some : store.runIn? domain runId = some run ↔
    store.runs.get runId = some run ∧ run.policyDomain = domain := by
  simp [runIn?, Option.filter_eq_some_iff]

theorem mem_inOrder {runs : List Run} : run ∈ inOrder runs ↔ run ∈ runs :=
  List.mem_insertionSort _

theorem mem_openRunsForSubject : run ∈ store.openRunsForSubject domain subjectId ↔
    store.runs.get run.runId = some run ∧ run.policyDomain = domain ∧
      run.subjectId = subjectId ∧ run.state = .open := by
  rw [openRunsForSubject, mem_inOrder, List.mem_filter, decide_eq_true_iff, Table.get_eq_some]
  simp

theorem openRunForCharter_eq_some {charterId : String}
    (h : store.openRunForCharter domain charterId subjectId = some run) :
    store.runs.get run.runId = some run ∧ run.policyDomain = domain ∧
      run.charterId = charterId ∧ run.subjectId = subjectId ∧ run.state = .open := by
  have hmem := mem_inOrder.mp (List.mem_of_mem_head? h)
  rw [List.mem_filter, decide_eq_true_iff] at hmem
  exact ⟨Table.get_of_mem hmem.1, hmem.2⟩

end Store

end Store

namespace Run

variable {digest : Payload → String} {run run' : Run} {row : Evidence} {fresh : Bool}

/-- An observation is appended, or the run holds one of its identity and equal bytes. -/
theorem append_eq_ok : run.append digest row = .ok (run', fresh) ↔
    (∃ held ∈ run.evidence, held.identity = row.identity ∧
      (run.evidence.find? fun held ↦ held.identity = row.identity) = some held ∧
      digest held.payload = digest row.payload ∧ run' = run ∧ fresh = false) ∨
    (∀ held ∈ run.evidence, held.identity ≠ row.identity) ∧ row.kind ≠ "" ∧ row.producer ≠ "" ∧
      row.sourceIdentity ≠ "" ∧ row.sourceEventId ≠ "" ∧ run' = run.record row ∧ fresh = true := by
  rw [append]
  cases hfind : run.evidence.find? fun held ↦ held.identity = row.identity with
  | some held =>
    have hheld : held.identity = row.identity := by simpa using List.find?_some hfind
    have hmem := List.mem_of_find?_eq_some hfind
    -- a row of the same identity is taken again when its bytes agree, and refused otherwise
    by_cases hdigest : digest held.payload = digest row.payload
    · simp only [hdigest, if_true, Except.ok.injEq, Prod.mk.injEq]
      constructor
      · rintro ⟨rfl, rfl⟩
        exact Or.inl ⟨held, hmem, hheld, rfl, hdigest, rfl, rfl⟩
      · rintro (⟨_, -, -, -, -, rfl, rfl⟩ | ⟨hnone, -⟩)
        · exact ⟨rfl, rfl⟩
        · exact absurd hheld (hnone held hmem)
    · simp only [hdigest, if_false, reduceCtorEq, false_iff, not_or]
      refine ⟨?_, fun h ↦ h.1 held hmem hheld⟩
      rintro ⟨held', -, -, hfind', hdigest', -⟩
      cases hfind'
      exact hdigest hdigest'
  | none =>
    have hnone : ∀ held ∈ run.evidence, held.identity ≠ row.identity := by
      simpa using List.find?_eq_none.mp hfind
    by_cases hempty : row.kind = "" ∨ row.producer = "" ∨ row.sourceIdentity = "" ∨
        row.sourceEventId = ""
    · simp only [hempty, if_true, reduceCtorEq, false_iff, not_or]
      refine ⟨?_, fun h ↦ ?_⟩
      · rintro ⟨held, hmem, hheld, -⟩
        exact hnone held hmem hheld
      · rcases hempty with h' | h' | h' | h'
        · exact h.2.1 h'
        · exact h.2.2.1 h'
        · exact h.2.2.2.1 h'
        · exact h.2.2.2.2.1 h'
    · simp only [hempty, if_false, Except.ok.injEq, Prod.mk.injEq]
      simp only [not_or] at hempty
      constructor
      · rintro ⟨rfl, rfl⟩
        exact Or.inr ⟨hnone, hempty.1, hempty.2.1, hempty.2.2.1, hempty.2.2.2, rfl, rfl⟩
      · rintro (⟨held, hmem, hheld, -⟩ | ⟨-, -, -, -, -, rfl, rfl⟩)
        · exact absurd hheld (hnone held hmem)
        · exact ⟨rfl, rfl⟩

end Run

end Charter

end Khive
