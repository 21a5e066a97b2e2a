import Khive.Charter.Store

/-!
# Visits of a phase

A run is at one phase at a time. Entering a phase past its `max_rounds` bound enters the bound's
`then` phase instead, and every entry is recorded. A visit of a phase reads the observations of the
run's generation and subject epoch: a first visit reads all of them, and a revisit reads what was
recorded after its previous visit ended, so that a loop never reuses the evidence that sent it round.
-/

namespace Khive

namespace Charter

/-- The producer of the observations that the engine writes itself. -/
def engineProducer : String := "charter"

/-- The producer of observations that are read from the store. -/
def storeProducer : String := "store"

/-- The kind of the rows that record phase entries. -/
def enteredKind : String := "charter.entered"

/-- A transition that a command caused. -/
inductive Event
  | bounded (runId phase : String) (rounds : Nat) («then» : String)
  | entered (runId phase : String) (round : Nat)
  | routed (runId «from» : String) (route : Route)
  | started (runId charter : String) (parentRunId : Option String)
  | ended (runId charter : String) (how : Ending) (reason : Option String)
  deriving DecidableEq, Repr

/-- What a run's current visit evaluates. -/
structure Visit where
  phase : PhaseDef
  row : PhaseRow
  obs : List Obs
  deriving DecidableEq, Repr

def Visit.eval (v : Visit) : Eval := evaluate v.phase v.row.phaseId v.row.round v.obs

/-- How a route ends a run. -/
def Route.ending : Route → Option (Ending × Option String)
  | .goto _ => none
  | .complete => some (.completed, none)
  | .terminate reason => some (.terminated, reason)

/-- Where an advance leaves a run. -/
inductive Onward
  | stay
  /-- In another phase, which performs charters. -/
  | enter (performs : List String)
  | «end» (how : Ending) (reason : Option String)
  deriving DecidableEq, Repr

/-- The payload of the entry that starts a visit. -/
def Payload.enters (payload : Payload) (phaseId : String) (round : Nat) : Bool :=
  payload.phase = some phaseId ∧ payload.round = some round

/-- The sequence that ended a visit: that of the first phase entry after the visit's own entry. -/
def visitEnd (phaseId : String) (round : Nat) : Bool → List (Nat × Payload) → Option Nat
  | _, [] => none
  | true, (sequence, _) :: _ => some sequence
  | false, (_, payload) :: rest => visitEnd phaseId round (payload.enters phaseId round) rest

namespace Run

/-- `entries-for-run.sql`: the sequences and payloads of phase entries. -/
def entries (run : Run) : List (Nat × Payload) :=
  ((run.evidence.zipIdx 1).filter fun e ↦ e.1.kind = enteredKind).map fun e ↦ (e.2, e.1.payload)

def previousVisitEnd (run : Run) (phaseId : String) (round : Nat) : Except StorageError Nat :=
  okOr (corrupt ("phase " ++ phaseId ++ " round " ++ toString round ++
    " has no ended previous visit")) (visitEnd phaseId (round - 1) false run.entries)

/-- Observations up to this sequence belong to earlier visits. -/
def window (run : Run) (phaseId : String) (round : Nat) : Except StorageError Nat :=
  if 1 < round then run.previousVisitEnd phaseId round else pure 0

/-- The observation is of the run's generation and subject epoch. -/
def reads (run : Run) (o : Obs) : Bool :=
  o.generation = run.generation ∧ o.epoch = some run.subjectEpoch

/-- The visit that the run is in. -/
def visit (run : Run) (definition : Definition) : Except StorageError Visit := do
  let phaseId ← okOr (corrupt "open run has no current phase") run.currentPhaseId
  let row ← okOr (.panicked "phases") (run.phaseRow phaseId)
  let phase ← okOr (corrupt ("unknown phase " ++ phaseId)) (definition.phase phaseId)
  let window ← run.window phaseId row.round
  pure ⟨phase, row, (run.observationsSince window).filter run.reads⟩

/-- The bound of a phase that was entered as often as it may be. -/
def exhausted (run : Run) (definition : Definition) (target : String) :
    Except StorageError (Option MaxRounds) := do
  let phase ← okOr (corrupt ("unknown phase " ++ target)) (definition.phase target)
  let row ← okOr (corrupt ("run has no phase row " ++ target)) (run.phaseRow target)
  pure (phase.maxRounds.filter fun bound ↦ bound.rounds ≤ row.round)

def circle : StorageError := corrupt "max_rounds bounds route in a circle"

/-- The phase that is entered when `target` is requested, after at most so many hops. -/
def resolveTarget (run : Run) (definition : Definition) :
    Nat → String → Except StorageError (String × List Event)
  | 0, target => do
    match ← run.exhausted definition target with
    | none => pure (target, [])
    | some _ => throw circle
  | hops + 1, target => do
    match ← run.exhausted definition target with
    | none => pure (target, [])
    | some bound =>
      let (entered, events) ← resolveTarget run definition hops bound.then
      pure (entered, .bounded run.runId target bound.rounds bound.then :: events)

/-- The row that records an entry. -/
def enteredRow (run : Run) (target : String) (round : Nat) (requested : String) : Evidence where
  kind := enteredKind
  producer := engineProducer
  sourceIdentity := run.runId
  sourceEventId := "entered:" ++ target ++ ":" ++ toString round
  payload := { phase := some target, round := some round, requested := some requested }

/-- Enter a phase, or the phase that its bounds redirect to. -/
def enter (digest : Payload → String) (definition : Definition) (requested : String) (run : Run) :
    Except StorageError (Run × List Event × List String) := do
  let (target, bounded) ← run.resolveTarget definition definition.phases.length requested
  let row ← okOr (.panicked "phases") (run.phaseRow target)
  let (recorded, _) ← run.append digest (run.enteredRow target (row.round + 1) requested)
  if run.state ≠ .open then throw (corrupt "entering a phase of a run that is not open")
  let phase ← okOr (.panicked "checked above") (definition.phase target)
  pure ((recorded.enterPhase target).setPhase target,
    bounded ++ [.entered run.runId target (row.round + 1)], phase.performs)

def leave (run : Run) (phaseId : String) : Run := run.setPhaseState phaseId .completed none

/-- The run with its current phase left. -/
def left (run : Run) : Run := run.currentPhaseId.elim run run.leave

/-- Write what the visit waits on. -/
def wait (run : Run) (v : Visit) (state : WaitState) (waitingOn : WaitingOn) : Run :=
  run.setPhaseState v.row.phaseId (.waiting state) (some ⟨waitingOn, v.row.round, v.phase.owner⟩)

/-- Evaluate the current visit, and leave the phase when it routes. -/
def advance (digest : Payload → String) (definition : Definition) (run : Run) :
    Except StorageError (Run × List Event × Onward) := do
  let v ← run.visit definition
  match v.eval with
  | .wait state waitingOn => pure (run.wait v state waitingOn, [], .stay)
  | .route route =>
    let left := run.leave v.row.phaseId
    let routed := Event.routed run.runId v.row.phaseId route
    match route with
    | .goto phase =>
      let (entered, events, performs) ← left.enter digest definition phase
      pure (entered, routed :: events, .enter performs)
    | .complete => pure (left, [routed], .end .completed none)
    | .terminate reason => pure (left, [routed], .end .terminated reason)

/-! ## What an advance does -/

/-- A later state of a run: its pins are kept and its evidence grows. -/
def Extends (run run' : Run) : Prop :=
  ∃ state current phases rows, run' = { run with
    state := state
    currentPhaseId := current
    phases := phases
    evidence := run.evidence ++ rows }

section Extends

variable {run run' run'' : Run}

theorem Extends.refl (run : Run) : run.Extends run :=
  ⟨run.state, run.currentPhaseId, run.phases, [], by rw [List.append_nil]⟩

theorem Extends.trans (h : run.Extends run') (h' : run'.Extends run'') : run.Extends run'' := by
  obtain ⟨state, current, phases, rows, rfl⟩ := h
  obtain ⟨state', current', phases', rows', rfl⟩ := h'
  exact ⟨state', current', phases', rows ++ rows', by rw [← List.append_assoc]⟩

theorem Extends.runId (h : run.Extends run') : run'.runId = run.runId := by
  obtain ⟨state, current, phases, rows, rfl⟩ := h
  rfl

theorem Extends.policyDomain (h : run.Extends run') : run'.policyDomain = run.policyDomain := by
  obtain ⟨state, current, phases, rows, rfl⟩ := h
  rfl

theorem Extends.subjectId (h : run.Extends run') : run'.subjectId = run.subjectId := by
  obtain ⟨state, current, phases, rows, rfl⟩ := h
  rfl

theorem Extends.subjectEpoch (h : run.Extends run') : run'.subjectEpoch = run.subjectEpoch := by
  obtain ⟨state, current, phases, rows, rfl⟩ := h
  rfl

theorem Extends.generation (h : run.Extends run') : run'.generation = run.generation := by
  obtain ⟨state, current, phases, rows, rfl⟩ := h
  rfl

theorem Extends.charterId (h : run.Extends run') : run'.charterId = run.charterId := by
  obtain ⟨state, current, phases, rows, rfl⟩ := h
  rfl

theorem Extends.definitionVersion (h : run.Extends run') :
    run'.definitionVersion = run.definitionVersion := by
  obtain ⟨state, current, phases, rows, rfl⟩ := h
  rfl

theorem Extends.parentRunId (h : run.Extends run') : run'.parentRunId = run.parentRunId := by
  obtain ⟨state, current, phases, rows, rfl⟩ := h
  rfl

theorem Extends.evidence (h : run.Extends run') : ∃ rows, run'.evidence = run.evidence ++ rows := by
  obtain ⟨state, current, phases, rows, rfl⟩ := h
  exact ⟨rows, rfl⟩

theorem extends_setPhaseState (run : Run) (phaseId : String) (state : PhaseState)
    (waitingOn : Option StoredWait) : run.Extends (run.setPhaseState phaseId state waitingOn) :=
  ⟨run.state, run.currentPhaseId, _, [], by rw [List.append_nil]; rfl⟩

theorem extends_finish (run : Run) (how : Ending) : run.Extends (run.finish how) :=
  ⟨.ended how, run.currentPhaseId, run.phases, [], by rw [List.append_nil]; rfl⟩

theorem extends_left (run : Run) : run.Extends run.left := by
  rw [left]
  cases run.currentPhaseId with
  | none => exact Extends.refl run
  | some phaseId => exact extends_setPhaseState run phaseId _ _

theorem extends_append {digest : Payload → String} {row : Evidence} {fresh : Bool}
    (h : run.append digest row = .ok (run', fresh)) : run.Extends run' := by
  rcases append_eq_ok.mp h with ⟨_, _, _, _, _, rfl, -⟩ | ⟨_, _, _, _, _, rfl, -⟩
  · exact Extends.refl _
  · exact ⟨run.state, run.currentPhaseId, run.phases, [row], rfl⟩

/-- Appending changes only the evidence. -/
theorem append_fields {digest : Payload → String} {row : Evidence} {fresh : Bool}
    (h : run.append digest row = .ok (run', fresh)) :
    run'.state = run.state ∧ run'.currentPhaseId = run.currentPhaseId ∧
      run'.phases = run.phases := by
  rcases append_eq_ok.mp h with ⟨_, _, _, _, _, rfl, -⟩ | ⟨_, _, _, _, _, rfl, -⟩
  · exact ⟨rfl, rfl, rfl⟩
  · exact ⟨rfl, rfl, rfl⟩

end Extends

/-- The entry of a phase. -/
inductive Enters (digest : Payload → String) (definition : Definition) (run : Run)
    (requested : String) : Run → List Event → List String → Prop
  | enters {target : String} {bounded : List Event} {row : PhaseRow} {recorded : Run}
    {fresh : Bool} {phase : PhaseDef}
    (hresolve : run.resolveTarget definition definition.phases.length requested =
      .ok (target, bounded))
    (hrow : run.phaseRow target = some row)
    (happend : run.append digest (run.enteredRow target (row.round + 1) requested) =
      .ok (recorded, fresh))
    (hopen : run.state = .open) (hphase : definition.phase target = some phase) :
    Enters digest definition run requested ((recorded.enterPhase target).setPhase target)
      (bounded ++ [.entered run.runId target (row.round + 1)]) phase.performs

/-- The advance of a run. -/
inductive Moves (digest : Payload → String) (definition : Definition) (run : Run) :
    Run → List Event → Onward → Prop
  | waits {v : Visit} {state : WaitState} {waitingOn : WaitingOn}
    (hvisit : run.visit definition = .ok v) (heval : v.eval = .wait state waitingOn) :
    Moves digest definition run (run.wait v state waitingOn) [] .stay
  | goes {v : Visit} {phase : String} {entered : Run} {events : List Event}
    {performs : List String} (hvisit : run.visit definition = .ok v)
    (heval : v.eval = .route (.goto phase))
    (henters : Enters digest definition (run.leave v.row.phaseId) phase entered events performs) :
    Moves digest definition run entered (.routed run.runId v.row.phaseId (.goto phase) :: events)
      (.enter performs)
  | ends {v : Visit} {route : Route} {how : Ending} {reason : Option String}
    (hvisit : run.visit definition = .ok v) (heval : v.eval = .route route)
    (hending : route.ending = some (how, reason)) :
    Moves digest definition run (run.leave v.row.phaseId)
      [.routed run.runId v.row.phaseId route] (.end how reason)

section Cases

variable {digest : Payload → String} {definition : Definition} {run moved entered : Run}
  {events : List Event} {performs : List String} {onward : Onward} {requested : String}

theorem enter_cases (h : run.enter digest definition requested = .ok (entered, events, performs)) :
    Enters digest definition run requested entered events performs := by
  rw [enter] at h
  obtain ⟨⟨target, bounded⟩, hresolve, h⟩ := bind_eq_ok.mp h
  obtain ⟨row, hrow, h⟩ := bind_eq_ok.mp h
  obtain ⟨⟨recorded, fresh⟩, happend, h⟩ := bind_eq_ok.mp h
  obtain ⟨hopen, h⟩ := guard_eq_ok.mp h
  obtain ⟨phase, hphase, h⟩ := bind_eq_ok.mp h
  obtain ⟨rfl, rfl, rfl⟩ : _ ∧ _ ∧ _ := by simpa only [pure_eq_ok, Prod.mk.injEq] using h
  exact .enters hresolve (okOr_eq_ok.mp hrow) happend (not_not.mp hopen) (okOr_eq_ok.mp hphase)

theorem advance_cases (h : run.advance digest definition = .ok (moved, events, onward)) :
    Moves digest definition run moved events onward := by
  rw [advance] at h
  obtain ⟨v, hvisit, h⟩ := bind_eq_ok.mp h
  cases heval : v.eval with
  | wait state waitingOn =>
    rw [heval] at h
    obtain ⟨rfl, rfl, rfl⟩ : _ ∧ _ ∧ _ := by simpa only [pure_eq_ok, Prod.mk.injEq] using h
    exact .waits hvisit heval
  | route route =>
    rw [heval] at h
    cases route with
    | goto phase =>
      obtain ⟨⟨entered, events', performs⟩, henter, h⟩ := bind_eq_ok.mp h
      obtain ⟨rfl, rfl, rfl⟩ : _ ∧ _ ∧ _ := by simpa only [pure_eq_ok, Prod.mk.injEq] using h
      exact .goes hvisit heval (enter_cases henter)
    | complete =>
      obtain ⟨rfl, rfl, rfl⟩ : _ ∧ _ ∧ _ := by simpa only [pure_eq_ok, Prod.mk.injEq] using h
      exact .ends hvisit heval rfl
    | terminate reason =>
      obtain ⟨rfl, rfl, rfl⟩ : _ ∧ _ ∧ _ := by simpa only [pure_eq_ok, Prod.mk.injEq] using h
      exact .ends hvisit heval rfl

theorem Enters.extends (h : Enters digest definition run requested entered events performs) :
    run.Extends entered := by
  cases h with
  | @enters target bounded row recorded fresh phase _ _ happend _ _ =>
    exact (extends_append happend).trans ⟨recorded.state, some target,
      (recorded.enterPhase target).phases, [], by rw [List.append_nil]; rfl⟩

theorem Enters.state (h : Enters digest definition run requested entered events performs) :
    run.state = .open ∧ entered.state = .open := by
  cases h with
  | enters _ _ happend hopen _ => exact ⟨hopen, (append_fields happend).1.trans hopen⟩

theorem Moves.extends (h : Moves digest definition run moved events onward) :
    run.Extends moved := by
  cases h with
  | waits => exact extends_setPhaseState _ _ _ _
  | goes _ _ henters => exact (extends_setPhaseState _ _ _ _).trans henters.extends
  | ends => exact extends_setPhaseState _ _ _ _

/-- An advance does not close the run. -/
theorem Moves.state (h : Moves digest definition run moved events onward) :
    moved.state = run.state := by
  cases h with
  | waits => rfl
  | goes _ _ henters => exact henters.state.2.trans henters.state.1.symm
  | ends => rfl

end Cases

end Run

end Charter

end Khive
