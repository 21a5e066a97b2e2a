import Khive.Charter.Definition

/-!
# Evaluating a phase

A phase is evaluated over the observations recorded since it was entered. It is settled once every
`await` line, action, perform, holding `require` and `when` name has an observation. A failing
requirement, action or perform then holds it, unless the first `when` whose label matches the newest
observation routes on that same name. With nothing held, the matched `when` decides the route, or the
phase takes its `next` route.
-/

namespace Khive

namespace Charter

/-- One recorded observation, decoded from its payload. -/
structure Obs where
  kind : String
  outcome : Option String
  args : Args
  generation : Option String
  epoch : Option Nat
  childRunId : Option String
  phase : Option String
  round : Option Nat
  deriving DecidableEq, Repr

/-- Every wanted argument has the wanted value. -/
def argsMatch (wanted got : Args) : Bool := wanted.all fun a ↦ got.lookup a.1 = some a.2

def newest (obs : List Obs) (kind : String) (args : Args) : Option Obs :=
  obs.reverse.find? fun o ↦ o.kind = kind ∧ argsMatch args o.args

/-- The ending of the child run that the visit started last. -/
def performedChild (obs : List Obs) (child phaseId : String) (round : Nat) : Option Obs := do
  let started ← obs.reverse.find? fun o ↦
    o.kind = child ∧ o.phase = some phaseId ∧ o.round = some round
  let expected ← started.childRunId
  obs.reverse.find? fun o ↦
    o.kind = child ∧ o.childRunId = some expected ∧ o.outcome ≠ some "started"

def phaseObservation (phase : PhaseDef) (obs : List Obs) (name : String) (args : Args)
    (phaseId : String) (round : Nat) : Option Obs :=
  if args = [] ∧ name ∈ phase.performs then performedChild obs name phaseId round
  else newest obs name args

/-- Something a phase has no observation of. -/
inductive Pending
  | «await» (line : List String)
  | action (name : String) (args : Args) («by» : Option String)
  | «perform» (child : String)
  | require (phrase : String) (args : Args) (level : Level)
  | «when» (name : String) (args : Args)
  deriving DecidableEq, Repr

/-- The pending item is of an action, a perform or a requirement of the name. -/
def Pending.holds (name : String) : Pending → Bool
  | .await _ => false
  | .action n _ _ => n = name
  | .perform n => n = name
  | .require n _ _ => n = name
  | .when _ _ => false

/-- Something that was observed and does not pass. -/
inductive Blocked
  | require (phrase : String) (args : Args) (level : Level) (outcome : Option String)
  | action (name : String) («by» : Option String) (outcome : Option String)
  | «perform» (child : String) (outcome : Option String)
  deriving DecidableEq, Repr

inductive WaitState
  | trigger
  | gate
  | actor
  deriving DecidableEq, Repr

inductive WaitingOn
  | pending (items : List Pending)
  | blocked (items : List Blocked)
  deriving DecidableEq, Repr

inductive Eval
  | wait (state : WaitState) (waitingOn : WaitingOn)
  | route (route : Route)
  deriving DecidableEq, Repr

section Evaluate

variable (phase : PhaseDef) (phaseId : String) (round : Nat) (obs : List Obs)

def pendingAwaits : List Pending :=
  (phase.awaits.filter fun line ↦ !obs.any fun o ↦ line.contains o.kind).map .await

def pendingActions : List Pending :=
  (phase.actions.filter fun a ↦ (newest obs a.name a.args).isNone).map fun a ↦
    .action a.name a.args a.by

def pendingPerforms : List Pending :=
  (phase.performs.filter fun child ↦ (performedChild obs child phaseId round).isNone).map .perform

def pendingRequires : List Pending :=
  (phase.requires.filter fun r ↦ r.level.holdsPhase && (newest obs r.phrase r.args).isNone).map
    fun r ↦ .require r.phrase r.args r.level

/-- The `when` keys without an observation, each once, that nothing pending has the name of. -/
def pendingWhens (before : List Pending) : List (String × Args) → List WhenDef → List Pending
  | _, [] => []
  | seen, w :: ws =>
    if w.key ∈ seen then pendingWhens before seen ws
    else if (phaseObservation phase obs w.name w.args phaseId round).isNone ∧
        ¬before.any (Pending.holds w.name) then
      .when w.name w.args :: pendingWhens before (w.key :: seen) ws
    else pendingWhens before (w.key :: seen) ws

/-- What is pending besides the `when` clauses. -/
def pendingSteps : List Pending :=
  pendingAwaits phase obs ++ pendingActions phase obs ++ pendingPerforms phase phaseId round obs ++
    pendingRequires phase obs

def pending : List Pending :=
  pendingSteps phase phaseId round obs ++
    pendingWhens phase phaseId round obs (pendingSteps phase phaseId round obs) [] phase.whens

def pendingState : WaitState :=
  if pendingAwaits phase obs ≠ [] then .trigger
  else if pendingActions phase obs ≠ [] ∨ pendingPerforms phase phaseId round obs ≠ [] then .actor
  else .gate

def observedOutcome (name : String) (args : Args) : Option String :=
  (phaseObservation phase obs name args phaseId round).bind Obs.outcome

/-- The first `when` whose label is the outcome of the newest observation. -/
def matchedWhen : Option WhenDef :=
  phase.whens.find? fun w ↦ observedOutcome phase phaseId round obs w.name w.args = some w.label

/-- The matched `when` routes on this name. -/
def routesOn (name : String) (args : Args) : Bool :=
  (matchedWhen phase phaseId round obs).any fun w ↦ w.name = name ∧ w.args = args

def blockedRequires : List Blocked :=
  (phase.requires.filter fun r ↦
    r.level.holdsPhase && !routesOn phase phaseId round obs r.phrase r.args &&
      !(observedOutcome phase phaseId round obs r.phrase r.args).any r.passes.contains).map fun r ↦
        .require r.phrase r.args r.level (observedOutcome phase phaseId round obs r.phrase r.args)

def blockedActions : List Blocked :=
  (phase.actions.filter fun a ↦
    !routesOn phase phaseId round obs a.name a.args &&
      !(observedOutcome phase phaseId round obs a.name a.args).any a.passes.contains).map fun a ↦
        .action a.name a.by (observedOutcome phase phaseId round obs a.name a.args)

def childOutcome (child : String) : Option String :=
  (performedChild obs child phaseId round).bind Obs.outcome

def blockedPerforms : List Blocked :=
  (phase.performs.filter fun child ↦
    !routesOn phase phaseId round obs child [] &&
      childOutcome phaseId round obs child ≠ some "completed").map fun child ↦
        .perform child (childOutcome phaseId round obs child)

def evaluate : Eval :=
  if pending phase phaseId round obs ≠ [] then
    .wait (pendingState phase phaseId round obs) (.pending (pending phase phaseId round obs))
  else if blockedRequires phase phaseId round obs ≠ [] then
    .wait .gate (.blocked (blockedRequires phase phaseId round obs))
  else if blockedActions phase phaseId round obs ++ blockedPerforms phase phaseId round obs ≠ [] then
    .wait .actor
      (.blocked (blockedActions phase phaseId round obs ++ blockedPerforms phase phaseId round obs))
  else match matchedWhen phase phaseId round obs with
  | some w => .route w.route
  | none => .route phase.next

end Evaluate

end Charter

end Khive
