import Khive.Charter.Registry

/-!
# Charter definitions

A charter compiles to a definition that holds every registry fact its evaluation needs: the passing
outcomes of what a phase names, the argument values, and the entries it refers to. A phase waits on
what it awaits, does, performs and requires; its `when` clauses decide where the run goes next.
-/

namespace Khive

namespace Charter

/-- A JSON value given for an argument. Of the values that no parameter takes only the text
matters. -/
inductive ArgValue
  | string (s : String)
  | integer (n : Int)
  | bool (b : Bool)
  | other (text : String)
  deriving DecidableEq, Repr

/-- Arguments by name. -/
abbrev Args := List (String × ArgValue)

inductive Route
  | goto (phase : String)
  | complete
  | terminate (reason : Option String)
  deriving DecidableEq, Repr

structure RoleDef where
  name : String
  description : Option String
  deriving DecidableEq, Repr

structure ActionDef where
  name : String
  args : Args
  «by» : Option String
  passes : List String
  deriving DecidableEq, Repr

structure RequireDef where
  phrase : String
  args : Args
  level : Level
  passes : List String
  deriving DecidableEq, Repr

inductive WhenSource
  | phrase
  | trigger
  | action
  | charter
  deriving DecidableEq, Repr

structure WhenDef where
  name : String
  source : WhenSource
  args : Args
  label : String
  route : Route
  deriving DecidableEq, Repr

structure GrantDef where
  role : String
  action : String
  deriving DecidableEq, Repr

structure MaxRounds where
  rounds : Nat
  «then» : String
  deriving DecidableEq, Repr

structure PhaseDef where
  id : String
  ordinal : Nat
  owner : Option String
  awaits : List (List String)
  actions : List ActionDef
  performs : List String
  requires : List RequireDef
  whens : List WhenDef
  evidence : List String
  grants : List GrantDef
  maxRounds : Option MaxRounds
  /-- The route taken when the phase is satisfied and no `when` matched. -/
  next : Route
  deriving DecidableEq, Repr

structure BreakGlassDef where
  «by» : Option String
  on : List String
  reasonMin : Option Int
  marksDegraded : Bool
  deriving DecidableEq, Repr

structure Definition where
  id : String
  version : Int
  title : Option String
  subject : String
  roles : List RoleDef
  triggers : List String
  phases : List PhaseDef
  breakGlass : Option BreakGlassDef
  registry : OrderedMap String EntryDef

def Definition.phase (definition : Definition) (id : String) : Option PhaseDef :=
  definition.phases.find? fun p ↦ p.id = id

/-- The key of a `when`: what it observes. -/
def WhenDef.key (w : WhenDef) : String × Args := (w.name, w.args)

end Charter

end Khive
