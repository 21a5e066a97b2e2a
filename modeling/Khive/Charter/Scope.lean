import Mathlib

/-!
# Scopes and refusals

Every verb runs in a policy domain and a namespace, for an actor. What it writes commits in one unit
or not at all, so a refusal is the error of its unit.
-/

namespace Khive

namespace Charter

structure Scope where
  domain : String
  «namespace» : String
  actor : String
  nowUs : Int
  deriving DecidableEq, Repr

inductive StorageError
  | invalidInput (operation message : String)
  | internal (message : String)
  | conflict (operation message : String)
  /-- Raised by a trigger of the schema. -/
  | aborted (message : String)
  /-- A `CHECK`, a key or a reference of the schema. -/
  | constraint (table : String)
  /-- An index or an `expect` that fails. -/
  | panicked (message : String)
  deriving DecidableEq, Repr

/-- A refusal of the pack. -/
structure Refusal where
  code : String
  message : String

/-- A refusal raised inside a unit rolls the unit back. -/
def refuse (verb : String) (refusal : Refusal) : StorageError :=
  .invalidInput verb (refusal.code ++ ": " ++ refusal.message)

/-- A state that the engine never writes. -/
def corrupt (message : String) : StorageError := .internal ("charter: " ++ message)

end Charter

end Khive
