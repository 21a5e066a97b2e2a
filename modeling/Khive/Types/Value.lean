import Khive.Foundation.Binary64
import Khive.Foundation.Json

/-!
# `serde_json` values

A JSON number is an unsigned or a negative 64-bit integer or a finite double; there is no JSON
text for the other doubles, and no value holds one. So, unlike the doubles it contains, a value
always equals itself. An object's map is ordered by key.
-/

namespace Khive

/-- `serde_json::Number`. -/
inductive JsonNumber where
  | posInt (n : UInt64)
  | negInt (n : Int64)
  | float (x : { x : Binary64 // x.isFinite = true })

namespace JsonNumber

def beq : JsonNumber → JsonNumber → Bool
  | .posInt m, .posInt n => m == n
  | .negInt m, .negInt n => m == n
  | .float x, .float y => x.val == y.val
  | _, _ => false

instance : BEq JsonNumber := ⟨beq⟩

instance : PartialEquivBEq JsonNumber where
  symm {a b} h := by
    change beq a b = true at h
    change beq b a = true
    cases a <;> cases b <;> simp only [beq, Bool.false_eq_true] at h ⊢ <;>
      exact PartialEquivBEq.symm h
  trans {a b c} h₁ h₂ := by
    change beq a b = true at h₁
    change beq b c = true at h₂
    change beq a c = true
    cases a <;> cases b <;> cases c <;> simp only [beq, Bool.false_eq_true] at h₁ h₂ ⊢ <;>
      exact PartialEquivBEq.trans h₁ h₂

instance : ReflBEq JsonNumber where
  rfl {a} := by
    change beq a a = true
    cases a with
    | posInt n => simp [beq]
    | negInt n => simp [beq]
    | float x => exact Binary64.beq_self_of_isFinite x.property

end JsonNumber

/-- `serde_json::Value`. -/
abbrev JsonValue := Json JsonNumber

namespace JsonValue

/-- `Value::as_object`. -/
def asObject : JsonValue → Option (List (String × JsonValue))
  | .object members => some members
  | _ => none

/-- `serde_json::json!` of an optional string. -/
def ofOptionString : Option String → JsonValue
  | some s => .string s
  | none => .null

end JsonValue

/-- `Map::get`. -/
def getMember (members : List (String × JsonValue)) (key : String) : Option JsonValue :=
  (members.find? fun m ↦ m.1 == key).map Prod.snd

namespace JsonValue

/-- `Value::get` of a key. -/
def get (v : JsonValue) (key : String) : Option JsonValue :=
  v.asObject.bind fun members ↦ getMember members key

/-- `Value::as_str`. -/
def asStr : JsonValue → Option String
  | .string s => some s
  | _ => none

/-- `Value::as_array`. -/
def asArray : JsonValue → Option (List JsonValue)
  | .array items => some items
  | _ => none

end JsonValue

end Khive
