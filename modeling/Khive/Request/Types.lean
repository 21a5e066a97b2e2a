import Khive.Foundation.JsonText
import Khive.Types.Value

/-!
# Request types

The data model of the request language: argument values, operations, parsed requests and the
errors of the parser, with the limits on size and nesting. An argument is a JSON value, a
reference to the previous result, or an array or object literal with such a reference inside.

The walk that bounds the nesting of a value keeps its pending work on an explicit stack; it
accepts exactly the values of bounded depth.
-/

namespace Khive

/-- `MAX_OPS`. -/
def maxOps : Nat := 100

/-- `MAX_OPS_INPUT_LEN`, in bytes. -/
def maxOpsInputLen : Nat := 1024 * 1024

/-- `NESTING_DEPTH_LIMIT`. -/
def nestingDepthLimit : Nat := 64

/-- `RESERVED_ENVELOPE_ARGS`. -/
def reservedEnvelopeArgs : List String := ["presentation", "presentation_per_op"]

inductive ExecutionMode where
  | single
  | parallel
  | chain
  deriving DecidableEq

inductive ArgValue where
  /-- A concrete JSON value. -/
  | value (v : JsonValue)
  /-- A `$prev` back-reference. -/
  | prevRef (path : String)
  /-- An array literal with at least one `$prev` element. -/
  | array (elements : List ArgValue)
  /-- An object literal with at least one `$prev` value. -/
  | object (pairs : List (String × ArgValue))

/-- One tool name and its named arguments, ordered by name. -/
structure ParsedOp where
  tool : String
  args : List (String × ArgValue)

/-- `std::ops::Range<usize>`. -/
structure OpRange where
  start : Nat
  stop : Nat
  deriving DecidableEq

structure ParsedRequest where
  ops : List ParsedOp
  mode : ExecutionMode
  ranges : List OpRange

/-- One already decoded JSON operation. Its arguments are a map ordered by key. -/
structure TypedJsonOp where
  tool : String
  args : List (String × JsonValue)
  wellFormed : (Json.object args).WellFormed

inductive DslError where
  | empty
  | tooManyOps (count max : Nat)
  | inputTooLarge (len max : Nat)
  | nestingTooDeep (pos depth max : Nat)
  | unexpectedChar (pos : Nat) (found : Char) (expected : String)
  | unexpectedEof (expected : String)
  | invalidIdentifier (pos : Nat)
  | duplicateArg (name : String)
  | invalidValue (pos : Nat) (error : String)
  | invalidJson (error : String)
  | unclosedString (start : Nat)
  | unclosedCall (start : Nat)
  | unclosedBracket (kind : Char)
  | prevRefOutsideChain (pos : Nat)
  | prevRefInJsonForm (argName : String)
  | mixedSeparators
  | emptyBatch
  | unsupportedVerbNesting (pos : Nat)
  | reservedEnvelopeArg (argName verb : String)
  | trailingComma (pos : Nat)

/-! ## Depth of an argument -/

namespace ArgValue

mutual

/-- The arrays and objects around the innermost part, of the literal and of its JSON together. -/
def depth : ArgValue → Nat
  | .value v => v.depth
  | .prevRef _ => 0
  | .array elements => depthElements elements + 1
  | .object pairs => depthPairs pairs + 1

def depthElements : List ArgValue → Nat
  | [] => 0
  | x :: xs => max (depth x) (depthElements xs)

def depthPairs : List (String × ArgValue) → Nat
  | [] => 0
  | m :: ms => max (depth m.2) (depthPairs ms)

end

theorem depthElements_le {xs : List ArgValue} {n : Nat} :
    depthElements xs ≤ n ↔ ∀ x ∈ xs, x.depth ≤ n := by
  induction xs with
  | nil => simp [depthElements]
  | cons x xs ih => rw [depthElements, max_le_iff, ih, List.forall_mem_cons]

theorem depthPairs_le {ms : List (String × ArgValue)} {n : Nat} :
    depthPairs ms ≤ n ↔ ∀ m ∈ ms, m.2.depth ≤ n := by
  induction ms with
  | nil => simp [depthPairs]
  | cons m ms ih => rw [depthPairs, max_le_iff, ih, List.forall_mem_cons]

end ArgValue

/-! ## The bounded walk -/

section Walk

variable {ν : Type}

mutual

/-- The number of values in a tree, which bounds the walk. -/
def Json.nodes : Json ν → Nat
  | .array xs => Json.nodesItems xs + 1
  | .object ms => Json.nodesMembers ms + 1
  | _ => 1

def Json.nodesItems : List (Json ν) → Nat
  | [] => 0
  | x :: xs => Json.nodes x + Json.nodesItems xs

def Json.nodesMembers : List (String × Json ν) → Nat
  | [] => 0
  | m :: ms => Json.nodes m.2 + Json.nodesMembers ms

end

theorem Json.nodesItems_eq (xs : List (Json ν)) :
    Json.nodesItems xs = (xs.map Json.nodes).sum := by
  induction xs with
  | nil => rfl
  | cons x xs ih => rw [nodesItems, ih, List.map_cons, List.sum_cons]

theorem Json.nodesMembers_eq (ms : List (String × Json ν)) :
    Json.nodesMembers ms = (ms.map fun m ↦ m.2.nodes).sum := by
  induction ms with
  | nil => rfl
  | cons m ms ih => rw [nodesMembers, ih, List.map_cons, List.sum_cons]

theorem Json.nodes_pos (v : Json ν) : 0 < v.nodes := by
  cases v <;> simp [Json.nodes]

/-- `Map::values`. -/
def memberValues (members : List (String × Json ν)) : List (Json ν) := members.map Prod.snd

/-- The nodes still to visit. -/
private def pending (stack : List (Json ν × Nat)) : Nat := (stack.map fun e ↦ e.1.nodes).sum

private theorem pending_append (s t : List (Json ν × Nat)) :
    pending (s ++ t) = pending s + pending t := by
  rw [pending, List.map_append, List.sum_append, pending, pending]

/-- `stack.extend`: the last value pushed is the first popped. -/
def pushAll (depth : Nat) (values : List (Json ν)) : List (Json ν × Nat) :=
  values.reverse.map fun v ↦ (v, depth)

private theorem mem_pushAll {depth : Nat} {values : List (Json ν)} {e : Json ν × Nat} :
    e ∈ pushAll depth values ↔ ∃ v ∈ values, (v, depth) = e := by
  rw [pushAll, List.mem_map]
  simp only [List.mem_reverse]

private theorem pending_pushAll (depth : Nat) (values : List (Json ν)) :
    pending (pushAll depth values) = (values.map Json.nodes).sum := by
  rw [pending, pushAll, List.map_map, List.map_reverse, List.sum_reverse]
  rfl

/-- The loop of `value_nesting_within_limit`; the top of the stack is its head. -/
def nestingWalk (maxDepth : Nat) : List (Json ν × Nat) → Bool
  | [] => true
  | (.array items, depth) :: stack =>
    if depth + 1 > maxDepth then false
    else nestingWalk maxDepth (pushAll (depth + 1) items ++ stack)
  | (.object members, depth) :: stack =>
    if depth + 1 > maxDepth then false
    else nestingWalk maxDepth (pushAll (depth + 1) (memberValues members) ++ stack)
  | (_, _) :: stack => nestingWalk maxDepth stack
  termination_by stack => pending stack
  decreasing_by
    · rw [pending_append, pending_pushAll]
      simp only [pending, List.map_cons, List.sum_cons, Json.nodes, Json.nodesItems_eq]
      omega
    · rw [pending_append, pending_pushAll, memberValues, List.map_map]
      simp only [pending, List.map_cons, List.sum_cons, Json.nodes, Json.nodesMembers_eq]
      exact Nat.add_lt_add_right (Nat.lt_succ_self _) _
    · simp only [pending, List.map_cons, List.sum_cons]
      exact Nat.lt_add_of_pos_left (Json.nodes_pos _)

/-- `value_nesting_within_limit`. -/
def valueNestingWithinLimit (value : Json ν) (maxDepth : Nat) : Bool :=
  nestingWalk maxDepth [(value, 0)]

private theorem forall_pushAll {maxDepth depth : Nat} (hle : depth ≤ maxDepth)
    {values : List (Json ν)} :
    (∀ e ∈ pushAll depth values, e.1.depth = 0 ∨ e.2 + e.1.depth ≤ maxDepth) ↔
      ∀ v ∈ values, v.depth ≤ maxDepth - depth := by
  simp only [mem_pushAll, forall_exists_index, and_imp, forall_apply_eq_imp_iff₂]
  refine forall₂_congr fun v _ ↦ ?_
  omega

/-- The walk accepts when every pending value fits under the limit. -/
theorem nestingWalk_eq_true (maxDepth : Nat) (stack : List (Json ν × Nat)) :
    nestingWalk maxDepth stack = true ↔
      ∀ e ∈ stack, e.1.depth = 0 ∨ e.2 + e.1.depth ≤ maxDepth := by
  fun_induction nestingWalk maxDepth stack with
  | case1 => simp
  | case2 items depth stack hgt =>
    refine iff_of_false Bool.false_ne_true fun h ↦ ?_
    have harray := h _ List.mem_cons_self
    simp only [Json.depth] at harray
    omega
  | case3 items depth stack hle ih =>
    rw [ih, List.forall_mem_append, List.forall_mem_cons, forall_pushAll (by omega),
      ← Json.depthItems_le]
    refine and_congr_left fun _ ↦ ?_
    simp only [Json.depth]
    omega
  | case4 members depth stack hgt =>
    refine iff_of_false Bool.false_ne_true fun h ↦ ?_
    have hobject := h _ List.mem_cons_self
    simp only [Json.depth] at hobject
    omega
  | case5 members depth stack hle ih =>
    rw [ih, List.forall_mem_append, List.forall_mem_cons, forall_pushAll (by omega),
      memberValues, List.forall_mem_map, ← Json.depthMembers_le]
    refine and_congr_left fun _ ↦ ?_
    simp only [Json.depth]
    omega
  | case6 v depth stack harray hobject ih =>
    rw [ih, List.forall_mem_cons]
    refine (and_iff_right (Or.inl ?_)).symm
    cases v with
    | array items => exact (harray items rfl).elim
    | object members => exact (hobject members rfl).elim
    | _ => rfl

/-- **Bounded walk**: the walk accepts a value exactly when its depth is within the limit. -/
theorem valueNestingWithinLimit_eq_true (value : Json ν) (maxDepth : Nat) :
    valueNestingWithinLimit value maxDepth = true ↔ value.depth ≤ maxDepth := by
  rw [valueNestingWithinLimit, nestingWalk_eq_true, List.forall_mem_singleton]
  change value.depth = 0 ∨ 0 + value.depth ≤ maxDepth ↔ _
  omega

end Walk

end Khive
