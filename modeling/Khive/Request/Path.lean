import Khive.Request.Parser

/-!
# Paths into the previous result

A reference names a place in the result of the operation before: fields of objects and positions in
arrays, read off a path one segment after another. The path is stored as text and split when it is
resolved. A bracket that holds no index makes the rest of the path one malformed segment, which
nothing matches.

A second walk over the same segments says why a reference does not resolve. It finds a failure
exactly when there is one.
-/

namespace Khive

/-! ## Segments -/

/-- One object-field or array-index segment, or bracket syntax that is no index. -/
inductive PathSegment where
  | field (key : String)
  | index (idx : Nat)
  | malformed (raw : String)
  deriving DecidableEq

/-- `usize::MAX`, one more. -/
def usizeLimit : Nat := 2 ^ 64

/-- The number that decimal digits spell. -/
def decimalValue (digits : List Char) : Nat :=
  digits.foldl (fun n c ↦ n * 10 + (c.toNat - '0'.toNat)) 0

/-- `str::parse::<usize>`: digits, after a plus sign at most. -/
def parseUsize (s : List Char) : Option Nat :=
  let digits := (s.dropPrefix? ['+']).getD s
  if !digits.isEmpty && digits.all isAsciiDigit && decide (decimalValue digits < usizeLimit) then
    some (decimalValue digits)
  else none

/-- `strip_prefix('.').unwrap_or(remaining)`. -/
def stripDot : List Char → List Char
  | '.' :: cs => cs
  | cs => cs

theorem length_stripDot_le (cs : List Char) : (stripDot cs).length ≤ cs.length := by
  unfold stripDot
  split
  · exact Nat.le_succ _
  · exact le_rfl

/-- Whether a field ends before the character. -/
def endsField (c : Char) : Bool := c == '.' || c == '['

/-- What is left behind a field is shorter: a field has a character, or a dot is in its place. -/
theorem length_afterField_lt {c : Char} (hc : c ≠ '[') (cs : List Char) :
    (stripDot ((c :: cs).drop ((c :: cs).takeWhile (!endsField ·)).length)).length <
      (c :: cs).length := by
  by_cases hend : endsField c = true
  · have hdot : c = '.' := by simpa [endsField, hc] using hend
    subst hdot
    rw [List.takeWhile_cons_of_neg (by simp [endsField])]
    exact Nat.lt_succ_self _
  · rw [List.takeWhile_cons_of_pos (by simpa using hend)]
    refine (length_stripDot_le _).trans_lt ?_
    rw [List.length_drop, List.length_cons, List.length_cons]
    omega

/-- `split_path`. -/
def splitPath : List Char → List PathSegment
  | [] => []
  | c :: cs =>
    if _h : c = '[' then
      let index := cs.takeWhile (· != ']')
      let idx := if index.length < cs.length then parseUsize index else none
      match idx with
      | some idx => .index idx :: splitPath (stripDot (cs.drop (index.length + 1)))
      | none => [.malformed (String.ofList (c :: cs))]
    else
      let field := (c :: cs).takeWhile (!endsField ·)
      let rest := splitPath (stripDot ((c :: cs).drop field.length))
      if field.isEmpty then rest else .field (String.ofList field) :: rest
  termination_by path => path.length
  decreasing_by
    · rw [List.length_cons, Nat.lt_succ_iff]
      refine (length_stripDot_le _).trans ?_
      rw [List.length_drop]
      exact Nat.sub_le _ _
    · exact length_afterField_lt ‹_› cs

/-- `apply_path_segment`. -/
def applyPathSegment (cur : JsonValue) : PathSegment → Option JsonValue
  | .field key => cur.asObject.bind fun members ↦ getMember members key
  | .index idx =>
    match cur with
    | .array items => items[idx]?
    | _ => none
  | .malformed _ => none

/-- The loop of `resolve_prev` over the segments. -/
def applySegments (cur : JsonValue) (segments : List PathSegment) : Option JsonValue :=
  segments.foldlM applyPathSegment cur

/-! ## Resolution -/

namespace ArgValue

/-- Resolves this reference in the previous result. -/
def resolvePrev (prevResult : JsonValue) : ArgValue → Option JsonValue
  | .prevRef path =>
    if path.isEmpty then some prevResult else applySegments prevResult (splitPath path.toList)
  | _ => none

mutual

/-- Materializes this argument, returning `none` if any nested reference misses. -/
def resolveAll (prevResult : JsonValue) : ArgValue → Option JsonValue
  | .value v => some v
  | .prevRef path => resolvePrev prevResult (.prevRef path)
  | .array elements => (resolveElements prevResult elements).map .array
  | .object pairs =>
    (resolvePairs prevResult pairs).map fun members ↦ .object (SortedMap.collect members)

def resolveElements (prevResult : JsonValue) : List ArgValue → Option (List JsonValue)
  | [] => some []
  | x :: xs => do
    let v ← resolveAll prevResult x
    let vs ← resolveElements prevResult xs
    some (v :: vs)

def resolvePairs (prevResult : JsonValue) :
    List (String × ArgValue) → Option (List (String × JsonValue))
  | [] => some []
  | m :: ms => do
    let v ← resolveAll prevResult m.2
    let vs ← resolvePairs prevResult ms
    some ((m.1, v) :: vs)

end

end ArgValue

/-! ## Failures -/

/-- `json_type_name`. -/
def jsonTypeName : JsonValue → String
  | .null => "null"
  | .bool _ => "boolean"
  | .number _ => "number"
  | .string _ => "string"
  | .array _ => "array"
  | .object _ => "object"

/-- Explains why a `$prev` path failed to resolve. -/
inductive PrevFailure where
  | notFound (argPath prevPath resolvedPrefix missing : String) (available : List String)
  | wrongType (argPath prevPath resolvedPrefix segment expected found : String)
  | unsupported (argPath prevPath segment : String)
  deriving DecidableEq

/-- `replace(".[", "[")`. -/
def dropDotBeforeBracket : List Char → List Char
  | '.' :: '[' :: cs => '[' :: dropDotBeforeBracket cs
  | c :: cs => c :: dropDotBeforeBracket cs
  | [] => []

/-- `render_prev_path`. -/
def renderPrevPath (path : String) : String :=
  String.ofList (dropDotBeforeBracket ("$prev." ++ path).toList)

/-- `prev_path_prefix`. -/
def prevPathPrefix (resolvedPrefix : String) : String :=
  if resolvedPrefix.isEmpty then "$prev" else renderPrevPath resolvedPrefix

/-- `[idx]`. -/
def indexText (idx : Nat) : String := "[" ++ toString idx ++ "]"

/-- What a segment makes of a value: the value it leads to and the prefix resolved by then, or the
failure. -/
def stepSegment (argPath path : String) (cur : JsonValue) (resolvedPrefix : String) :
    PathSegment → Except PrevFailure (JsonValue × String)
  | .field key =>
    match cur with
    | .object members =>
      match getMember members key with
      | some v =>
        .ok (v, (if resolvedPrefix.isEmpty then "" else resolvedPrefix ++ ".") ++ key)
      | none =>
        .error (.notFound argPath (renderPrevPath path) (prevPathPrefix resolvedPrefix) key
          ((members.map Prod.fst).insertionSort (· ≤ ·)))
    | other =>
      .error (.wrongType argPath (renderPrevPath path) (prevPathPrefix resolvedPrefix) key "object"
        (jsonTypeName other))
  | .index idx =>
    match cur with
    | .array items =>
      match items[idx]? with
      | some v => .ok (v, resolvedPrefix ++ indexText idx)
      | none =>
        .error (.notFound argPath (renderPrevPath path) (prevPathPrefix resolvedPrefix)
          (indexText idx) ["array has " ++ toString items.length ++ " element(s)"])
    | other =>
      .error (.wrongType argPath (renderPrevPath path) (prevPathPrefix resolvedPrefix)
        (indexText idx) "array" (jsonTypeName other))
  | .malformed raw => .error (.unsupported argPath (renderPrevPath path) raw)

/-- The loop of `find_prev_failure_at` over the segments of a reference. -/
def findSegmentFailure (argPath path : String) :
    JsonValue → String → List PathSegment → Option PrevFailure
  | _, _, [] => none
  | cur, resolvedPrefix, segment :: segments =>
    match stepSegment argPath path cur resolvedPrefix segment with
    | .ok (next, resolvedPrefix) => findSegmentFailure argPath path next resolvedPrefix segments
    | .error failure => some failure

namespace ArgValue

mutual

/-- `find_prev_failure_at`. -/
def findPrevFailureAt (prevResult : JsonValue) (argPath : String) :
    ArgValue → Option PrevFailure
  | .value _ => none
  | .prevRef path =>
    if path.isEmpty then none
    else findSegmentFailure argPath path prevResult "" (splitPath path.toList)
  | .array elements => findElementFailure prevResult argPath 0 elements
  | .object pairs => findPairFailure prevResult argPath pairs

/-- `find_map` over the elements, from position `i` on. -/
def findElementFailure (prevResult : JsonValue) (argPath : String) :
    Nat → List ArgValue → Option PrevFailure
  | _, [] => none
  | i, x :: xs =>
    (findPrevFailureAt prevResult (argPath ++ indexText i) x).or
      (findElementFailure prevResult argPath (i + 1) xs)

/-- `find_map` over the members. -/
def findPairFailure (prevResult : JsonValue) (argPath : String) :
    List (String × ArgValue) → Option PrevFailure
  | [] => none
  | m :: ms =>
    (findPrevFailureAt prevResult (if argPath.isEmpty then m.1 else argPath ++ "." ++ m.1) m.2).or
      (findPairFailure prevResult argPath ms)

end

/-- Finds the first reference within this argument that fails to resolve. -/
def findPrevFailure (prevResult : JsonValue) (arg : ArgValue) : Option PrevFailure :=
  findPrevFailureAt prevResult "" arg

end ArgValue

/-- The diagnosis of a segment fails exactly where the lookup misses, and goes on where it goes
on. -/
theorem stepSegment_spec (argPath path resolvedPrefix : String) (cur : JsonValue)
    (segment : PathSegment) :
    match stepSegment argPath path cur resolvedPrefix segment with
    | .ok (next, _) => applyPathSegment cur segment = some next
    | .error _ => applyPathSegment cur segment = none := by
  cases segment with
  | field key =>
    cases cur with
    | object members =>
      simp only [stepSegment, applyPathSegment, JsonValue.asObject, Option.bind_some]
      cases getMember members key <;> rfl
    | _ => rfl
  | index idx =>
    cases cur with
    | array items =>
      simp only [stepSegment, applyPathSegment]
      cases items[idx]? <;> rfl
    | _ => rfl
  | malformed raw => rfl

theorem findSegmentFailure_eq_none {argPath path : String} {cur : JsonValue}
    {resolvedPrefix : String} {segments : List PathSegment} :
    findSegmentFailure argPath path cur resolvedPrefix segments = none ↔
      (applySegments cur segments).isSome = true := by
  induction segments generalizing cur resolvedPrefix with
  | nil => exact iff_of_true rfl rfl
  | cons segment segments ih =>
    have hstep := stepSegment_spec argPath path resolvedPrefix cur segment
    rw [findSegmentFailure, applySegments, List.foldlM_cons]
    cases hrun : stepSegment argPath path cur resolvedPrefix segment with
    | ok step =>
      obtain ⟨next, resolved⟩ := step
      rw [hrun] at hstep
      rw [hstep]
      exact ih
    | error failure =>
      rw [hrun] at hstep
      rw [hstep]
      exact iff_of_false (by simp) (by simp)

namespace ArgValue

mutual

theorem findPrevFailureAt_eq_none (prevResult : JsonValue) (argPath : String) :
    ∀ arg : ArgValue, findPrevFailureAt prevResult argPath arg = none ↔
      (resolveAll prevResult arg).isSome = true
  | .value v => by
    rw [findPrevFailureAt, resolveAll]
    exact iff_of_true rfl rfl
  | .prevRef path => by
    rw [findPrevFailureAt, resolveAll, resolvePrev]
    split_ifs
    · exact iff_of_true rfl rfl
    · exact findSegmentFailure_eq_none
  | .array elements => by
    rw [findPrevFailureAt, resolveAll, Option.isSome_map]
    exact findElementFailure_eq_none prevResult argPath 0 elements
  | .object pairs => by
    rw [findPrevFailureAt, resolveAll, Option.isSome_map]
    exact findPairFailure_eq_none prevResult argPath pairs

theorem findElementFailure_eq_none (prevResult : JsonValue) (argPath : String) :
    ∀ (i : Nat) (elements : List ArgValue),
      findElementFailure prevResult argPath i elements = none ↔
        (resolveElements prevResult elements).isSome = true
  | i, [] => by
    rw [findElementFailure, resolveElements]
    exact iff_of_true rfl rfl
  | i, x :: xs => by
    rw [findElementFailure, resolveElements, Option.or_eq_none_iff,
      findPrevFailureAt_eq_none prevResult _ x, findElementFailure_eq_none prevResult argPath _ xs]
    cases resolveAll prevResult x with
    | none => simp
    | some v => cases resolveElements prevResult xs <;> simp

theorem findPairFailure_eq_none (prevResult : JsonValue) (argPath : String) :
    ∀ pairs : List (String × ArgValue),
      findPairFailure prevResult argPath pairs = none ↔
        (resolvePairs prevResult pairs).isSome = true
  | [] => by
    rw [findPairFailure, resolvePairs]
    exact iff_of_true rfl rfl
  | m :: ms => by
    rw [findPairFailure, resolvePairs, Option.or_eq_none_iff,
      findPrevFailureAt_eq_none prevResult _ m.2, findPairFailure_eq_none prevResult argPath ms]
    cases resolveAll prevResult m.2 with
    | none => simp
    | some v => cases resolvePairs prevResult ms <;> simp

end

end ArgValue

end Khive
