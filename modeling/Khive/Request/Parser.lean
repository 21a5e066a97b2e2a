import Khive.Foundation.Bytes
import Khive.Request.Scan

/-!
# The function-call parser

A recursive-descent parser over a cursor: what is left of the text, and the byte position. An
argument value is a `$prev` reference, an array or object literal, or a scalar. A scalar is cut
out of the text, trimmed, and handed to `serde_json`, which is a parameter here.

Literals may nest as deep as the limit allows. The parser counts the depth; here the count runs
the other way, as the room that is left, and entering a literal fails when there is none. The
loops that read elements, members and arguments have one form. They carry fuel, one unit for
each pass: a pass that goes on has read a comma, so the length of the text is enough.
-/

namespace Khive

/-! ## Libraries -/

/-- `serde_json::Error`: its text, and where it lies in the text that was parsed. -/
structure SerdeError where
  message : String
  line : Nat
  column : Nat

/-- What the parser uses of its libraries. -/
structure Libraries where
  /-- `serde_json::from_str::<Value>`. -/
  fromStr : List Char → Except SerdeError JsonValue
  /-- `serde_json::from_str::<String>`. -/
  stringFromStr : List Char → Except SerdeError String
  /-- `Display` of a JSON value. -/
  display : JsonValue → String
  /-- The characters that `Debug` escapes by number: grapheme extenders and unprintable ones. -/
  unprintable : Char → Bool

/-- `serde_json`'s recursion limit: the container at this depth is refused. -/
def serdeRecursionLimit : Nat := 128

/-- `{:?}` of a string. -/
def debugStr (lib : Libraries) (s : List Char) : String := debugText lib.unprintable s

/-! ## The cursor -/

/-- What is left of the text, and its byte position. -/
structure Parser where
  rest : List Char
  pos : Nat

def isAsciiDigit (c : Char) : Bool := '0' ≤ c && c ≤ '9'

def isAsciiAlphabetic (c : Char) : Bool := ('a' ≤ c && c ≤ 'z') || ('A' ≤ c && c ≤ 'Z')

/-- The first character of an identifier. -/
def startsIdentifier (c : Char) : Bool := isAsciiAlphabetic c || c == '_'

def continuesIdentifier (c : Char) : Bool := isAsciiAlphabetic c || isAsciiDigit c || c == '_'

namespace Parser

def new (src : List Char) : Parser := ⟨src, 0⟩

def eof (p : Parser) : Bool := p.rest.isEmpty

def peek (p : Parser) : Option Char := p.rest.head?

/-- Move on by a number of characters. -/
def advance (p : Parser) (n : Nat) : Parser := ⟨p.rest.drop n, p.pos + utf8Len (p.rest.take n)⟩

def skipWs (p : Parser) : Parser := p.advance (p.rest.takeWhile isAsciiWhitespace).length

def expectChar (p : Parser) (want : Char) : Except DslError Parser :=
  let p := p.skipWs
  match p.peek with
  | some c =>
    if c = want then .ok (p.advance 1)
    else .error (.unexpectedChar p.pos (leadByte c) (charLabel want))
  | none => .error (.unexpectedEof (charLabel want))

def parseIdentifier (p : Parser) : Except DslError (String × Parser) :=
  let p := p.skipWs
  if p.peek.any startsIdentifier then
    let name := p.rest.takeWhile continuesIdentifier
    .ok (String.ofList name, p.advance name.length)
  else .error (.invalidIdentifier p.pos)

/-- The tool name of `parse_op`: `verb` or `pack.verb`. -/
def parseTool (p : Parser) : Except DslError (String × Parser) := do
  let (tool, p) ← p.parseIdentifier
  if p.peek = some '.' then do
    let (sub, p) ← (p.advance 1).parseIdentifier
    if p.peek = some '.' then .error (.unsupportedVerbNesting p.pos)
    else .ok (tool ++ "." ++ sub, p)
  else .ok (tool, p)

/-- The loop over comma-separated items up to a closing delimiter. An item may look at those
before it. -/
def separated {α : Type} (close : Char) (expected : String) (unclosed : DslError)
    (item : List α → Parser → Except DslError (α × Parser)) :
    Nat → List α → Parser → Except DslError (List α × Parser)
  | 0, _, _ => .error unclosed
  | fuel + 1, items, p => do
    let (a, p) ← item items p
    let p := p.skipWs
    match p.peek with
    | some c =>
      if c = ',' then
        separated close expected unclosed item fuel (items ++ [a]) (p.advance 1).skipWs
      else if c = close then .ok (items ++ [a], p.advance 1)
      else .error (.unexpectedChar p.pos (leadByte c) expected)
    | none => .error unclosed

/-! ## References to the previous result -/

/-- The index in `$prev[3]`, behind its bracket. -/
def parseIndex (p : Parser) : Except DslError (String × Parser) :=
  let digits := p.rest.takeWhile isAsciiDigit
  if digits.isEmpty then
    .error (.invalidValue p.pos "expected non-negative integer inside '[...]'")
  else
    let p := p.advance digits.length
    match p.peek with
    | some c =>
      if c = ']' then .ok (String.ofList digits, p.advance 1)
      else .error (.unexpectedChar p.pos (leadByte c) "']'")
    | none => .error (.unexpectedEof "']'")

def pushSegment (path segment : String) : String :=
  if path.isEmpty then segment else path ++ "." ++ segment

/-- The loop of `parse_prev_ref`. Every pass reads a character, so with as much fuel as text the
loop ends where the text does. -/
def prevSegments : Nat → String → Parser → Except DslError (String × Parser)
  | 0, path, p => .ok (path, p)
  | fuel + 1, path, p =>
    if p.peek = some '.' then do
      let (segment, p) ← (p.advance 1).parseIdentifier
      prevSegments fuel (pushSegment path segment) p
    else if p.peek = some '[' then do
      let (index, p) ← (p.advance 1).parseIndex
      prevSegments fuel (pushSegment path ("[" ++ index ++ "]")) p
    else .ok (path, p)

def parsePrevRef (p : Parser) : Except DslError (ArgValue × Parser) := do
  let start := p.pos
  let (ident, p) ← (p.advance 1).parseIdentifier.mapError fun _ ↦
    .invalidValue start "expected '$prev' — '$' must be followed by 'prev'"
  if ident ≠ "prev" then
    .error (.invalidValue start ("expected '$prev', found '$" ++ ident ++ "'"))
  else do
    let (path, p) ← prevSegments p.rest.length "" p
    .ok (.prevRef path, p)

end Parser

/-- The loop of `quoted_prev_path_is_valid`, outside an index or inside one. -/
def prevPathValidFrom : Option Bool → List Char → Bool
  | none, [] => true
  | some _, [] => false
  | none, c :: cs =>
    if c = '[' then prevPathValidFrom (some false) cs
    else if c = ']' then false
    else prevPathValidFrom none cs
  | some digits, c :: cs =>
    if isAsciiDigit c then prevPathValidFrom (some true) cs
    else if digits && c == ']' then prevPathValidFrom none cs
    else false

/-- `quoted_prev_path_is_valid`. -/
def quotedPrevPathIsValid (path : List Char) : Bool := prevPathValidFrom none path

/-- `"$prev[N]tail"`, behind its bracket. -/
def indexedPrevRef (afterBracket : List Char) : Option ArgValue :=
  let index := afterBracket.takeWhile (· != ']')
  let tail := afterBracket.drop (index.length + 1)
  if index.length < afterBracket.length && !index.isEmpty && index.all isAsciiDigit &&
      quotedPrevPathIsValid tail then
    some (.prevRef (String.ofList ('[' :: index ++ ']' :: tail)))
  else none

/-- `string_as_prev_ref`. -/
def stringAsPrevRef (s : String) : Option ArgValue :=
  match s.toList.dropPrefix? ['\\'] with
  | some rest => if isPrevRefString (String.ofList rest)
      then some (.value (.string (String.ofList rest))) else none
  | none =>
    if s = "$prev" then some (.prevRef "")
    else match s.toList.dropPrefix? "$prev.".toList with
      | some rest =>
        if !rest.isEmpty && quotedPrevPathIsValid rest then some (.prevRef (String.ofList rest))
        else none
      | none => (s.toList.dropPrefix? "$prev[".toList).bind indexedPrevRef

/-! ## Scalars -/

/-- The loop of `scan_value_end`: the text still to read, its byte position, the characters read
and to skip, and the open parentheses, brackets and braces. -/
def scanValueEndFrom : List Char → Nat → Nat → Nat → Nat → Nat → Nat → Except DslError Nat
  | [], _, n, _, _, brack, brace =>
    if brack > 0 then .error (.unclosedBracket '[')
    else if brace > 0 then .error (.unclosedBracket '{')
    else .ok n
  | c :: cs, pos, n, skip + 1, paren, brack, brace =>
    scanValueEndFrom cs (pos + c.utf8Size) (n + 1) skip paren brack brace
  | c :: cs, pos, n, 0, paren, brack, brace =>
    let next := scanValueEndFrom cs (pos + c.utf8Size) (n + 1)
    if c = '"' then do
      let span ← scanStringEnd cs pos
      next span paren brack brace
    else if c = '[' then next 0 paren (brack + 1) brace
    else if c = ']' then
      if brack = 0 then .ok n else next 0 paren (brack - 1) brace
    else if c = '{' then next 0 paren brack (brace + 1)
    else if c = '}' then
      if brace = 0 then
        if paren = 0 ∧ brack = 0 then .ok n else .error (.unclosedBracket '{')
      else next 0 paren brack (brace - 1)
    else if c = '(' then next 0 (paren + 1) brack brace
    else if c = ')' then
      if paren = 0 ∧ brack = 0 ∧ brace = 0 then .ok n
      else if paren = 0 then .error (.unclosedBracket '(')
      else next 0 (paren - 1) brack brace
    else if c = ',' ∧ paren = 0 ∧ brack = 0 ∧ brace = 0 then .ok n
    else next 0 paren brack brace

/-- `scan_value_end`, as the number of characters up to the end. -/
def scanValueEnd (p : Parser) : Except DslError Nat := scanValueEndFrom p.rest p.pos 0 0 0 0 0

/-- `strip_serde_position`. -/
def stripSerdePosition (msg : String) : String := ((msg.splitOn " at line ").head?).getD msg

/-- The byte offset of the `n`-th line feed, counted from one. -/
def lineFeedOffset : List Char → Nat → Nat → Option Nat
  | [], _, _ => none
  | c :: cs, offset, n =>
    if c = '\n' then
      if n = 1 then some offset else lineFeedOffset cs (offset + 1) (n - 1)
    else lineFeedOffset cs (offset + c.utf8Size) n

/-- `serde_error_byte_offset`. -/
def serdeErrorByteOffset (e : SerdeError) (text : List Char) : Option Nat :=
  if e.line ≤ 1 then
    if e.column = 0 then none else some (e.column - 1)
  else (lineFeedOffset text 0 (e.line - 1)).map (· + e.column)

/-- `{:?}` of a control character. -/
def debugControl (c : Char) : String :=
  if c = '\x00' then "'\\0'"
  else if c = '\t' then "'\\t'"
  else if c = '\r' then "'\\r'"
  else if c = '\n' then "'\\n'"
  else "'\\u\x7b" ++ String.ofList (Nat.toDigits 16 c.toNat) ++ "\x7d'"

/-- `{:04X}` of a control character. -/
def hexControl (c : Char) : String :=
  let digits := (Nat.toDigits 16 c.toNat).map Char.toUpper
  String.ofList (List.replicate (4 - digits.length) '0' ++ digits)

/-- `describe_quoted_string_parse_error`. -/
def describeQuotedStringParseError (e : SerdeError) (normalized : NormalizedQuotedString) :
    String :=
  let base := stripSerdePosition e.message
  match serdeErrorByteOffset e normalized.text, normalized.firstControlByte with
  | some offset, some hit =>
    if hit.normalizedPos ≠ offset then base
    else if !hit.precededByBackslash && !"control character".toList.isPrefixOf base.toList then base
    else
      base ++ " — byte " ++ toString (hit.rawPos - 1) ++ " of the value is " ++
        debugControl hit.byte ++ " (U+" ++ hexControl hit.byte ++
        "). DSL string escapes follow JSON: \\n, \\t, \\\", \\\\ (raw newline/CR/tab are also " ++
        "accepted literally; other control bytes must be escaped)."
  | _, _ => base

/-- `decode_quoted_json_string`. -/
def decodeQuotedJsonString (lib : Libraries) (raw : List Char) (pos : Nat) :
    Except DslError String :=
  let normalized := normalizeQuotedString raw
  (lib.stringFromStr normalized.text).mapError fun e ↦
    .invalidValue pos (describeQuotedStringParseError e normalized)

/-- `decode_quoted_json_key`. -/
def decodeQuotedJsonKey (lib : Libraries) (raw : List Char) (pos : Nat) :
    Except DslError String :=
  (lib.stringFromStr raw).mapError fun e ↦ .invalidValue pos (stripSerdePosition e.message)

/-- `is_bareword_identifier`. -/
def isBarewordIdentifier (s : List Char) : Bool :=
  s.head?.any startsIdentifier && s.all continuesIdentifier

/-- `bareword_hint_message`. -/
def barewordHintMessage (lib : Libraries) (bareword : List Char) (hint : Option String) : String :=
  let quoted := debugStr lib bareword
  quoted ++ " is a bareword, not a valid value; string values must be double-quoted — did you mean "
    ++ (match hint with
      | some name => name ++ "=" ++ quoted
      | none => quoted) ++ "?"

/-- The value of a trimmed scalar. -/
def decodeScalar (lib : Libraries) (hint : Option String) (trimmed : List Char) (start : Nat) :
    Except DslError JsonValue :=
  if trimmed.head? = some '"' then (decodeQuotedJsonString lib trimmed start).map .string
  else (lib.fromStr trimmed).mapError fun e ↦
    .invalidValue start (if isBarewordIdentifier trimmed then barewordHintMessage lib trimmed hint
      else stripSerdePosition e.message)

/-- `parse_value`. -/
def parseValue (lib : Libraries) (hint : Option String) (p : Parser) :
    Except DslError (JsonValue × Parser) := do
  let p := p.skipWs
  let span ← scanValueEnd p
  let value ← decodeScalar lib hint (trim (p.rest.take span)) p.pos
  .ok (value, p.advance span)

/-! ## Values -/

/-- `ArgValue::as_value`. -/
def ArgValue.asValue : ArgValue → Option JsonValue
  | .value v => some v
  | _ => none

/-- A string that reads as a reference becomes one. -/
def promote : JsonValue → ArgValue
  | .string s => (stringAsPrevRef s).getD (.value (.string s))
  | v => .value v

/-- Elements without references fold to a JSON array. -/
def foldArray (elements : List ArgValue) : ArgValue :=
  match elements.mapM ArgValue.asValue with
  | some vs => .value (.array vs)
  | none => .array elements

/-- Members without references fold to a JSON object, the last of a name winning. -/
def foldObject (pairs : List (String × ArgValue)) : ArgValue :=
  match pairs.mapM fun m ↦ m.2.asValue.map fun v ↦ (m.1, v) with
  | some ms => .value (.object (SortedMap.collect ms))
  | none => .object pairs

/-- The key of a member and its colon; what follows is the value. -/
def parseKey (lib : Libraries) (p : Parser) : Except DslError (String × Parser) :=
  let p := p.skipWs
  match p.peek with
  | some c =>
    if c = '"' then do
      let span ← scanStringEnd p.rest.tail p.pos
      let key ← decodeQuotedJsonKey lib (p.rest.take (span + 1)) p.pos
      let p ← (p.advance (span + 1)).skipWs.expectChar ':'
      .ok (key, p.skipWs)
    else .error (.unexpectedChar p.pos (leadByte c) "quoted string key")
  | none => .error (.unexpectedEof "object key")

/-- One pass of the loop of `parse_object_arg_body`, up to the separator. -/
def parseMember (lib : Libraries)
    (value : Option String → Parser → Except DslError (ArgValue × Parser)) (p : Parser) :
    Except DslError ((String × ArgValue) × Parser) := do
  let (key, p) ← parseKey lib p
  let (v, p) ← value (some key) p
  .ok ((key, v), p)

/-- `parse_array_arg_body`, given how to read an element. -/
def parseArrayArgBody (value : Option String → Parser → Except DslError (ArgValue × Parser))
    (p : Parser) : Except DslError (ArgValue × Parser) :=
  let p := (p.advance 1).skipWs
  if p.peek = some ']' then .ok (.value (.array []), p.advance 1)
  else do
    let (elements, p) ← Parser.separated ']' "',' or ']'" (.unexpectedEof "']'")
      (fun _ p ↦ value none p) (p.rest.length + 1) [] p
    .ok (foldArray elements, p)

/-- `parse_object_arg_body`, given how to read a member's value. -/
def parseObjectArgBody (lib : Libraries)
    (value : Option String → Parser → Except DslError (ArgValue × Parser))
    (p : Parser) : Except DslError (ArgValue × Parser) :=
  let p := (p.advance 1).skipWs
  if p.peek = some '}' then .ok (.value (.object []), p.advance 1)
  else do
    let (pairs, p) ← Parser.separated '}' "',' or '\x7d'" (.unexpectedEof "'\x7d'")
      (fun _ p ↦ parseMember lib value p) (p.rest.length + 1) [] p
    .ok (foldObject pairs, p)

/-- `enter_container`, when no room is left. -/
def nestingTooDeep (p : Parser) : Except DslError (ArgValue × Parser) :=
  .error (.nestingTooDeep p.pos (nestingDepthLimit + 1) nestingDepthLimit)

/-- The dispatch of `parse_arg_value_with_hint` on the first character. -/
def parseArgValueAt (lib : Libraries) (array object : Parser → Except DslError (ArgValue × Parser))
    (hint : Option String) (p : Parser) : Except DslError (ArgValue × Parser) :=
  let p := p.skipWs
  if p.peek = some '$' then p.parsePrevRef
  else if p.peek = some '[' then array p
  else if p.peek = some '{' then object p
  else do
    let (v, p) ← parseValue lib hint p
    .ok (promote v, p)

/-- `parse_arg_value_with_hint`, with room for so many more arrays and objects. -/
def parseArgValueWithHint (lib : Libraries) :
    Nat → Option String → Parser → Except DslError (ArgValue × Parser)
  | 0, hint, p => parseArgValueAt lib nestingTooDeep nestingTooDeep hint p
  | room + 1, hint, p =>
    parseArgValueAt lib (parseArrayArgBody (parseArgValueWithHint lib room))
      (parseObjectArgBody lib (parseArgValueWithHint lib room)) hint p

/-! ## Operations -/

/-- The name of an argument and its equals sign; what follows is the value. -/
def parseArgName (p : Parser) : Except DslError (String × Parser) := do
  let (name, p) ← p.parseIdentifier
  let p ← p.expectChar '='
  .ok (name, p.skipWs)

/-- One pass of the loop of `parse_op`, up to the separator. -/
def parseArg (lib : Libraries) (args : List (String × ArgValue)) (p : Parser) :
    Except DslError ((String × ArgValue) × Parser) := do
  let (name, p) ← parseArgName p
  let (v, p) ← parseArgValueWithHint lib nestingDepthLimit (some name) p
  if args.any fun arg ↦ arg.1 == name then .error (.duplicateArg name)
  else .ok ((name, v), p)

/-- The arguments of a call, behind its parenthesis at `callStart`. -/
def parseArgs (lib : Libraries) (callStart : Nat) (p : Parser) :
    Except DslError (List (String × ArgValue) × Parser) :=
  let p := p.skipWs
  if p.peek = some ')' then .ok ([], p.advance 1)
  else if p.eof then .error (.unclosedCall callStart)
  else Parser.separated ')' "',' or ')'" (.unclosedCall callStart) (parseArg lib)
    (p.rest.length + 1) [] p

/-- The tool name of a call and its parenthesis; what follows is the arguments. -/
def parseCallHead (p : Parser) : Except DslError (String × Nat × Parser) := do
  let (tool, p) ← p.parseTool
  let p := p.skipWs
  let callStart := p.pos
  let p ← p.expectChar '('
  .ok (tool, callStart, p)

/-- `parse_op`. -/
def parseOp (lib : Libraries) (p : Parser) : Except DslError (ParsedOp × Parser) := do
  let (tool, callStart, p) ← parseCallHead p
  let (args, p) ← parseArgs lib callStart p
  .ok (⟨tool, SortedMap.collect args⟩, p)

end Khive
