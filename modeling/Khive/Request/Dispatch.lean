import Khive.Request.Parser

/-!
# Request dispatch

`parse_request` trims its input, bounds its size, and chooses between three forms: JSON, a
bracketed batch of chains, and a plain call or chain. Each form has its own way to count the
operations, to cut them into units, and to refuse `$prev` where nothing precedes it.
`parse_typed_json_batch` takes operations that are already decoded.
-/

namespace Khive

/-- `reject_reserved_args`. -/
def rejectReservedArgs (op : ParsedOp) : Except DslError Unit :=
  match reservedEnvelopeArgs.find? fun reserved ↦ op.args.any fun arg ↦ arg.1 == reserved with
  | some reserved => .error (.reservedEnvelopeArg reserved op.tool)
  | none => .ok ()

/-- Refuse a reference where no operation precedes. -/
def rejectPrevRef (op : ParsedOp) : Except DslError Unit :=
  match findPrevRefPos op with
  | some pos => .error (.prevRefOutsideChain pos)
  | none => .ok ()

/-- `(0..n).map(|i| i..i + 1)`. -/
def unitRanges (n : Nat) : List OpRange := (List.range n).map fun i ↦ ⟨i, i + 1⟩

/-! ## Function-call form -/

/-- The loop over the `|` of a chain: how to read an operation, and what to check of it. -/
def pipeline {α : Type} (parse : Parser → Except DslError (α × Parser))
    (check : α → Except DslError Unit) :
    Nat → List α → Parser → Except DslError (List α × Parser)
  | 0, ops, p => .ok (ops, p)
  | fuel + 1, ops, p =>
    if p.peek = some '|' then
      if ops.length ≥ maxOps then .error (.tooManyOps (ops.length + 1) maxOps)
      else do
        let (op, p) ← parse (p.advance 1).skipWs
        check op
        pipeline parse check fuel (ops ++ [op]) p.skipWs
    else .ok (ops, p)

/-- The error for what follows the last operation outside brackets. -/
def trailingError (p : Parser) (c : Char) : DslError :=
  if c = ',' then .mixedSeparators
  else .unexpectedChar p.pos (leadByte c) "'|' or end of input"

def expectEnd (p : Parser) : Except DslError Unit :=
  match p.peek with
  | none => .ok ()
  | some c => .error (trailingError p c)

/-- `parse_chain_tail`. -/
def parseChainTail (lib : Libraries) (p : Parser) (firstOp : ParsedOp) :
    Except DslError ParsedRequest := do
  rejectReservedArgs firstOp
  let (ops, p) ← pipeline (parseOp lib) rejectReservedArgs p.rest.length [firstOp] p
  expectEnd p
  .ok ⟨ops, .chain, [⟨0, ops.length⟩]⟩

/-- What may stand between the units of a batch: another unit, or the end of the batch. -/
inductive Separator where
  | next (p : Parser)
  | done (p : Parser)

def parseSeparator (p : Parser) : Except DslError Separator :=
  match p.peek with
  | some c =>
    if c = ',' then
      let q := (p.advance 1).skipWs
      if q.peek = some ']' then .error (.trailingComma p.pos) else .ok (.next q)
    else if c = ']' then .ok (.done (p.advance 1))
    else .error (.unexpectedChar p.pos (leadByte c) "',' or ']'")
  | none => .error (.unexpectedEof "']'")

/-- One unit of a batch: an operation, and the chain behind it. -/
def parseUnit {α : Type} (parse : Parser → Except DslError (α × Parser)) (ops : List α)
    (p : Parser) : Except DslError (List α × Parser) :=
  if ops.length ≥ maxOps then .error (.tooManyOps (ops.length + 1) maxOps)
  else do
    let (firstLeaf, p) ← parse p
    pipeline parse (fun _ ↦ .ok ()) p.skipWs.rest.length (ops ++ [firstLeaf]) p.skipWs

/-- The loop over the units of `parse_fn_batch`. -/
def batchUnits {α : Type} (parse : Parser → Except DslError (α × Parser)) :
    Nat → List α → List OpRange → Parser → Except DslError (List α × List OpRange × Parser)
  | 0, _, _, _ => .error (.unexpectedEof "']'")
  | fuel + 1, ops, ranges, p => do
    let (ops', p) ← parseUnit parse ops p
    let separator ← parseSeparator p
    match separator with
    | .next p => batchUnits parse fuel ops' (ranges ++ [⟨ops.length, ops'.length⟩]) p
    | .done p => .ok (ops', ranges ++ [⟨ops.length, ops'.length⟩], p)

/-- The opening bracket of a batch, and a look at what follows it. -/
def openBatch (input : List Char) : Except DslError Parser := do
  let p ← (Parser.new input).expectChar '['
  let p := p.skipWs
  if p.peek = some ']' then .error .emptyBatch else .ok p

/-- The end of a batch is the end of the input. -/
def closeBatch (p : Parser) : Except DslError Unit :=
  let p := p.skipWs
  match p.peek with
  | none => .ok ()
  | some c => .error (.unexpectedChar p.pos (leadByte c) "end of input")

/-- `parse_fn_batch`. -/
def parseFnBatch (lib : Libraries) (input : List Char) : Except DslError ParsedRequest := do
  let p ← openBatch input
  let (ops, ranges, p) ← batchUnits (parseOp lib) (p.rest.length + 1) [] [] p
  closeBatch p
  ranges.forM fun range ↦ match ops[range.start]? with
    | some op => rejectPrevRef op
    | none => .ok ()
  ops.forM rejectReservedArgs
  .ok ⟨ops, .parallel, ranges⟩

/-- The plain form: one call, or a chain. -/
def parsePlain (lib : Libraries) (input : List Char) : Except DslError ParsedRequest := do
  let (firstOp, p) ← parseOp lib (Parser.new input)
  let p := p.skipWs
  match p.peek with
  | none => do
    rejectPrevRef firstOp
    rejectReservedArgs firstOp
    .ok ⟨[firstOp], .single, [⟨0, 1⟩]⟩
  | some c =>
    if c = '|' then parseChainTail lib p firstOp else .error (trailingError p c)

/-! ## JSON form -/

/-- The arguments of a JSON operation: every one a value, none with a `$prev` string. -/
def jsonArgs : List (String × JsonValue) → Except DslError (List (String × ArgValue))
  | [] => .ok []
  | (name, value) :: rest =>
    if jsonValueContainsPrevRef value then .error (.prevRefInJsonForm name)
    else (jsonArgs rest).map ((name, .value value) :: ·)

/-- The operation of a tool and its JSON arguments. -/
def jsonOp (tool : String) (args : List (String × JsonValue)) : Except DslError ParsedOp := do
  let args ← jsonArgs args
  let op : ParsedOp := ⟨tool, SortedMap.collect args⟩
  rejectReservedArgs op
  .ok op

/-- The `"tool"` of a batch entry. -/
def entryTool (obj : List (String × JsonValue)) : Except DslError String :=
  match getMember obj "tool" with
  | some (.string tool) => .ok tool
  | _ => .error (.invalidJson "each entry needs a \"tool\" string")

/-- The `"args"` of a batch entry, by default none. -/
def entryArgs (lib : Libraries) (obj : List (String × JsonValue)) :
    Except DslError (List (String × JsonValue)) :=
  match (getMember obj "args").getD (.object []) with
  | .object args => .ok args
  | other => .error (.invalidJson ("\"args\" must be an object, got " ++ lib.display other))

/-- No field other than the two is accepted. -/
def entryFields (lib : Libraries) (obj : List (String × JsonValue)) : Except DslError Unit :=
  match obj.find? fun m ↦ m.1 != "tool" && m.1 != "args" with
  | some (unknown, _) => .error (.invalidJson ("unknown JSON operation field " ++
      debugStr lib unknown.toList ++ "; expected tool or args"))
  | none => .ok ()

/-- One entry of a JSON batch. -/
def parseEntry (lib : Libraries) (entry : JsonValue) : Except DslError ParsedOp :=
  match entry.asObject with
  | none => .error (.invalidJson "each batch entry must be an object")
  | some obj => do
    entryFields lib obj
    let tool ← entryTool obj
    let args ← entryArgs lib obj
    jsonOp tool args

/-- The entries of the JSON form, and whether it is a single operation. -/
def jsonEntries (lib : Libraries) : JsonValue → Except DslError (List JsonValue × Bool)
  | .array arr => .ok (arr, false)
  | .object members => .ok ([.object members], true)
  | other => .error (.invalidJson ("expected object or array of objects, got " ++ lib.display other))

/-- `parse_json_form`. -/
def parseJsonForm (lib : Libraries) (input : List Char) : Except DslError ParsedRequest := do
  checkJsonNestingDepth input
  let v ← (lib.fromStr input).mapError fun e ↦ DslError.invalidJson e.message
  let (arr, isSingle) ← jsonEntries lib v
  guardOr .emptyBatch !(arr.isEmpty && !isSingle)
  guardOr (.tooManyOps arr.length maxOps) (arr.length ≤ maxOps)
  let ops ← arr.mapM (parseEntry lib)
  .ok ⟨ops, if isSingle then .single else .parallel,
    if isSingle then [⟨0, 1⟩] else unitRanges ops.length⟩

/-- One operation of `parse_typed_json_batch`. -/
def parseTypedOp (op : TypedJsonOp) : Except DslError ParsedOp := do
  guardOr (.nestingTooDeep 0 (nestingDepthLimit + 1) nestingDepthLimit)
    (valueNestingWithinLimit (.object op.args : JsonValue) (nestingDepthLimit - 2))
  jsonOp op.tool op.args

/-- `parse_typed_json_batch`. -/
def parseTypedJsonBatch (ops : List TypedJsonOp) : Except DslError ParsedRequest := do
  guardOr .emptyBatch !ops.isEmpty
  guardOr (.tooManyOps ops.length maxOps) (ops.length ≤ maxOps)
  let parsedOps ← ops.mapM parseTypedOp
  .ok ⟨parsedOps, .parallel, unitRanges ops.length⟩

/-! ## The entry point -/

/-- Whether trimmed input is JSON: an object, or an array of objects by its first character. -/
def looksLikeJson : List Char → Bool
  | c :: cs => c == '{' || (c == '[' && (cs.dropWhile Json.isBlank).head? == some '{')
  | [] => false

/-- `parse_request`. -/
def parseRequest (lib : Libraries) (input : List Char) : Except DslError ParsedRequest := do
  let trimmed := trim input
  guardOr .empty !trimmed.isEmpty
  guardOr (.inputTooLarge (utf8Len trimmed) maxOpsInputLen) (utf8Len trimmed ≤ maxOpsInputLen)
  if looksLikeJson trimmed then parseJsonForm lib trimmed
  else if trimmed.head? = some '[' then parseFnBatch lib trimmed
  else parsePlain lib trimmed

end Khive
