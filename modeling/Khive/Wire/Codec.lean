import Khive.Wire.Frame
import Khive.Foundation.SortedMap

/-!
# The length-prefixed codec

Encoding validates a frame, serializes it and puts the length of the payload in front, four bytes
in big-endian order. Decoding checks the declared length against the bound and the buffer, and
reads the payload with a visitor: it collects the members of the envelope as raw values, refuses
a repeated one, takes the kind out, writes the rest again and reads the payload struct of that
kind from it.

The same rules are checked by the codec before it serializes and by the serializer itself; the
two validators differ in how they report a violation.
-/

namespace Khive

namespace Wire

variable {lib : SerdeJson}

inductive CodecError where
  | truncatedLengthPrefix (available : Nat)
  | truncatedPayload (declared available : Nat)
  | frameTooLarge (declared max : Nat)
  | u32PrefixLimitExceeded (declared max : Nat)
  | invalidJson (message : String)
  | missingKind
  | unknownFrameKind (kind : String)
  | invalidFields (kind detail : String)
  | inconsistentErrorScope (detail : String)
  | fallbackFrameNotEncodable (code : String)
  deriving DecidableEq

/-- `INCONSISTENT_SCOPE_ERROR_PREFIX`. -/
def inconsistentScopePrefix : String := "error frame violates the id/scope rule: "

/-! ## Validation -/

/-- How a validator reports a violation. -/
structure Violations (ε : Type) where
  invalidFields : (kind detail : String) → ε
  inconsistentErrorScope : (detail : String) → ε
  fallbackFrame : (code : String) → ε

section Validation

variable {ε : Type} (v : Violations ε)

def checkId (kind : FrameKind) (id : OperationId) : Except ε Unit :=
  guardOr (v.invalidFields kind.name "operation id must be a non-empty string") (id.value != "")

def checkVersion (kind : FrameKind) (version : ProtocolVersion) : Except ε Unit :=
  guardOr (v.invalidFields kind.name "protocol version 0 does not exist") (version.get != 0)

/-- What is wrong with an error frame of this code and operation id. -/
def scopeViolation (code : WireErrorCode) (id : Option OperationId) : Option String :=
  match code.terminalScope, id with
  | .connection, some id =>
    some ("connection-terminal code " ++ code.asStr ++ " must not carry an operation id, got " ++
      id.value)
  | .request, none =>
    some ("request-terminal code " ++ code.asStr ++ " must echo the operation id it terminates")
  | .connection, none | .request, some _ => none

def checkScope (code : WireErrorCode) (id : Option OperationId) : Except ε Unit :=
  match scopeViolation code id with
  | some detail => .error (v.inconsistentErrorScope detail)
  | none => .ok ()

def validateFrame : Frame lib → Except ε Unit
  | .handshake version => checkVersion v .handshake version
  | .handshakeAck version => checkVersion v .handshakeAck version
  | .event _ _ _ payload =>
    guardOr (v.invalidFields FrameKind.event.name "payload must be a JSON object") payload.isObject
  | .request id _ deadlineMs _ _ _ => do
    checkId v .request id
    guardOr (v.invalidFields FrameKind.request.name "deadline_ms must be a positive integer")
      (deadlineMs != some 0)
  | .response id _ => checkId v .response id
  | .cancel id => checkId v .cancel id
  | .subscribe id _ _ => checkId v .subscribe id
  | .subscribeAck id _ _ => checkId v .subscribeAck id
  | .unsubscribe id _ => checkId v .unsubscribe id
  | .unsubscribeAck id _ => checkId v .unsubscribeAck id
  | .error id code _ unrecognizedCode => do
    match unrecognizedCode with
    | some rawCode => .error (v.fallbackFrame rawCode)
    | none => .ok ()
    match id with
    | some id => checkId v .error id
    | none => .ok ()
    checkScope v code id

end Validation

/-- How the codec reports a violation. -/
def codecViolations : Violations CodecError where
  invalidFields := .invalidFields
  inconsistentErrorScope := .inconsistentErrorScope
  fallbackFrame := .fallbackFrameNotEncodable

/-- How the serializer reports a violation. -/
def serializeViolations (lib : SerdeJson) : Violations String where
  invalidFields kind detail :=
    "frame kind " ++ debugText lib.unprintable kind.toList ++ ": " ++ detail
  inconsistentErrorScope detail := inconsistentScopePrefix ++ detail
  fallbackFrame code :=
    "fallback error frame (unrecognized code " ++ debugText lib.unprintable code.toList ++
      ") is not re-encodable: re-encoding would emit \"internal\" and discard the newer wire code"

def validateFrameForWire (frame : Frame lib) : Except CodecError Unit :=
  validateFrame codecViolations frame

def validateFrameForSerialize (frame : Frame lib) : Except String Unit :=
  validateFrame (serializeViolations lib) frame

/-! ## Encoding -/

namespace Frame

/-- The entries of the wire object, each with the text of its value. -/
def entries (frame : Frame lib) : List (String × List Char) :=
  ("kind", lib.writeString frame.kind.name) ::
    frame.fieldValues.map fun f ↦ (f.1.name, f.1.write lib f.2)

/-- `Serialize for Frame`. -/
def serialize (frame : Frame lib) : Except String (List Char) := do
  validateFrameForSerialize frame
  return writeMap lib frame.entries

end Frame

/-- `LENGTH_PREFIX_BYTES`. -/
def lengthPrefixBytes : Nat := 4

/-- `u32::MAX`. -/
def u32Max : Nat := 4294967295

def checkEncodePayloadLen (payloadLen maxFrameBytes : Nat) : Except CodecError Unit := do
  guardOr (.frameTooLarge payloadLen maxFrameBytes) (payloadLen ≤ maxFrameBytes)
  guardOr (.u32PrefixLimitExceeded payloadLen u32Max) (payloadLen ≤ u32Max)

def encodeFrameWithMax (maxFrameBytes : Nat) (frame : Frame lib) : Except CodecError Bytes := do
  validateFrameForWire frame
  let text ← frame.serialize.mapError .invalidJson
  let payload := utf8Bytes text
  checkEncodePayloadLen payload.length maxFrameBytes
  return toBeBytes (UInt32.ofNat payload.length) ++ payload

/-! ## Reading a payload struct -/

namespace FrameKind

/-- The fields of the kind's payload struct, in declaration order. -/
def fields : FrameKind → List Field
  | handshake | handshakeAck => [.version]
  | request => [.id, .ops, .deadlineMs, .namespaceOverride, .actorId, .visibleNamespaces]
  | response => [.id, .result]
  | error => [.id, .code, .message]
  | cancel => [.id]
  | subscribe => [.id, .topic, .resumeCursor]
  | subscribeAck => [.id, .topic, .startCursor]
  | unsubscribe | unsubscribeAck => [.id, .topic]
  | event => [.topic, .cursor, .occurredAt, .payload]

/-- The name of the kind's payload struct. -/
def payloadStruct : FrameKind → String
  | handshake => "HandshakePayload"
  | handshakeAck => "HandshakeAckPayload"
  | request => "RequestPayload"
  | response => "ResponsePayload"
  | error => "ErrorPayload"
  | cancel => "CancelPayload"
  | subscribe => "SubscribePayload"
  | subscribeAck => "SubscribeAckPayload"
  | unsubscribe => "UnsubscribePayload"
  | unsubscribeAck => "UnsubscribeAckPayload"
  | event => "EventPayload"

end FrameKind

/-- `serde`'s list of what was expected. -/
def expectedOneOf : List String → String
  | [] => "there are no fields"
  | [a] => "expected `" ++ a ++ "`"
  | [a, b] => "expected `" ++ a ++ "` or `" ++ b ++ "`"
  | names => "expected one of " ++ ", ".intercalate (names.map fun a ↦ "`" ++ a ++ "`")

/-- `Deserialize for OperationId`. -/
def readOperationId (lib : SerdeJson) (text : List Char) : Except String OperationId := do
  let value ← lib.readString text
  guardOr "operation id must be a non-empty string" (value != "")
  return ⟨value⟩

/-- How the value of a field is deserialized. -/
def Field.read (lib : SerdeJson) : (field : Field) → RawValue lib → Except String (field.Carrier lib)
  | .version, raw => (lib.readU32 raw.val).map ProtocolVersion.mk
  | .id, raw => readOperationId lib raw.val
  | .deadlineMs, raw | .resumeCursor, raw | .startCursor, raw | .cursor, raw => lib.readU64 raw.val
  | .visibleNamespaces, raw => lib.readStrings raw.val
  | .result, raw | .payload, raw => .ok (OpaqueValue.received raw)
  | .code, raw => (lib.readVariant raw.val).map WireErrorCode.ofVariant
  | .ops, raw | .namespaceOverride, raw | .actorId, raw | .message, raw | .topic, raw
  | .occurredAt, raw => lib.readString raw.val

/-- The fields read so far: the local variables of a derived deserializer. -/
abbrev Slots (lib : SerdeJson) := (field : Field) → Option (field.Carrier lib)

/-- The loop of a derived deserializer with `deny_unknown_fields`. -/
def readSlots (lib : SerdeJson) (fields : List Field) :
    List (String × Except String (RawValue lib)) → Slots lib → Except String (Slots lib)
  | [], slots => .ok slots
  | (key, value) :: entries, slots =>
    match fields.find? fun field ↦ field.name == key with
    | none =>
      .error ("unknown field `" ++ key ++ "`, " ++ expectedOneOf (fields.map Field.name))
    | some field => do
      guardOr ("duplicate field `" ++ key ++ "`") (slots field).isNone
      let raw ← value
      let x ← field.read lib raw
      readSlots lib fields entries (Function.update slots field (some x))

/-- A field that must be there. -/
def required (slots : Slots lib) (field : Field) : Except String (field.Carrier lib) :=
  match slots field with
  | some x => .ok x
  | none => .error ("missing field `" ++ field.name ++ "`")

/-- The payload struct of the kind, as the frame that is made of it. -/
def payloadFrame (slots : Slots lib) : FrameKind → Except String (Frame lib)
  | .handshake => do return .handshake (← required slots .version)
  | .handshakeAck => do return .handshakeAck (← required slots .version)
  | .request => do
    return .request (← required slots .id) (← required slots .ops) (slots .deadlineMs)
      (slots .namespaceOverride) (slots .actorId) (slots .visibleNamespaces)
  | .response => do return .response (← required slots .id) (← required slots .result)
  | .error => do
    return .error (slots .id) (← required slots .code) (← required slots .message) none
  | .cancel => do return .cancel (← required slots .id)
  | .subscribe => do
    return .subscribe (← required slots .id) (← required slots .topic) (slots .resumeCursor)
  | .subscribeAck => do
    return .subscribeAck (← required slots .id) (← required slots .topic)
      (← required slots .startCursor)
  | .unsubscribe => do return .unsubscribe (← required slots .id) (← required slots .topic)
  | .unsubscribeAck => do return .unsubscribeAck (← required slots .id) (← required slots .topic)
  | .event => do
    return .event (← required slots .topic) (← required slots .cursor)
      (← required slots .occurredAt) (← required slots .payload)

/-! ## The visitor -/

/-- The envelope: its members ordered by key. -/
abbrev Envelope (lib : SerdeJson) := List (String × RawValue lib)

/-- Collect the members, and refuse a repeated key before its value is read. -/
def collectEnvelope :
    List (String × Except String (RawValue lib)) → Envelope lib → Except String (Envelope lib)
  | [], object => .ok object
  | (key, value) :: entries, object => do
    guardOr ("duplicate envelope field `" ++ key ++ "`") (object.lookup key).isNone
    let raw ← value
    collectEnvelope entries (SortedMap.insert key raw object)

/-- Write the members again and read the kind's payload struct from the text. -/
def parsePayload (kind : FrameKind) (object : Envelope lib) : Except String (Frame lib) :=
  let text := writeMap lib (object.map fun m ↦ (m.1, m.2.val))
  Except.mapError (lib.locate (utf8Bytes text)) do
    let access ← lib.readMap ("struct " ++ kind.payloadStruct) text
    let slots ← readSlots lib kind.fields access.entries fun _ ↦ none
    access.lastKey
    let frame ← payloadFrame slots kind
    access.finish
    return frame

/-- The raw code of an error envelope, if it is a string. -/
def rawCode (object : Envelope lib) : Option String :=
  (object.lookup "code").bind fun raw ↦ (lib.readString raw.val).toOption

/-- The checks behind the payload struct, and the raw code of an unknown one. -/
def finishFrame (object : Envelope lib) : Frame lib → Except String (Frame lib)
  | .request id ops deadlineMs namespaceOverride actorId visibleNamespaces => do
    guardOr "deadline_ms must be a positive integer" (deadlineMs != some 0)
    return .request id ops deadlineMs namespaceOverride actorId visibleNamespaces
  | .error id code message _ => do
    let inClosedSet := (rawCode object).any WireErrorCode.isKnown
    guardOr (inconsistentScopePrefix ++ "unknown error code requires an operation id")
      (inClosedSet || id.isSome)
    if inClosedSet then
      match scopeViolation code id with
      | some detail => .error (inconsistentScopePrefix ++ detail)
      | none => .ok ()
    return .error id code message (if inClosedSet then none else rawCode object)
  | .event topic cursor occurredAt payload => do
    guardOr "event payload must be a JSON object" payload.isObject
    return .event topic cursor occurredAt payload
  | frame => .ok frame

/-- `FrameVisitor::visit_map`. -/
def visitMap (access : MapAccess (RawValue lib)) : Except String (Frame lib) := do
  let object ← collectEnvelope access.entries []
  access.lastKey
  match object.lookup "kind" with
  | none => .error "missing field `kind`"
  | some kindValue =>
    let kind ← (lib.readString kindValue.val).mapError fun _ ↦ "field `kind` must be a string"
    let object := object.filter fun m ↦ m.1 != "kind"
    match FrameKind.ofName? kind with
    | some kind =>
      let frame ← parsePayload kind object
      finishFrame object frame
    | none => .error ("unknown frame kind: " ++ debugText lib.unprintable kind.toList)

/-- `Deserialize for Frame`. -/
def deserializeFrame (lib : SerdeJson) (text : List Char) : Except String (Frame lib) := do
  let access ← lib.readMap "a JSON object with a string \"kind\" discriminant field" text
  let frame ← visitMap access
  access.finish
  return frame

/-- `serde_json::from_slice`. -/
def fromSlice {α : Type} (lib : SerdeJson) (read : List Char → Except String α) (bytes : Bytes) :
    Except String α :=
  match utf8Text bytes with
  | some text => (read text).mapError (lib.locate bytes)
  | none => .error (lib.invalidUtf8 bytes)

/-! ## Decoding -/

/-- `str::strip_prefix`. -/
def stripScopePrefix (detail : String) : Option String :=
  let head := inconsistentScopePrefix.toList
  if detail.toList.take head.length = head then some (String.ofList (detail.toList.drop head.length))
  else none

/-- Classify a payload that the visitor has refused. -/
def classifyRefusal (lib : SerdeJson) (payload : Bytes) (detail : String) : CodecError :=
  match fromSlice lib lib.readValue payload with
  | .error message => .invalidJson message
  | .ok value =>
    match (JsonValue.asObject value).bind fun members ↦ getMember members "kind" with
    | some (.string kind) =>
      if (FrameKind.ofName? kind).isSome then
        match stripScopePrefix detail with
        | some scopeDetail => .inconsistentErrorScope scopeDetail
        | none => .invalidFields kind detail
      else .unknownFrameKind kind
    | _ => .missingKind

def decodePayload (lib : SerdeJson) (payload : Bytes) : Except CodecError (Frame lib) :=
  (fromSlice lib (deserializeFrame lib) payload).mapError (classifyRefusal lib payload)

def decodeFrameWithConsumed (lib : SerdeJson) (maxFrameBytes : Nat) (buf : Bytes) :
    Except CodecError (Frame lib × Nat) := do
  guardOr (.truncatedLengthPrefix buf.length) (lengthPrefixBytes ≤ buf.length)
  let declared := (fromBeBytes (buf.take lengthPrefixBytes)).toNat
  guardOr (.frameTooLarge declared maxFrameBytes) (declared ≤ maxFrameBytes)
  let available := buf.length - lengthPrefixBytes
  guardOr (.truncatedPayload declared available) (declared ≤ available)
  let frame ← decodePayload lib ((buf.drop lengthPrefixBytes).take declared)
  return (frame, lengthPrefixBytes + declared)

end Wire

end Khive
