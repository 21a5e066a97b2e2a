import Khive.Foundation.Bytes
import Khive.Foundation.CompactJson
import Khive.Types.Value

/-!
# Wire frames

The eleven kinds of application frame and their fields, with the error taxonomy, what the crate
uses of `serde_json`, and the serializer. A frame is written as one compact JSON object: its
kind first, then its fields in declaration order, absent optional fields left out.

`serde_json` is a parameter. Its reading functions work on texts, and fail with a message to which
`locate` adds the position. A raw value carries the proof that it is one JSON value.
-/

namespace Khive

namespace Wire

/-! ## Errors -/

/-- Where a wire error terminates. -/
inductive TerminalScope where
  | connection
  | request
  deriving DecidableEq

inductive WireErrorCode where
  | unsupportedVersion
  | identityRejected
  | malformedFrame
  | frameTooLarge
  | subscriberOverflow
  | subscriptionRevoked
  | contextRejected
  | peerClassDenied
  | subscriptionDenied
  | alreadySubscribed
  | cursorExpired
  | inFlightLimitExceeded
  | deadlineExceeded
  | cancelled
  | shuttingDown
  | internal
  deriving DecidableEq

namespace WireErrorCode

def terminalScope : WireErrorCode → TerminalScope
  | unsupportedVersion | identityRejected | malformedFrame | frameTooLarge
  | subscriberOverflow | subscriptionRevoked => .connection
  | contextRejected | peerClassDenied | subscriptionDenied | alreadySubscribed | cursorExpired
  | inFlightLimitExceeded | deadlineExceeded | cancelled | shuttingDown | internal => .request

def asStr : WireErrorCode → String
  | unsupportedVersion => "unsupported_version"
  | identityRejected => "identity_rejected"
  | malformedFrame => "malformed_frame"
  | frameTooLarge => "frame_too_large"
  | subscriberOverflow => "subscriber_overflow"
  | subscriptionRevoked => "subscription_revoked"
  | contextRejected => "context_rejected"
  | peerClassDenied => "peer_class_denied"
  | subscriptionDenied => "subscription_denied"
  | alreadySubscribed => "already_subscribed"
  | cursorExpired => "cursor_expired"
  | inFlightLimitExceeded => "in_flight_limit_exceeded"
  | deadlineExceeded => "deadline_exceeded"
  | cancelled => "cancelled"
  | shuttingDown => "shutting_down"
  | internal => "internal"

/-- The closed set, in the order of `WIRE_ERROR_CODES`. -/
def all : List WireErrorCode :=
  [unsupportedVersion, identityRejected, malformedFrame, frameTooLarge, subscriberOverflow,
    subscriptionRevoked, contextRejected, peerClassDenied, subscriptionDenied, alreadySubscribed,
    cursorExpired, inFlightLimitExceeded, deadlineExceeded, cancelled, shuttingDown, internal]

/-- Whether the name is in `WIRE_ERROR_CODES`. -/
def isKnown (name : String) : Bool := all.any fun code ↦ code.asStr == name

/-- The variant of that name; any other name falls back to `internal` (`#[serde(other)]`). -/
def ofVariant (name : String) : WireErrorCode :=
  (all.find? fun code ↦ code.asStr == name).getD .internal

theorem ofVariant_asStr (code : WireErrorCode) : ofVariant code.asStr = code := by
  cases code <;> decide +kernel

theorem isKnown_asStr (code : WireErrorCode) : isKnown code.asStr = true := by
  cases code <;> decide +kernel

/-- Every known name is the name of the code it stands for. -/
theorem asStr_ofVariant {name : String} (h : isKnown name = true) :
    (ofVariant name).asStr = name := by
  obtain ⟨code, -, hcode⟩ := List.any_eq_true.mp h
  rw [← eq_of_beq hcode, ofVariant_asStr]

end WireErrorCode

/-! ## Libraries -/

/-- What a map visitor sees of a text: the keys in turn, each with the outcome of reading its
value, then the outcome of looking for one more key, and of closing the object and the text. -/
structure MapAccess (ρ : Type) where
  entries : List (String × Except String ρ)
  lastKey : Except String Unit
  finish : Except String Unit

/-- What the crate uses of `serde_json`. -/
structure SerdeJson where
  /-- The invariant of a `RawValue`: one JSON value, with no whitespace around it. -/
  Token : List Char → Prop
  writeString : String → List Char
  writeNumber : JsonNumber → List Char
  readString : List Char → Except String String
  readU32 : List Char → Except String UInt32
  readU64 : List Char → Except String UInt64
  /-- `Vec<String>`. -/
  readStrings : List Char → Except String (List String)
  /-- The variant name that an enumeration of unit variants is read from. -/
  readVariant : List Char → Except String String
  readValue : List Char → Except String JsonValue
  /-- The members of an object with their raw values, for a visitor that expects `expecting`. -/
  readMap : (expecting : String) → List Char → Except String (MapAccess { text // Token text })
  /-- The message with the position at which reading the bytes stopped. -/
  locate : Bytes → String → String
  /-- The message about bytes that are not UTF-8. -/
  invalidUtf8 : Bytes → String
  /-- The characters that `Debug` escapes by number. -/
  unprintable : Char → Bool

/-- `serde_json::value::RawValue`. -/
abbrev RawValue (lib : SerdeJson) := { text // lib.Token text }

section Writing

variable (lib : SerdeJson)

/-- An unsigned integer in decimal. -/
def writeUnsigned (n : Nat) : List Char := n.repr.toList

def writeStrings (strings : List String) : List Char :=
  Json.arrayText (strings.map lib.writeString)

def writeValue (v : JsonValue) : List Char := Json.write lib.writeString lib.writeNumber v

/-- A map serialized entry by entry, over the texts of its values. -/
def writeMap (entries : List (String × List Char)) : List Char :=
  Json.objectText lib.writeString entries

end Writing

/-! ## Opaque values -/

/-- JSON carried by a response or an event: built here, or received as a token. -/
inductive OpaqueValue (lib : SerdeJson) where
  | localValue (value : JsonValue)
  | received (raw : RawValue lib)

namespace OpaqueValue

variable {lib : SerdeJson}

def toValue : OpaqueValue lib → Except String JsonValue
  | localValue value => .ok value
  | received raw => lib.readValue raw.val

def isObject : OpaqueValue lib → Bool
  | localValue value => (JsonValue.asObject value).isSome
  | received raw => raw.val.head? == some '{'

/-- `Serialize for OpaqueValue`. -/
def text : OpaqueValue lib → List Char
  | localValue value => writeValue lib value
  | received raw => raw.val

/-- `PartialEq for OpaqueValue`. -/
def beq : OpaqueValue lib → OpaqueValue lib → Bool
  | localValue left, localValue right => left == right
  | left, right =>
    match left.toValue, right.toValue with
    | .ok l, .ok r => l == r
    | .error _, .error _ =>
      match left, right with
      | received l, received r => l.val == r.val
      | _, _ => false
    | _, _ => false

end OpaqueValue

/-! ## Frames -/

/-- A caller-generated operation id. -/
structure OperationId where
  value : String
  deriving DecidableEq

structure ProtocolVersion where
  get : UInt32
  deriving DecidableEq

/-- `u64`. -/
abbrev Cursor := UInt64

inductive Frame (lib : SerdeJson) where
  | handshake (version : ProtocolVersion)
  | handshakeAck (version : ProtocolVersion)
  | request (id : OperationId) (ops : String) (deadlineMs : Option UInt64)
      (namespaceOverride actorId : Option String) (visibleNamespaces : Option (List String))
  | response (id : OperationId) (result : OpaqueValue lib)
  | error (id : Option OperationId) (code : WireErrorCode) (message : String)
      (unrecognizedCode : Option String)
  | cancel (id : OperationId)
  | subscribe (id : OperationId) (topic : String) (resumeCursor : Option Cursor)
  | subscribeAck (id : OperationId) (topic : String) (startCursor : Cursor)
  | unsubscribe (id : OperationId) (topic : String)
  | unsubscribeAck (id : OperationId) (topic : String)
  | event (topic : String) (cursor : Cursor) (occurredAt : String) (payload : OpaqueValue lib)

/-- The kinds of frame, in the order of `FRAME_KINDS`. -/
inductive FrameKind where
  | handshake
  | handshakeAck
  | request
  | response
  | error
  | cancel
  | subscribe
  | subscribeAck
  | unsubscribe
  | unsubscribeAck
  | event
  deriving DecidableEq

namespace FrameKind

def name : FrameKind → String
  | handshake => "handshake"
  | handshakeAck => "handshake_ack"
  | request => "request"
  | response => "response"
  | error => "error"
  | cancel => "cancel"
  | subscribe => "subscribe"
  | subscribeAck => "subscribe_ack"
  | unsubscribe => "unsubscribe"
  | unsubscribeAck => "unsubscribe_ack"
  | event => "event"

/-- `FRAME_KINDS`. -/
def all : List FrameKind :=
  [handshake, handshakeAck, request, response, error, cancel, subscribe, subscribeAck,
    unsubscribe, unsubscribeAck, event]

def ofName? (name : String) : Option FrameKind := all.find? fun kind ↦ kind.name == name

theorem ofName?_name (kind : FrameKind) : ofName? kind.name = some kind := by
  cases kind <;> rfl

/-- `CLIENT_TO_SERVER_KINDS`. -/
def isClientToServer : FrameKind → Bool
  | handshake | request | cancel | subscribe | unsubscribe => true
  | handshakeAck | response | error | subscribeAck | unsubscribeAck | event => false

end FrameKind

namespace Frame

variable {lib : SerdeJson}

def kind : Frame lib → FrameKind
  | handshake .. => .handshake
  | handshakeAck .. => .handshakeAck
  | request .. => .request
  | response .. => .response
  | error .. => .error
  | cancel .. => .cancel
  | subscribe .. => .subscribe
  | subscribeAck .. => .subscribeAck
  | unsubscribe .. => .unsubscribe
  | unsubscribeAck .. => .unsubscribeAck
  | event .. => .event

/-- The derived `PartialEq`. -/
def beq : Frame lib → Frame lib → Bool
  | handshake v, handshake v' => v == v'
  | handshakeAck v, handshakeAck v' => v == v'
  | request id ops deadline ns actor visible, request id' ops' deadline' ns' actor' visible' =>
    id == id' && ops == ops' && deadline == deadline' && ns == ns' && actor == actor' &&
      visible == visible'
  | response id result, response id' result' => id == id' && result.beq result'
  | error id code message raw, error id' code' message' raw' =>
    id == id' && code == code' && message == message' && raw == raw'
  | cancel id, cancel id' => id == id'
  | subscribe id topic resume, subscribe id' topic' resume' =>
    id == id' && topic == topic' && resume == resume'
  | subscribeAck id topic start, subscribeAck id' topic' start' =>
    id == id' && topic == topic' && start == start'
  | unsubscribe id topic, unsubscribe id' topic' => id == id' && topic == topic'
  | unsubscribeAck id topic, unsubscribeAck id' topic' => id == id' && topic == topic'
  | event topic cursor at_ payload, event topic' cursor' at_' payload' =>
    topic == topic' && cursor == cursor' && at_ == at_' && payload.beq payload'
  | _, _ => false

end Frame

/-! ## Fields -/

/-- The fields of the payload structs. A field has the same type in every kind that has it. -/
inductive Field where
  | version
  | id
  | ops
  | deadlineMs
  | namespaceOverride
  | actorId
  | visibleNamespaces
  | result
  | code
  | message
  | topic
  | resumeCursor
  | startCursor
  | cursor
  | occurredAt
  | payload
  deriving DecidableEq

namespace Field

def name : Field → String
  | version => "version"
  | id => "id"
  | ops => "ops"
  | deadlineMs => "deadline_ms"
  | namespaceOverride => "namespace"
  | actorId => "actor_id"
  | visibleNamespaces => "visible_namespaces"
  | result => "result"
  | code => "code"
  | message => "message"
  | topic => "topic"
  | resumeCursor => "resume_cursor"
  | startCursor => "start_cursor"
  | cursor => "cursor"
  | occurredAt => "occurred_at"
  | payload => "payload"

/-- What the field holds. -/
def Carrier (lib : SerdeJson) : Field → Type
  | version => ProtocolVersion
  | id => OperationId
  | deadlineMs | resumeCursor | startCursor | cursor => UInt64
  | visibleNamespaces => List String
  | result | payload => OpaqueValue lib
  | code => WireErrorCode
  | ops | namespaceOverride | actorId | message | topic | occurredAt => String

/-- How the value of a field is serialized. -/
def write (lib : SerdeJson) : (field : Field) → field.Carrier lib → List Char
  | version, v => writeUnsigned v.get.toNat
  | id, v => lib.writeString v.value
  | deadlineMs, n | resumeCursor, n | startCursor, n | cursor, n => writeUnsigned (UInt64.toNat n)
  | visibleNamespaces, strings => writeStrings lib strings
  | result, v | payload, v => OpaqueValue.text v
  | code, c => lib.writeString (WireErrorCode.asStr c)
  | ops, s | namespaceOverride, s | actorId, s | message, s | topic, s | occurredAt, s =>
    lib.writeString s

end Field

/-- A field with its value. -/
abbrev FieldValue (lib : SerdeJson) := (field : Field) × field.Carrier lib

namespace Frame

variable {lib : SerdeJson}

/-- An entry that is skipped when the field is absent. -/
def optional (field : Field) : Option (field.Carrier lib) → List (FieldValue lib)
  | some value => [⟨field, value⟩]
  | none => []

/-- The entries serialized behind the kind. -/
def fieldValues : Frame lib → List (FieldValue lib)
  | handshake version => [⟨.version, version⟩]
  | handshakeAck version => [⟨.version, version⟩]
  | request id ops deadlineMs namespaceOverride actorId visibleNamespaces =>
    [⟨.id, id⟩, ⟨.ops, ops⟩] ++ optional .deadlineMs deadlineMs ++
      optional .namespaceOverride namespaceOverride ++ optional .actorId actorId ++
      optional .visibleNamespaces visibleNamespaces
  | response id result => [⟨.id, id⟩, ⟨.result, result⟩]
  | error id code message _ => optional .id id ++ [⟨.code, code⟩, ⟨.message, message⟩]
  | cancel id => [⟨.id, id⟩]
  | subscribe id topic resumeCursor =>
    [⟨.id, id⟩, ⟨.topic, topic⟩] ++ optional .resumeCursor resumeCursor
  | subscribeAck id topic startCursor =>
    [⟨.id, id⟩, ⟨.topic, topic⟩, ⟨.startCursor, startCursor⟩]
  | unsubscribe id topic => [⟨.id, id⟩, ⟨.topic, topic⟩]
  | unsubscribeAck id topic => [⟨.id, id⟩, ⟨.topic, topic⟩]
  | event topic cursor occurredAt payload =>
    [⟨.topic, topic⟩, ⟨.cursor, cursor⟩, ⟨.occurredAt, occurredAt⟩, ⟨.payload, payload⟩]

end Frame

end Wire

end Khive
