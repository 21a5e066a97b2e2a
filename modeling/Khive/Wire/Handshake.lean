import Khive.Wire.Frame

/-!
# The handshake gates

The two admission gates of a connection. The server feeds every inbound frame through a
`HandshakeGate` and sends the frames that the gate returns; the client records the version it
offered and feeds every inbound frame through a `ClientHandshakeGate`. Each gate is a state and a
function `admitFrame` from a state and a frame to the next state and a result; `admitFrame_cases` says
everything that one frame can do.
-/

namespace Khive

namespace Wire

variable {lib : SerdeJson}

/-! ## Versions -/

/-- `CURRENT_VERSION`. -/
def currentVersion : ProtocolVersion := ⟨1⟩

/-- `Display for ProtocolVersion`. -/
def ProtocolVersion.display (version : ProtocolVersion) : String := version.get.toNat.repr

inductive SupportedVersionsError where
  | minVersionZero
  | invertedRange
  | maxAboveCurrent
  deriving DecidableEq

/-- The versions a server accepts: an inclusive range that the protocol grammar covers. -/
structure SupportedVersions where
  min : ProtocolVersion
  max : ProtocolVersion
  one_le_min : 1 ≤ min.get
  min_le_max : min.get ≤ max.get
  max_le_current : max.get ≤ currentVersion.get

namespace SupportedVersions

/-- The current version and the one before it, but not version 0. -/
def current : SupportedVersions where
  min := ⟨if currentVersion.get > 1 then currentVersion.get - 1 else 1⟩
  max := currentVersion
  one_le_min := by decide
  min_le_max := by decide
  max_le_current := by decide

def new (min max : ProtocolVersion) : Except SupportedVersionsError SupportedVersions :=
  if hzero : min.get < 1 then .error .minVersionZero
  else if hinverted : min.get > max.get then .error .invertedRange
  else if habove : max.get > currentVersion.get then .error .maxAboveCurrent
  else .ok ⟨min, max, UInt32.not_lt.mp hzero, UInt32.not_lt.mp hinverted, UInt32.not_lt.mp habove⟩

def contains (supported : SupportedVersions) (version : ProtocolVersion) : Bool :=
  decide (version.get ≥ supported.min.get) && decide (version.get ≤ supported.max.get)

end SupportedVersions

/-! ## Sequence errors -/

/-- A violation of the sequence or the direction of frames, with the frame that reports it. -/
structure HandshakeSequenceError (lib : SerdeJson) where
  error : Frame lib

/-- `HandshakeSequenceError::malformed`, and `sequence_error` of the client. -/
def HandshakeSequenceError.malformed (message : String) : HandshakeSequenceError lib :=
  ⟨.error none .malformedFrame message none⟩

/-- `{:?}` of the kind of a frame. -/
def debugKind (frame : Frame lib) : String := debugText lib.unprintable frame.kind.name.toList

/-! ## The server gate -/

/-- Why a server gate closed. -/
inductive CloseReason where
  | unsupportedVersion
  | nonHandshakeFirst
  | duplicateHandshake
  | serverOnlyKind
  deriving DecidableEq

def CloseReason.phrase : CloseReason → String
  | unsupportedVersion => "a rejected handshake (unsupported version)"
  | nonHandshakeFirst => "a frame before the handshake"
  | duplicateHandshake => "a duplicate handshake"
  | serverOnlyKind => "a server-to-client frame on an inbound gate"

inductive GateState where
  | awaitingHandshake
  | completed (version : ProtocolVersion)
  | closed (reason : CloseReason)
  deriving DecidableEq

inductive HandshakeOutcome (lib : SerdeJson) where
  | accepted (ack : Frame lib) (version : ProtocolVersion)
  | rejected (error : Frame lib)
  | admitted

structure HandshakeGate where
  state : GateState
  supported : SupportedVersions

namespace HandshakeGate

def new (supported : SupportedVersions) : HandshakeGate := ⟨.awaitingHandshake, supported⟩

def acceptedVersion (gate : HandshakeGate) : Option ProtocolVersion :=
  match gate.state with
  | .completed version => some version
  | _ => none

/-- `State::Closed`. -/
def IsClosed (gate : HandshakeGate) : Prop := ∃ reason, gate.state = .closed reason

/-- The result of a violation that closes the gate. -/
def violation (gate : HandshakeGate) (reason : CloseReason) (message : String) :
    HandshakeGate × Except (HandshakeSequenceError lib) (HandshakeOutcome lib) :=
  (⟨.closed reason, gate.supported⟩, .error (.malformed message))

def admitFrame (gate : HandshakeGate) (frame : Frame lib) :
    HandshakeGate × Except (HandshakeSequenceError lib) (HandshakeOutcome lib) :=
  match gate.state, frame with
  | .awaitingHandshake, .handshake version =>
    if gate.supported.contains version then
      (⟨.completed version, gate.supported⟩, .ok (.accepted (.handshakeAck version) version))
    else
      (⟨.closed .unsupportedVersion, gate.supported⟩,
        .ok (.rejected (.error none .unsupportedVersion
          ("unsupported protocol version " ++ version.display ++ "; server supports [" ++
            gate.supported.min.display ++ ", " ++ gate.supported.max.display ++ "]") none)))
  | .awaitingHandshake, frame =>
    gate.violation .nonHandshakeFirst
      ("expected \"handshake\" as the first frame, got " ++ debugKind frame)
  | .completed _, .handshake _ =>
    gate.violation .duplicateHandshake "handshake already completed on this connection"
  | .completed _, frame =>
    if frame.kind.isClientToServer then (gate, .ok .admitted)
    else
      gate.violation .serverOnlyKind ("frame kind " ++ debugKind frame ++
        " is server-to-client only; a server never accepts it as an inbound frame")
  | .closed reason, _ =>
    (gate, .error (.malformed ("connection already closed by " ++ reason.phrase)))

/-- What one frame does to a gate, with the state it was in. -/
theorem admitFrame_cases (gate : HandshakeGate) (frame : Frame lib) :
    (∃ version, gate.state = .awaitingHandshake ∧ frame = .handshake version ∧
        gate.supported.contains version = true ∧
        gate.admitFrame frame = (⟨.completed version, gate.supported⟩,
          .ok (.accepted (.handshakeAck version) version))) ∨
      (∃ reason error, gate.state = .awaitingHandshake ∧ frame.kind = .handshake ∧
        error.kind = .error ∧
        gate.admitFrame frame = (⟨.closed reason, gate.supported⟩, .ok (.rejected error))) ∨
      (∃ version, gate.state = .completed version ∧ frame.kind ≠ .handshake ∧
        gate.admitFrame frame = (gate, .ok .admitted)) ∨
      (∃ reason message, (∀ earlier, gate.state = .closed earlier → earlier = reason) ∧
        gate.admitFrame frame = (⟨.closed reason, gate.supported⟩, .error (.malformed message))) := by
  obtain ⟨state, supported⟩ := gate
  cases state with
  | awaitingHandshake =>
    cases frame with
    | handshake version =>
      by_cases hversion : supported.contains version = true
      · exact .inl ⟨version, rfl, rfl, hversion, by simp [admitFrame, hversion]⟩
      · exact .inr (.inl ⟨_, _, rfl, rfl, rfl, by simp only [admitFrame, hversion]; rfl⟩)
    | _ => exact .inr (.inr (.inr ⟨_, _, by simp, rfl⟩))
  | completed version =>
    cases frame with
    | request | cancel | subscribe | unsubscribe =>
      exact .inr (.inr (.inl ⟨version, rfl, by simp [Frame.kind], rfl⟩))
    | _ => exact .inr (.inr (.inr ⟨_, _, by simp, rfl⟩))
  | closed reason => exact .inr (.inr (.inr ⟨reason, _, by simp, rfl⟩))

end HandshakeGate

/-! ## The client gate -/

/-- Why a client gate closed. -/
inductive ClientCloseReason where
  | unsolicitedFrame
  | mismatchedAcknowledgment
  | unexpectedDuringHandshake
  | wrongDirectionOrRepeatedHandshake
  | invalidErrorEnvelope
  | serverTerminalError
  deriving DecidableEq

def ClientCloseReason.phrase : ClientCloseReason → String
  | unsolicitedFrame => "an unsolicited frame before a handshake was sent"
  | mismatchedAcknowledgment => "an acknowledgment of a version that was not offered"
  | unexpectedDuringHandshake => "an unexpected frame during the handshake"
  | wrongDirectionOrRepeatedHandshake => "a direction or repeated-handshake violation"
  | invalidErrorEnvelope => "an invalid server error frame"
  | serverTerminalError => "a connection-terminal server error"

inductive ClientGateState where
  | fresh
  | outstanding (offered : ProtocolVersion)
  | completed (version : ProtocolVersion)
  | closed (reason : ClientCloseReason)
  deriving DecidableEq

/-- A local misuse of `recordHandshakeSent`. -/
inductive ClientHandshakeStartError where
  | versionZero
  | alreadyStarted
  | closed
  deriving DecidableEq

inductive ClientHandshakeOutcome where
  | completed (version : ProtocolVersion)
  | admitted
  | serverTerminated
  deriving DecidableEq

structure ClientHandshakeGate where
  state : ClientGateState

namespace ClientHandshakeGate

def new : ClientHandshakeGate := ⟨.fresh⟩

def acceptedVersion (gate : ClientHandshakeGate) : Option ProtocolVersion :=
  match gate.state with
  | .completed version => some version
  | _ => none

def IsClosed (gate : ClientHandshakeGate) : Prop := ∃ reason, gate.state = .closed reason

def recordHandshakeSent (gate : ClientHandshakeGate) (offered : ProtocolVersion) :
    ClientHandshakeGate × Except ClientHandshakeStartError Unit :=
  match gate.state with
  | .fresh => if offered.get = 0 then (gate, .error .versionZero) else (⟨.outstanding offered⟩, .ok ())
  | .outstanding _ | .completed _ => (gate, .error .alreadyStarted)
  | .closed _ => (gate, .error .closed)

def reject (reason : ClientCloseReason) (message : String) :
    ClientHandshakeGate × Except (HandshakeSequenceError lib) ClientHandshakeOutcome :=
  (⟨.closed reason⟩, .error (.malformed message))

def admitFrame (gate : ClientHandshakeGate) (frame : Frame lib) :
    ClientHandshakeGate × Except (HandshakeSequenceError lib) ClientHandshakeOutcome :=
  match gate.state, frame with
  | .fresh, frame =>
    reject .unsolicitedFrame
      ("received " ++ debugKind frame ++ " before the client sent a handshake")
  | .outstanding offered, .handshakeAck version =>
    if version = offered then (⟨.completed offered⟩, .ok (.completed offered))
    else
      reject .mismatchedAcknowledgment ("handshake acknowledgment names version " ++
        version.display ++ ", but the client offered " ++ offered.display)
  | .completed _, .error none _ _ (some _) =>
    reject .invalidErrorEnvelope
      "a server error with an unrecognized code must identify an operation"
  | .completed _, .error (some _) code _ _ =>
    if code.terminalScope = .connection then
      reject .invalidErrorEnvelope
        "a connection-terminal server error must not identify an operation"
    else (gate, .ok .admitted)
  | .completed _, .error none code _ none =>
    if code.terminalScope = .request then
      reject .invalidErrorEnvelope "a request-terminal server error must identify an operation"
    else (⟨.closed .serverTerminalError⟩, .ok .serverTerminated)
  | .outstanding _, frame =>
    match frame with
    | .error none code _ _ =>
      if code.terminalScope = .connection then
        (⟨.closed .serverTerminalError⟩, .ok .serverTerminated)
      else unexpected frame
    | _ => unexpected frame
  | .completed _, .response .. | .completed _, .subscribeAck .. | .completed _, .unsubscribeAck ..
  | .completed _, .event .. => (gate, .ok .admitted)
  | .completed _, frame =>
    reject .wrongDirectionOrRepeatedHandshake ("frame kind " ++ debugKind frame ++
      " is not admissible at a client after handshake completion")
  | .closed reason, _ =>
    (gate, .error (.malformed ("connection already closed by " ++ reason.phrase)))
where
  /-- Any other frame while the offer is outstanding. -/
  unexpected (frame : Frame lib) :
      ClientHandshakeGate × Except (HandshakeSequenceError lib) ClientHandshakeOutcome :=
    reject .unexpectedDuringHandshake
      ("expected the offered-version acknowledgment or a connection-terminal error, got " ++
        debugKind frame)

/-- What one frame does to a gate, with the state it was in. -/
theorem admitFrame_cases (gate : ClientHandshakeGate) (frame : Frame lib) :
    (∃ version, frame = .handshakeAck version ∧
        gate.admitFrame frame = (⟨.completed version⟩, .ok (.completed version))) ∨
      (∃ version, gate.state = .completed version ∧ gate.admitFrame frame = (gate, .ok .admitted)) ∨
      (∃ reason, ¬ gate.IsClosed ∧
        gate.admitFrame frame = (⟨.closed reason⟩, .ok .serverTerminated)) ∨
      (∃ reason message, (∀ earlier, gate.state = .closed earlier → earlier = reason) ∧
        gate.admitFrame frame = (⟨.closed reason⟩, .error (.malformed message))) := by
  obtain ⟨state⟩ := gate
  cases state with
  | fresh => exact .inr (.inr (.inr ⟨_, _, by simp, rfl⟩))
  | outstanding offered =>
    cases frame with
    | handshakeAck version =>
      by_cases hversion : version = offered
      · exact .inl ⟨offered, by rw [hversion], by simp [admitFrame, hversion]⟩
      · exact .inr (.inr (.inr ⟨_, _, by simp, by simp only [admitFrame, hversion]; rfl⟩))
    | error id code message unrecognized =>
      cases id with
      | some id => exact .inr (.inr (.inr ⟨_, _, by simp, rfl⟩))
      | none =>
        by_cases hscope : code.terminalScope = .connection
        · exact .inr (.inr (.inl ⟨_, by simp [IsClosed], by simp only [admitFrame, hscope]; rfl⟩))
        · exact .inr (.inr (.inr ⟨_, _, by simp, by simp only [admitFrame, hscope]; rfl⟩))
    | _ => exact .inr (.inr (.inr ⟨_, _, by simp, rfl⟩))
  | completed version =>
    cases frame with
    | error id code message unrecognized =>
      cases id with
      | some id =>
        by_cases hscope : code.terminalScope = .connection
        · exact .inr (.inr (.inr ⟨_, _, by simp, by simp only [admitFrame, hscope]; rfl⟩))
        · exact .inr (.inl ⟨version, rfl, by simp only [admitFrame, hscope]; rfl⟩)
      | none =>
        cases unrecognized with
        | some raw => exact .inr (.inr (.inr ⟨_, _, by simp, rfl⟩))
        | none =>
          by_cases hscope : code.terminalScope = .request
          · exact .inr (.inr (.inr ⟨_, _, by simp, by simp only [admitFrame, hscope]; rfl⟩))
          · exact .inr (.inr (.inl ⟨_, by simp [IsClosed], by simp only [admitFrame, hscope]; rfl⟩))
    | response | subscribeAck | unsubscribeAck | event => exact .inr (.inl ⟨version, rfl, rfl⟩)
    | _ => exact .inr (.inr (.inr ⟨_, _, by simp, rfl⟩))
  | closed reason => exact .inr (.inr (.inr ⟨reason, _, by simp, rfl⟩))

/-- A version is recorded only on a fresh gate. -/
theorem recordHandshakeSent_cases (gate : ClientHandshakeGate) (offered : ProtocolVersion) :
    (gate.recordHandshakeSent offered).1 = gate ∨
      gate.state = .fresh ∧ (gate.recordHandshakeSent offered).1 = ⟨.outstanding offered⟩ := by
  obtain ⟨state⟩ := gate
  cases state with
  | fresh =>
    by_cases hzero : offered.get = 0
    · exact .inl (by simp [recordHandshakeSent, hzero])
    · exact .inr ⟨rfl, by simp [recordHandshakeSent, hzero]⟩
  | _ => exact .inl rfl

end ClientHandshakeGate

end Wire

end Khive
