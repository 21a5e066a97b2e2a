import Khive.Capability.Envelope
import Khive.Foundation.BinaryCodec

/-!
# The durable wire format

Big-endian integers of fixed width, one-byte tags, 32-bit lengths and exact UTF-8. The fields of a
structure are listed in wire order; an enumeration is its tag and then the fields of the variant.
-/

namespace Khive

namespace Capability

open Binary

/-- Positions are `usize`. -/
def wireLimits : Limits EnvelopeError where
  limit := 2 ^ 64
  putOverflow := .overLimit "encoded body" (2 ^ 64 - 1) maxRecordBytes
  takeOverflow := .reject "wire length overflow"
  truncated := .reject "truncated wire value"

class Wire (α : Type) where
  write : α → Put EnvelopeError Unit
  read : Get EnvelopeError α

export Wire (write read)

def badTag : EnvelopeError := .reject "unknown wire tag"

/-! ## Integers -/

/-- The `integer!` types, by the number of their bytes. -/
@[reducible] def Wire.integer {α : Type} (width : Nat) (toNat : α → Nat) (ofNat : Nat → α) : Wire α where
  write v := put wireLimits (bigEndian width (toNat v))
  read := (fun bytes ↦ ofNat (bigEndianValue bytes)) <$> take wireLimits width

instance : Wire UInt8 := .integer 1 UInt8.toNat UInt8.ofNat

instance : Wire UInt16 := .integer 2 UInt16.toNat UInt16.ofNat

instance : Wire UInt32 := .integer 4 UInt32.toNat UInt32.ofNat

instance : Wire UInt64 := .integer 8 UInt64.toNat UInt64.ofNat

/-- `u128`, and `Uuid` by its 16 bytes. -/
instance : Wire UInt128 := .integer 16 Fin.val (Fin.ofNat (2 ^ 128))

instance : Wire Int64 := .integer 8 (fun v ↦ v.toUInt64.toNat) fun n ↦ (UInt64.ofNat n).toInt64

/-! ## Enumerations -/

/-- A tag, and then what the tag stands for. -/
@[reducible] def Wire.tagged {α : Type} (write : α → UInt8 × Put EnvelopeError Unit)
    (read : UInt8 → Get EnvelopeError α) : Wire α where
  write v := do
    Wire.write (write v).1
    (write v).2
  read := do
    let tag ← (Wire.read : Get EnvelopeError UInt8)
    read tag

/-- The `unit_enum!` types: every variant is its tag. -/
@[reducible] def Wire.unitEnum {α : Type} (tag : α → UInt8) (variants : List α) : Wire α :=
  .tagged (fun v ↦ (tag v, pure ())) fun t ↦
    match variants.find? fun v ↦ tag v = t with
    | some v => pure v
    | none => throw badTag

instance : Wire Bool := .unitEnum (fun | false => 0 | true => 1) [false, true]

instance {α : Type} [Wire α] : Wire (Option α) :=
  .tagged
    (fun
      | none => (0, pure ())
      | some v => (1, write v))
    (fun
      | 0 => pure none
      | 1 => some <$> read
      | _ => throw badTag)

/-! ## Texts, byte strings and collections -/

/-- `Encoder::blob`. -/
def putBlob (bytes : Bytes) : Put EnvelopeError Unit := do
  bound "byte string" bytes.length maxRecordBytes
  write (UInt32.ofNat bytes.length)
  put wireLimits bytes

/-- `Decoder::blob`. -/
def getBlob : Get EnvelopeError Bytes := do
  let length ← (read : Get EnvelopeError UInt32)
  bound "byte string" length.toNat maxRecordBytes
  take wireLimits length.toNat

instance : Wire String where
  write s := putBlob (utf8Bytes s.toList)
  read := do
    let bytes ← getBlob
    match utf8Text bytes with
    | some text => pure (String.ofList text)
    | none => throw (.reject "invalid UTF-8")

instance : Wire ExactBytes where
  write v := putBlob v.bytes
  read := ExactBytes.mk <$> getBlob

instance {α : Type} [Wire α] : Wire (List α) where
  write values := do
    bound "collection" values.length maxCollectionItems
    write (UInt32.ofNat values.length)
    values.forM write
  read := do
    let length ← (read : Get EnvelopeError UInt32)
    bound "collection" length.toNat maxCollectionItems
    getMany read length.toNat

instance : Wire (FixedBytes 32) where
  write v := put wireLimits v.val
  read := do
    let bytes ← take wireLimits 32
    if h : bytes.length = 32 then pure ⟨bytes, h⟩ else throw (.reject "digest width")

instance : Wire ContractDigest :=
  .tagged (fun v ↦ (1, write v.bytes))
    fun tag ↦ if tag ≠ 1 then throw badTag else ContractDigest.mk <$> read

/-! ## Permissions -/

instance : Wire Principal where
  write v := do write v.kind; write v.id; write v.leg
  read := do return { kind := ← read, id := ← read, leg := ← read }

instance : Wire ContractRef where
  write v := do write v.name; write v.version; write v.digest
  read := do return { name := ← read, version := ← read, digest := ← read }

instance : Wire RepositoryIdentity where
  write v := do write v.forge; write v.immutableId
  read := do return { forge := ← read, immutableId := ← read }

instance : Wire Validity where
  write v := do write v.notBefore; write v.expiresAt
  read := do return { notBefore := ← read, expiresAt := ← read }

instance : Wire RunRef where
  write v := do write v.id
  read := do return { id := ← read }

instance : Wire PhaseVisit where
  write v := do write v.phaseId; write v.round
  read := do return { phaseId := ← read, round := ← read }

instance : Wire ActionOccurrence where
  write v := do write v.visit; write v.actionName
  read := do return { visit := ← read, actionName := ← read }

instance : Wire ArgumentValue :=
  .tagged
    (fun
      | .string v => (0, write v)
      | .integer v => (1, write v)
      | .duration v => (2, write v)
      | .bool v => (3, write v)
      | .word v => (4, write v))
    (fun
      | 0 => .string <$> read
      | 1 => .integer <$> read
      | 2 => .duration <$> read
      | 3 => .bool <$> read
      | 4 => .word <$> read
      | _ => throw badTag)

instance : Wire ArgumentBinding where
  write v := do write v.name; write v.value
  read := do return { name := ← read, value := ← read }

instance : Wire ExactArguments where
  write v := do write v.bindings
  read := do return { bindings := ← read }

instance : Wire ProducerClass :=
  .unitEnum (fun | .actor => 0 | .instrument => 1 | .platform => 2 | .system => 3)
    [.actor, .instrument, .platform, .system]

instance : Wire SubmissionChannel :=
  .unitEnum (fun | .observe => 0 | .sample => 1 | .internal => 2) [.observe, .sample, .internal]

instance : Wire SubjectSelector :=
  .tagged
    (fun
      | .exact v => (0, write v)
      | .repositories v => (1, write v)
      | .allSubjectsOfKind => (2, pure ()))
    (fun
      | 0 => .exact <$> read
      | 1 => .repositories <$> read
      | 2 => pure .allSubjectsOfKind
      | _ => throw badTag)

instance : Wire SubjectScope where
  write v := do write v.kind; write v.selector
  read := do return { kind := ← read, selector := ← read }

instance : Wire SourceBinding where
  write v := do write v.contract; write v.identities; write v.arguments
  read := do return { contract := ← read, identities := ← read, arguments := ← read }

instance : Wire ReportingBinding :=
  .tagged
    (fun
      | .role v => (0, write v)
      | .initiator v => (1, write v))
    (fun
      | 0 => .role <$> read
      | 1 => .initiator <$> read
      | _ => throw badTag)

instance : Wire SubmissionBinding :=
  .tagged
    (fun
      | .actorReport run definition role =>
        (0, do write run; write definition; write role)
      | .actionResult run definition occurrence reporter arguments =>
        (1, do write run; write definition; write occurrence; write reporter; write arguments)
      | .instrument v => (2, write v)
      | .platformRelay source responseContract =>
        (3, do write source; write responseContract)
      | .claimTimePlatformBundle => (4, pure ()))
    (fun
      | 0 => do return .actorReport (← read) (← read) (← read)
      | 1 => do return .actionResult (← read) (← read) (← read) (← read) (← read)
      | 2 => .instrument <$> read
      | 3 => do return .platformRelay (← read) (← read)
      | 4 => pure .claimTimePlatformBundle
      | _ => throw badTag)

instance : Wire ObservationPermission where
  write v := do
    write v.policyDomain; write v.entry; write v.producerClass; write v.channel; write v.subject
    write v.binding
  read := do
    return {
      policyDomain := ← read, entry := ← read, producerClass := ← read, channel := ← read,
      subject := ← read, binding := ← read }

instance : Wire ObservationScope where
  write v := do write v.permissions
  read := do return { permissions := ← read }

/-! ## Rights -/

instance : Wire AdminTarget :=
  .tagged
    (fun
      | .read => (0, pure ())
      | .create => (1, pure ())
      | .write => (2, pure ())
      | .delete => (3, pure ())
      | .send => (4, pure ())
      | .recordObservation v => (5, write v))
    (fun
      | 0 => pure .read
      | 1 => pure .create
      | 2 => pure .write
      | 3 => pure .delete
      | 4 => pure .send
      | 5 => .recordObservation <$> read
      | _ => throw badTag)

instance : Wire AdminScope where
  write v := do write v.namespace; write v.target
  read := do return { «namespace» := ← read, target := ← read }

instance : Wire RightSpec :=
  .tagged
    (fun
      | .read => (0, pure ())
      | .create => (1, pure ())
      | .write => (2, pure ())
      | .delete => (3, pure ())
      | .send => (4, pure ())
      | .recordObservation v => (5, write v)
      | .grantAdmin v => (6, write v))
    (fun
      | 0 => pure .read
      | 1 => pure .create
      | 2 => pure .write
      | 3 => pure .delete
      | 4 => pure .send
      | 5 => .recordObservation <$> read
      | 6 => .grantAdmin <$> read
      | _ => throw badTag)

/-! ## Grants -/

instance : Wire KeyRef where
  write v := do write v.id; write v.generation
  read := do return { id := ← read, generation := ← read }

instance : Wire IssuanceAssurance := .unitEnum (fun | .configuredLocal => 0) [.configuredLocal]

instance : Wire CreationOperation := .unitEnum (fun | .grant => 0 | .import => 1) [.grant, .import]

instance : Wire EnvelopeDraft where
  write v := do
    write v.id; write v.storeId; write v.epochId; write v.rootAnchorId; write v.issuer
    write v.grantee; write v.namespace; write v.rights; write v.validity; write v.createdAt
    write v.assurance; write v.operation; write v.actionId; write v.configurationSource
    write v.issuanceId; write v.key
  read := do
    return {
      id := ← read, storeId := ← read, epochId := ← read, rootAnchorId := ← read,
      issuer := ← read, grantee := ← read, «namespace» := ← read, rights := ← read,
      validity := ← read, createdAt := ← read, assurance := ← read, operation := ← read,
      actionId := ← read, configurationSource := ← read, issuanceId := ← read, key := ← read }

instance : Wire IssuanceContext where
  write v := do
    write v.id; write v.holder; write v.holderPrincipal; write v.target; write v.namespace
  read := do
    return {
      id := ← read, holder := ← read, holderPrincipal := ← read, target := ← read,
      «namespace» := ← read }

instance : Wire NativeCapability where
  write v := do
    write v.id; write v.holder; write v.target; write v.rights; write v.parent; write v.epoch
    write v.signature
  read := do
    return {
      id := ← read, holder := ← read, target := ← read, rights := ← read, parent := ← read,
      epoch := ← read, signature := ← read }

instance : Wire ParentBinding :=
  .tagged
    (fun
      | .grant grantId issuanceId originalLocalId aliasId nativeDigest =>
        (0, do
          write grantId; write issuanceId; write originalLocalId; write aliasId; write nativeDigest)
      | .bootstrapSlot slot manifestDigest anchorLocalId =>
        (1, do write slot; write manifestDigest; write anchorLocalId))
    (fun
      | 0 => do return .grant (← read) (← read) (← read) (← read) (← read)
      | 1 => do return .bootstrapSlot (← read) (← read) (← read)
      | _ => throw badTag)

instance : Wire GrantBody where
  write v := do
    write v.schemaVersion; write v.profileVersion; write v.carrierVersion; write v.grant
    write v.parent; write v.context; write v.native
  read := do
    return {
      schemaVersion := ← read, profileVersion := ← read, carrierVersion := ← read,
      grant := ← read, parent := ← read, context := ← read, native := ← read }

/-! ## Whole values -/

/-- The length of the encoding, found by counting. -/
def encodedLen {α : Type} [Wire α] (value : α) : EnvelopeResult Nat := do
  let (_, out) ← (write value).run ⟨none, 0⟩
  return out.length

def encode {α : Type} [Wire α] (value : α) : EnvelopeResult Bytes := do
  let length ← encodedLen value
  bound "encoded body" length maxRecordBytes
  let (_, out) ← (write value).run ⟨some [], 0⟩
  match out.bytes with
  | some bytes => return bytes
  | none => throw (.reject "missing encoding buffer")

def decode (α : Type) [Wire α] (bytes : Bytes) : EnvelopeResult α := do
  bound "encoded body" bytes.length maxRecordBytes
  let (value, input) ← (read : Get EnvelopeError α).run ⟨bytes, 0⟩
  if input.cursor ≠ bytes.length then throw (.reject "trailing wire bytes")
  return value

/-- `canonical_principal`, a key of the store. -/
def canonicalPrincipal (value : Principal) : EnvelopeResult Bytes := encode value

/-- `canonical_rights`, a part of request digests. -/
def canonicalRights (value : List RightSpec) : EnvelopeResult Bytes := encode value

end Capability

end Khive
