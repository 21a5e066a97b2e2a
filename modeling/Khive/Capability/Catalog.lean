import Khive.Capability.Codec
import Khive.Capability.Envelope

/-!
# Contracts and the rights they allow

Rights are checked against a closed catalog of contracts, which is provisioned once and never read
out of a request: the kinds of subject with their repositories and members, the sources with their
identities, the entries, the definitions and the runs. The maps of the catalog are kept in the order
of insertion; provisioning refuses a second contract of one key.

Validation and coverage are as the code has them. How coverage behaves is the subject of
`Capability.Coverage`.
-/

namespace Khive

namespace Capability

/-! ## Checks of plain data -/

def nonempty (value : String) : EnvelopeResult Unit := do
  if value.isEmpty then throw (.invalidInput "empty exact text")
  bound "text" value.utf8ByteSize maxRecordBytes

def collection {α : Type} (values : List α) (required : Bool) : EnvelopeResult Unit := do
  bound "collection" values.length maxCollectionItems
  if required && values.isEmpty then throw (.invalidInput "empty collection")

/-- The loop of `sorted_unique`: every encoding lies above the one before. -/
def checkSorted {α : Type} [Wire α] : Option Bytes → List α → EnvelopeResult Unit
  | _, [] => pure ()
  | previous, value :: values => do
    let encoded ← encode value
    if previous.any fun bytes ↦ !decide (bytes < encoded) then
      throw (.invalidInput "collection must be sorted and unique")
    checkSorted (some encoded) values

def sortedUnique {α : Type} [Wire α] (values : List α) (required : Bool) : EnvelopeResult Unit := do
  collection values required
  checkSorted none values

/-- A byte of a leg label. -/
def isLegByte (b : UInt8) : Bool :=
  (97 ≤ b && b ≤ 122) || (48 ≤ b && b ≤ 57) || b == 45

/-- `u8::is_ascii_alphanumeric`. -/
def isAsciiAlphanumeric (b : UInt8) : Bool :=
  (97 ≤ b && b ≤ 122) || (65 ≤ b && b ≤ 90) || (48 ≤ b && b ≤ 57)

/-- A leg label: at most 64 bytes, with no hyphen at its ends. -/
def isLegLabel (leg : String) : Bool :=
  let bytes := utf8Bytes leg.toList
  !bytes.isEmpty && bytes.length ≤ 64 && bytes.head?.all isAsciiAlphanumeric &&
    bytes.getLast?.all isAsciiAlphanumeric && bytes.all isLegByte

namespace Principal

def validate (p : Principal) : EnvelopeResult Unit := do
  nonempty p.kind
  nonempty p.id
  if !p.leg.all isLegLabel then throw (.invalidInput "invalid structural leg label")

/-- The principal that a leg belongs to. -/
def parent (p : Principal) : Principal := { p with leg := none }

end Principal

def ContractRef.validate (r : ContractRef) : EnvelopeResult Unit := nonempty r.name

def ExactBytes.validate (r : ExactBytes) : EnvelopeResult Unit := do
  bound "reference bytes" r.bytes.length maxRecordBytes
  if r.bytes.isEmpty then throw (.invalidInput "empty exact reference")

def RepositoryIdentity.validate (r : RepositoryIdentity) : EnvelopeResult Unit := do
  nonempty r.forge
  r.immutableId.validate

namespace Validity

def validate (v : Validity) : EnvelopeResult Unit :=
  if v.expiresAt.any (· ≤ v.notBefore) then throw (.invalidInput "expiry must follow not_before")
  else pure ()

def contains (v : Validity) (now : Timestamp) : Bool :=
  v.notBefore ≤ now && v.expiresAt.all (now < ·)

def covers (parent child : Validity) : Bool :=
  parent.notBefore ≤ child.notBefore &&
    match parent.expiresAt, child.expiresAt with
    | none, _ => true
    | some _, none => false
    | some a, some b => b ≤ a

end Validity

/-! ## Contracts -/

/-- `ReferenceFormat::Opaque` takes any bytes. -/
inductive ReferenceFormat where
  | anyBytes
  | canonicalUuid
  deriving DecidableEq

inductive ArgumentType where
  | string
  | integer
  | duration
  | bool
  | word
  deriving DecidableEq

def ArgumentValue.kind : ArgumentValue → ArgumentType
  | .string _ => .string
  | .integer _ => .integer
  | .duration _ => .duration
  | .bool _ => .bool
  | .word _ => .word

structure ArgumentSpec where
  name : String
  kind : ArgumentType
  deriving DecidableEq

instance : Wire ArgumentType :=
  .unitEnum (fun | .string => 0 | .integer => 1 | .duration => 2 | .bool => 3 | .word => 4)
    [.string, .integer, .duration, .bool, .word]

instance : Wire ArgumentSpec where
  write v := do write v.name; write v.kind
  read := do return { name := ← read, kind := ← read }

structure SubjectContract where
  identity : ContractRef
  referenceFormat : ReferenceFormat
  repositoryIndependent : Bool
  repositories : List RepositoryIdentity
  membership : List (ExactBytes × RepositoryIdentity)

structure SourceContract where
  identity : ContractRef
  referenceFormat : ReferenceFormat
  identities : List ExactBytes

structure EntryContract where
  identity : ContractRef
  producerClass : ProducerClass
  subjectKind : ContractRef
  sourceContract : Option ContractRef
  responseContract : Option ContractRef
  authorityArguments : List ArgumentSpec

structure DeclaredAction where
  entry : ContractRef
  phaseId : String
  actionName : String
  reportedBy : Option String
  phaseOwner : Option String

structure DefinitionContract where
  digest : ContractDigest
  reportingRoles : List (ContractRef × String)
  actions : List DeclaredAction

structure RunContract where
  policyDomain : String
  id : RunRef
  definition : ContractDigest
  bindings : List (String × Principal)
  initiatingPrincipal : Principal
  subjectKind : ContractRef
  subject : ExactBytes

structure ClosedCatalog where
  subjects : List SubjectContract
  sources : List SourceContract
  entries : List EntryContract
  definitions : List DefinitionContract
  runs : List RunContract

namespace ClosedCatalog

variable (catalog : ClosedCatalog)

def subject? (kind : ContractRef) : Option SubjectContract :=
  catalog.subjects.find? (·.identity = kind)

def source? (contract : ContractRef) : Option SourceContract :=
  catalog.sources.find? (·.identity = contract)

def entry? (contract : ContractRef) : Option EntryContract :=
  catalog.entries.find? (·.identity = contract)

def definition? (digest : ContractDigest) : Option DefinitionContract :=
  catalog.definitions.find? (·.digest = digest)

def run? (id : RunRef) : Option RunContract := catalog.runs.find? (·.id = id)

end ClosedCatalog

/-! ## References and arguments -/

section References

/- `Uuid::parse_str`. -/
variable (parseUuid : String → Option Id128)

def RunRef.parse (value : String) : EnvelopeResult RunRef :=
  match parseUuid value with
  | none => throw (.invalidInput "invalid run UUID")
  | some id => if uuidText id ≠ value then throw (.invalidInput "noncanonical run UUID") else pure ⟨id⟩

def validateReference (reference : ExactBytes) (format : ReferenceFormat) :
    EnvelopeResult Unit := do
  reference.validate
  if format = .canonicalUuid then
    match utf8Text reference.bytes with
    | none => throw (.invalidInput "non-UTF8 UUID reference")
    | some text =>
      let _ ← RunRef.parse parseUuid (String.ofList text)

def validateArguments (arguments : ExactArguments) (specs : List ArgumentSpec) :
    EnvelopeResult Unit := do
  collection arguments.bindings false
  if arguments.bindings.length ≠ specs.length then throw (.invalidInput "incomplete argument tuple")
  (arguments.bindings.zip specs).forM fun (arg, expected) ↦ do
    if arg.name ≠ expected.name ∨ arg.value.kind ≠ expected.kind then
      throw (.invalidInput "argument name or type mismatch")
    match arg.value with
    | .string text | .word text => bound "argument text" text.utf8ByteSize maxRecordBytes
    | _ => pure ()

def resolveRole (run : RunContract) (role : String) : EnvelopeResult Principal :=
  match run.bindings.find? (·.1 = role) with
  | some (_, p) => pure p
  | none => throw (.invalidInput "explicit reporting role is unbound")

/-! ## Provisioning -/

/-- One entry of `membership`: a known repository, and a reference that has none yet. -/
def checkMembership (subject : SubjectContract) :
    List ExactBytes → List (ExactBytes × RepositoryIdentity) → EnvelopeResult Unit
  | _, [] => pure ()
  | members, (reference, repository) :: rest => do
    validateReference parseUuid reference subject.referenceFormat
    if !subject.repositories.contains repository || members.contains reference then
      throw (.invalidInput "ambiguous or unknown repository membership")
    checkMembership subject (reference :: members) rest

def provisionSubject (catalog : ClosedCatalog) (subject : SubjectContract) :
    EnvelopeResult ClosedCatalog := do
  subject.identity.validate
  sortedUnique subject.repositories false
  collection subject.membership false
  if subject.repositoryIndependent &&
      (!subject.repositories.isEmpty || !subject.membership.isEmpty) then
    throw (.invalidInput "repository-independent contract has repository bindings")
  subject.repositories.forM RepositoryIdentity.validate
  checkMembership parseUuid subject [] subject.membership
  if (catalog.subject? subject.identity).isSome then
    throw (.invalidInput "duplicate subject contract")
  return { catalog with subjects := catalog.subjects ++ [subject] }

def provisionSource (catalog : ClosedCatalog) (source : SourceContract) :
    EnvelopeResult ClosedCatalog := do
  source.identity.validate
  sortedUnique source.identities true
  source.identities.forM fun reference ↦ validateReference parseUuid reference source.referenceFormat
  if (catalog.source? source.identity).isSome then
    throw (.invalidInput "duplicate source contract")
  return { catalog with sources := catalog.sources ++ [source] }

/-- `windows(2).any(..)`: two neighbours of one name. -/
def repeatsName (specs : List ArgumentSpec) : Bool :=
  (specs.zip specs.tail).any fun (a, b) ↦ a.name = b.name

def provisionEntry (catalog : ClosedCatalog) (entry : EntryContract) :
    EnvelopeResult ClosedCatalog := do
  entry.identity.validate
  sortedUnique entry.authorityArguments false
  if repeatsName entry.authorityArguments then throw (.invalidInput "duplicate argument name")
  entry.authorityArguments.forM fun arg ↦ nonempty arg.name
  if (catalog.subject? entry.subjectKind).isNone then
    throw (.invalidInput "unknown entry subject contract")
  if entry.sourceContract.any fun source ↦ (catalog.source? source).isNone then
    throw (.invalidInput "unknown entry source contract")
  if entry.producerClass = .platform then
    match entry.responseContract with
    | none => throw (.invalidInput "platform entry lacks response contract")
    | some response => response.validate
  else if entry.responseContract.isSome then
    throw (.invalidInput "non-platform response contract")
  if (catalog.entry? entry.identity).isSome then throw (.invalidInput "duplicate entry contract")
  return { catalog with entries := catalog.entries ++ [entry] }

def provisionDefinition (catalog : ClosedCatalog) (definition : DefinitionContract) :
    EnvelopeResult ClosedCatalog := do
  collection definition.reportingRoles false
  collection definition.actions false
  definition.reportingRoles.forM fun (entry, role) ↦ do
    if (catalog.entry? entry).isNone then throw (.invalidInput "unknown reporting entry contract")
    nonempty role
  definition.actions.forM fun action ↦ do
    if (catalog.entry? action.entry).isNone then throw (.invalidInput "unknown action entry")
    nonempty action.phaseId
    nonempty action.actionName
    action.reportedBy.toList.forM nonempty
    action.phaseOwner.toList.forM nonempty
  if (catalog.definition? definition.digest).isSome then
    throw (.invalidInput "duplicate definition contract")
  return { catalog with definitions := catalog.definitions ++ [definition] }

/-- The bindings of a run: every role has one principal. -/
def checkBindings : List String → List (String × Principal) → EnvelopeResult Unit
  | _, [] => pure ()
  | roles, (role, principal) :: rest => do
    nonempty role
    principal.validate
    if roles.contains role then throw (.invalidInput "duplicate run role")
    checkBindings (role :: roles) rest

def provisionRun (catalog : ClosedCatalog) (run : RunContract) : EnvelopeResult ClosedCatalog := do
  nonempty run.policyDomain
  collection run.bindings false
  run.initiatingPrincipal.validate
  if (catalog.definition? run.definition).isNone then throw (.invalidInput "unknown run definition")
  match catalog.subject? run.subjectKind with
  | none => throw (.invalidInput "unknown run subject kind")
  | some subject => validateReference parseUuid run.subject subject.referenceFormat
  checkBindings [] run.bindings
  if (catalog.run? run.id).isSome then throw (.invalidInput "duplicate run contract")
  return { catalog with runs := catalog.runs ++ [run] }

/-- `ClosedCatalog::provision`. -/
def ClosedCatalog.provision (subjects : List SubjectContract) (sources : List SourceContract)
    (entries : List EntryContract) (definitions : List DefinitionContract)
    (runs : List RunContract) : EnvelopeResult ClosedCatalog := do
  collection subjects false
  collection sources false
  collection entries true
  collection definitions false
  collection runs false
  let catalog : ClosedCatalog := ⟨[], [], [], [], []⟩
  let catalog ← subjects.foldlM (provisionSubject parseUuid) catalog
  let catalog ← sources.foldlM (provisionSource parseUuid) catalog
  let catalog ← entries.foldlM provisionEntry catalog
  let catalog ← definitions.foldlM provisionDefinition catalog
  runs.foldlM (provisionRun parseUuid) catalog

/-! ## Validation of rights -/

namespace ClosedCatalog

variable (catalog : ClosedCatalog)

def subjectContains (scope : SubjectScope) (reference : ExactBytes) : Bool :=
  match catalog.subject? scope.kind with
  | none => false
  | some contract =>
    match scope.selector with
    | .exact refs => refs.contains reference
    | .allSubjectsOfKind => contract.repositoryIndependent
    | .repositories repos =>
      contract.membership.any fun (r, repo) ↦ r = reference && repos.contains repo

def validateSubject (scope : SubjectScope) : EnvelopeResult Unit := do
  match catalog.subject? scope.kind with
  | none => throw (.invalidInput "unknown subject kind")
  | some contract =>
    match scope.selector with
    | .exact refs =>
      sortedUnique refs true
      refs.forM fun reference ↦ validateReference parseUuid reference contract.referenceFormat
    | .repositories repositories =>
      sortedUnique repositories true
      if contract.repositoryIndependent ||
          repositories.any fun r ↦ !contract.repositories.contains r then
        throw (.invalidInput "unknown or unsupported repository selector")
    | .allSubjectsOfKind =>
      if !contract.repositoryIndependent then
        throw (.invalidInput "repository-bearing subject cannot use all-subjects")

def actorContext (p : ObservationPermission) (id : RunRef) (digest : ContractDigest) :
    EnvelopeResult (RunContract × DefinitionContract) := do
  if p.producerClass ≠ .actor then throw (.invalidInput "actor binding has non-actor class")
  match catalog.run? id, catalog.definition? digest with
  | none, _ => throw (.invalidInput "unknown named run")
  | _, none => throw (.invalidInput "unknown pinned definition")
  | some run, some definition =>
    if run.policyDomain ≠ p.policyDomain ∨ run.definition ≠ digest ∨
        run.subjectKind ≠ p.subject.kind ∨ catalog.subjectContains p.subject run.subject = false then
      throw (.invalidInput "run subject or definition mismatch")
    return (run, definition)

/-- The binding of an instrument or of a platform. -/
def validateSource (p : ObservationPermission) (entry : EntryContract) (expected : ProducerClass)
    (source : SourceBinding) : EnvelopeResult Unit := do
  if p.producerClass ≠ expected ∨ entry.sourceContract ≠ some source.contract then
    throw (.invalidInput "source binding contract mismatch")
  match catalog.source? source.contract with
  | none => throw (.invalidInput "unknown source contract")
  | some known =>
    sortedUnique source.identities true
    sortedUnique source.arguments true
    source.identities.forM fun identity ↦ do
      validateReference parseUuid identity known.referenceFormat
      if !known.identities.contains identity then throw (.invalidInput "unknown source identity")
    source.arguments.forM fun args ↦ validateArguments args entry.authorityArguments

/-- Whether a role of the run is bound to another principal than the grantee, if there is one. -/
def differsFromGrantee (run : RunContract) (role : String) (grantee : Option Principal) : Bool :=
  grantee.any fun p ↦ decide ((resolveRole run role).toOption ≠ some p)

def validateActorReport (p : ObservationPermission) (entry : EntryContract)
    (grantee : Option Principal) (run : RunRef) (definition : ContractDigest) (role : String) :
    EnvelopeResult Unit := do
  let (run, definition) ← catalog.actorContext p run definition
  let roles := definition.reportingRoles.filter fun (identity, _) ↦ identity = p.entry
  if roles.map Prod.snd ≠ [role] ∨ differsFromGrantee run role grantee = true then
    throw (.invalidInput "reporting role does not resolve to grantee")
  let _ ← resolveRole run role
  if !entry.authorityArguments.isEmpty then
    throw (.invalidInput "actor report lacks required argument binding")

def validateActionResult (p : ObservationPermission) (entry : EntryContract)
    (grantee : Option Principal) (run : RunRef) (definition : ContractDigest)
    (occurrence : ActionOccurrence) (reporter : ReportingBinding) (arguments : ExactArguments) :
    EnvelopeResult Unit := do
  let (run, definition) ← catalog.actorContext p run definition
  nonempty occurrence.visit.phaseId
  nonempty occurrence.actionName
  if occurrence.visit.round < 1 then throw (.invalidInput "round zero is not a phase visit")
  match definition.actions.filter fun a ↦ a.phaseId = occurrence.visit.phaseId &&
      a.actionName = occurrence.actionName with
  | [action] =>
    if action.entry ≠ p.entry then throw (.invalidInput "action entry differs from permission")
    let expected ← match action.reportedBy.or action.phaseOwner with
      | some role => do
        if differsFromGrantee run role grantee then
          throw (.invalidInput "action reporter does not resolve to grantee")
        let _ ← resolveRole run role
        pure (ReportingBinding.role role)
      | none => pure (.initiator run.initiatingPrincipal)
    if expected ≠ reporter ∨ (expected = .initiator run.initiatingPrincipal ∧
        (grantee.any fun p ↦ decide (run.initiatingPrincipal ≠ p)) = true) then
      throw (.invalidInput "action reporting binding mismatch")
    validateArguments arguments entry.authorityArguments
  | _ => throw (.invalidInput "ambiguous or unknown action occurrence")

def validatePermission (p : ObservationPermission) (grantee : Option Principal) :
    EnvelopeResult Unit := do
  nonempty p.policyDomain
  if p.binding = .claimTimePlatformBundle then
    throw (.rightNotSupported .claimTimePlatformBundleInM1)
  if p.channel ≠ .observe ∨ p.producerClass = .system then
    throw (.rightNotSupported .internalProducer)
  match catalog.entry? p.entry with
  | none => throw (.invalidInput "unknown entry contract")
  | some entry =>
    if p.producerClass ≠ entry.producerClass ∨ p.subject.kind ≠ entry.subjectKind then
      throw (.invalidInput "entry class or subject contract mismatch")
    catalog.validateSubject parseUuid p.subject
    match p.binding with
    | .instrument source => catalog.validateSource parseUuid p entry .instrument source
    | .platformRelay source responseContract =>
      if entry.responseContract ≠ some responseContract then
        throw (.invalidInput "platform response contract mismatch")
      catalog.validateSource parseUuid p entry .platform source
    | .actorReport run definition role =>
      catalog.validateActorReport p entry grantee run definition role
    | .actionResult run definition occurrence reporter arguments =>
      catalog.validateActionResult p entry grantee run definition occurrence reporter arguments
    | .claimTimePlatformBundle => throw (.rightNotSupported .claimTimePlatformBundleInM1)

/-- `lion_core::Rights`, by its bits. -/
abbrev Rights := UInt16

/-- `Rights::with(Right::Execute)`. -/
def withExecute (carriers : Rights) : Rights := carriers ||| 4

/-- `Rights::with(Right::Delegate)`. -/
def withDelegate (carriers : Rights) : Rights := carriers ||| 128

/-- The scope of a right that is supported, and the native right that carries it. -/
def rightScope («namespace» : String) (grantee : Principal) (carriers : Rights) :
    RightSpec → EnvelopeResult (Rights × ObservationScope)
  | .recordObservation scope => pure (withExecute carriers, scope)
  | .grantAdmin admin => do
    if grantee.leg.isSome then throw (.invalidInput "subactor cannot hold administration")
    if admin.namespace ≠ «namespace» then throw (.invalidInput "admin namespace differs from grant")
    match admin.target with
    | .recordObservation scope => pure (withDelegate carriers, scope)
    | _ => throw (.rightNotSupported .ordinaryNamespace)
  | _ => throw (.rightNotSupported .ordinaryNamespace)

/-- The loop over the permissions of a scope, behind the permissions that came before. -/
def validatePermissions (grantee : Option Principal) :
    List ObservationPermission → List ObservationPermission → EnvelopeResult Unit
  | _, [] => pure ()
  | before, permission :: rest => do
    if before.contains permission then throw (.invalidInput "duplicate observation permission")
    catalog.validatePermission parseUuid permission grantee
    validatePermissions grantee (before ++ [permission]) rest

def RightSpec.isRecordObservation : RightSpec → Bool
  | .recordObservation _ => true
  | _ => false

/-- One right of `validate_rights_inner`. -/
def validateRight («namespace» : String) (grantee : Principal) (bindProducer : Bool)
    (carriers : Rights) (right : RightSpec) : EnvelopeResult Rights := do
  let (carriers, scope) ← rightScope «namespace» grantee carriers right
  collection scope.permissions true
  catalog.validatePermissions parseUuid
    (if bindProducer && RightSpec.isRecordObservation right then some grantee else none) []
    scope.permissions
  return carriers

/-- `validate_rights_inner`. -/
def validateRightsInner (rights : List RightSpec) («namespace» : String) (grantee : Principal)
    (bindProducer : Bool) : EnvelopeResult Rights := do
  nonempty «namespace»
  grantee.validate
  sortedUnique rights true
  rights.foldlM (catalog.validateRight parseUuid «namespace» grantee bindProducer) 0

/-- `validate_rights`, of the rights that a grant gives. -/
def validateRights (rights : List RightSpec) («namespace» : String) (grantee : Principal) :
    EnvelopeResult Rights :=
  catalog.validateRightsInner parseUuid rights «namespace» grantee true

/-- `validate_source_rights`, of the rights that bound what grants may give. -/
def validateSourceRights (rights : List RightSpec) («namespace» : String) (owner : Principal) :
    EnvelopeResult Rights :=
  catalog.validateRightsInner parseUuid rights «namespace» owner false

/-! ## Coverage -/

def coversSubject (parent child : SubjectScope) : Bool :=
  if parent.kind ≠ child.kind then false
  else
    match parent.selector, child.selector with
    | _, .exact refs => refs.all fun r ↦ catalog.subjectContains parent r
    | .repositories a, .repositories b => b.all fun r ↦ a.contains r
    | .allSubjectsOfKind, .allSubjectsOfKind =>
      (catalog.subject? parent.kind).any (·.repositoryIndependent)
    | _, _ => false

end ClosedCatalog

end References

def sourceCovers (a b : SourceBinding) : Bool :=
  a.contract = b.contract && b.identities.all (fun i ↦ a.identities.contains i) &&
    b.arguments.all fun args ↦ a.arguments.contains args

def bindingCovers (parent child : SubmissionBinding) : Bool :=
  match parent, child with
  | .instrument a, .instrument b => sourceCovers a b
  | .platformRelay a ar, .platformRelay b br => ar = br && sourceCovers a b
  | _, _ => parent = child

namespace ClosedCatalog

variable (catalog : ClosedCatalog)

def coversObservationPermission (held wanted : ObservationPermission) : Bool :=
  held.policyDomain = wanted.policyDomain && held.entry = wanted.entry &&
    held.producerClass = wanted.producerClass && held.channel = wanted.channel &&
    catalog.coversSubject held.subject wanted.subject && bindingCovers held.binding wanted.binding

def coversScope (parent child : ObservationScope) : Bool :=
  child.permissions.all fun wanted ↦ parent.permissions.any fun held ↦
    catalog.coversObservationPermission held wanted

def coversRight (held child : RightSpec) : Bool :=
  match held, child with
  | .recordObservation a, .recordObservation b => catalog.coversScope a b
  | .grantAdmin a, .grantAdmin b =>
    a.namespace = b.namespace &&
      match a.target, b.target with
      | .recordObservation a, .recordObservation b => catalog.coversScope a b
      | _, _ => false
  | _, _ => false

def coversRights (parent requested : List RightSpec) : Bool :=
  requested.all fun child ↦ parent.any fun held ↦ catalog.coversRight held child

end ClosedCatalog

end Capability

end Khive
