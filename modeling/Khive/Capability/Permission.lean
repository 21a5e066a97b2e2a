import Khive.Foundation.Bytes
import Khive.Types.Record

/-!
# Principals, permissions and rights

The vocabulary of grants: who holds a right, which contracts, subjects, sources and runs it is
confined to, and for how long. Everything here is plain data that compares by its fields.
-/

namespace Khive

namespace Capability

/-- `u128`. -/
abbrev UInt128 := Fin (2 ^ 128)

/-- `[u8; n]`. -/
abbrev FixedBytes (n : Nat) := { bytes : Bytes // bytes.length = n }

/-! ## Limits -/

/-- `MAX_RECORD_BYTES`. -/
def maxRecordBytes : Nat := 2 * 1024 * 1024

/-- `MAX_COLLECTION_ITEMS`. -/
def maxCollectionItems : Nat := 256

inductive UnsupportedRight where
  | ordinaryNamespace
  | claimTimePlatformBundleInM1
  | internalProducer
  deriving DecidableEq

inductive EnvelopeError where
  | invalidInput (message : String)
  | overLimit (field : String) (measured bound : Nat)
  | rightNotSupported (right : UnsupportedRight)
  | reject (message : String)
  | unavailable (message : String)
  | idSpaceExhausted
  | native (message : String)
  deriving DecidableEq

abbrev EnvelopeResult := Except EnvelopeError

def bound (field : String) (measured maximum : Nat) : EnvelopeResult Unit :=
  if measured > maximum then .error (.overLimit field measured maximum) else .ok ()

theorem bound_eq_ok {field : String} {measured maximum : Nat} :
    bound field measured maximum = .ok () ↔ measured ≤ maximum := by
  rw [bound]
  split <;> simp_all

/-! ## Principals and contracts -/

structure Principal where
  kind : String
  id : String
  leg : Option String
  deriving DecidableEq

structure ContractDigest where
  bytes : FixedBytes 32
  deriving DecidableEq

structure ContractRef where
  name : String
  version : UInt32
  digest : ContractDigest
  deriving DecidableEq

structure ExactBytes where
  bytes : Bytes
  deriving DecidableEq

structure RepositoryIdentity where
  forge : String
  immutableId : ExactBytes
  deriving DecidableEq

structure Validity where
  notBefore : Timestamp
  expiresAt : Option Timestamp
  deriving DecidableEq

/-! ## Arguments -/

structure RunRef where
  id : Id128
  deriving DecidableEq

structure PhaseVisit where
  phaseId : String
  round : Int64
  deriving DecidableEq

structure ActionOccurrence where
  visit : PhaseVisit
  actionName : String
  deriving DecidableEq

inductive ArgumentValue where
  | string (value : String)
  | integer (value : Int64)
  | duration (value : Int64)
  | bool (value : Bool)
  | word (value : String)
  deriving DecidableEq

structure ArgumentBinding where
  name : String
  value : ArgumentValue
  deriving DecidableEq

structure ExactArguments where
  bindings : List ArgumentBinding
  deriving DecidableEq

/-! ## Permissions -/

inductive ProducerClass where
  | actor
  | instrument
  | platform
  | system
  deriving DecidableEq

inductive SubmissionChannel where
  | observe
  | sample
  | internal
  deriving DecidableEq

inductive SubjectSelector where
  | exact (subjects : List ExactBytes)
  | repositories (identities : List RepositoryIdentity)
  | allSubjectsOfKind
  deriving DecidableEq

structure SubjectScope where
  kind : ContractRef
  selector : SubjectSelector
  deriving DecidableEq

structure SourceBinding where
  contract : ContractRef
  identities : List ExactBytes
  arguments : List ExactArguments
  deriving DecidableEq

inductive ReportingBinding where
  | role (name : String)
  | initiator (principal : Principal)
  deriving DecidableEq

inductive SubmissionBinding where
  | actorReport (run : RunRef) (definition : ContractDigest) (role : String)
  | actionResult (run : RunRef) (definition : ContractDigest) (occurrence : ActionOccurrence)
      (reporter : ReportingBinding) (arguments : ExactArguments)
  | instrument (source : SourceBinding)
  | platformRelay (source : SourceBinding) (responseContract : ContractRef)
  | claimTimePlatformBundle
  deriving DecidableEq

structure ObservationPermission where
  policyDomain : String
  entry : ContractRef
  producerClass : ProducerClass
  channel : SubmissionChannel
  subject : SubjectScope
  binding : SubmissionBinding
  deriving DecidableEq

structure ObservationScope where
  permissions : List ObservationPermission
  deriving DecidableEq

/-! ## Rights -/

inductive AdminTarget where
  | read
  | create
  | write
  | delete
  | send
  | recordObservation (scope : ObservationScope)
  deriving DecidableEq

structure AdminScope where
  «namespace» : String
  target : AdminTarget
  deriving DecidableEq

inductive RightSpec where
  | read
  | create
  | write
  | delete
  | send
  | recordObservation (scope : ObservationScope)
  | grantAdmin (scope : AdminScope)
  deriving DecidableEq

end Capability

end Khive
