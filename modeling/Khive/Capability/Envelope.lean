import Khive.Capability.Permission

/-!
# Durable grants

A grant body is what a durable record is sealed over: the grant as it was drafted, the parent it
was delegated from, the local context of its issuance, and the native capability.
-/

namespace Khive

namespace Capability

structure KeyRef where
  id : String
  generation : UInt64
  deriving DecidableEq

inductive IssuanceAssurance where
  | configuredLocal
  deriving DecidableEq

inductive CreationOperation where
  | grant
  | import
  deriving DecidableEq

structure EnvelopeDraft where
  id : Id128
  storeId : Id128
  epochId : Id128
  rootAnchorId : Id128
  issuer : Principal
  grantee : Principal
  «namespace» : String
  rights : List RightSpec
  validity : Validity
  createdAt : Timestamp
  assurance : IssuanceAssurance
  operation : CreationOperation
  actionId : Id128
  configurationSource : Option String
  issuanceId : Id128
  key : KeyRef
  deriving DecidableEq

structure NativeCapability where
  id : UInt128
  holder : UInt128
  target : UInt128
  rights : UInt16
  parent : Option UInt128
  epoch : UInt64
  signature : FixedBytes 32
  deriving DecidableEq

inductive ParentBinding where
  | grant (grantId issuanceId : Id128) (originalLocalId aliasId : UInt128)
      (nativeDigest : ContractDigest)
  | bootstrapSlot (slot : String) (manifestDigest : ContractDigest) (anchorLocalId : UInt128)
  deriving DecidableEq

structure IssuanceContext where
  id : Id128
  holder : UInt128
  holderPrincipal : Principal
  target : UInt128
  «namespace» : String
  deriving DecidableEq

structure GrantBody where
  schemaVersion : UInt16
  profileVersion : UInt16
  carrierVersion : UInt16
  grant : EnvelopeDraft
  parent : ParentBinding
  context : IssuanceContext
  native : NativeCapability
  deriving DecidableEq

end Capability

end Khive
