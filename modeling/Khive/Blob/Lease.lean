import Khive.Foundation.Attempt
import Khive.Foundation.SortedMap
import Khive.Types.Edge

/-!
# Leases of staged uploads

An upload is a staged file in the upload directory, next to a sidecar that holds its lease. Whoever
writes to the upload renews the lease, and a sweep reads it to tell whether the upload is still
alive. What a store instance remembers between sweeps, its observations, is not on disk.

Every call to the file system may fail, and what a step had done by then stays done; `Host` says
which calls fail and what the clocks read.
-/

namespace Khive.Blob

open Attempt

abbrev Uuid := Fin (2 ^ 128)

/-- The 16 random bytes that an upload is named by, and whose hex spelling names its files. -/
abbrev UploadId := Fin (2 ^ 128)

/-- The digest a published object is named by. -/
abbrev ContentRef := Fin (2 ^ 256)

inductive StorageError
  | invalidInput (operation message : String)
  | notFound (key : UploadId)
  | capacityFloor (available floor headroom : ℕ)
  | io (operation : String)
  deriving DecidableEq, Repr

/-! ## The lease -/

def maxIdleSecs : ℕ := 21600

structure UploadLeaseConfig where
  owner : Uuid
  idleSecs : UInt64
  owner_ne : owner ≠ 0
  idle_pos : 0 < idleSecs.toNat

/-- The owner, its bound on idling, and how often and when, in milliseconds, it was renewed. -/
structure Lease where
  owner : Uuid
  idleSecs : UInt64
  renewSeq : UInt64
  renewedAt : UInt64
  deriving DecidableEq

/-- The nanosecond from which on the lease is over whatever has been observed. -/
def Lease.backstop (lease : Lease) : Except StorageError ℤ :=
  let seconds := lease.idleSecs.toNat + 86400
  let margin := seconds * 1000
  let millis := lease.renewedAt.toNat + margin
  if seconds < 2 ^ 64 ∧ margin < 2 ^ 64 ∧ millis < 2 ^ 64 then .ok (millis * 1000000)
  else .error (.invalidInput "upload_lease" "unrepresentable lease timestamp or backstop")

def Lease.validate (lease : Lease) : Except StorageError Unit :=
  if lease.owner = 0 ∨ lease.idleSecs = 0 ∨ maxIdleSecs < lease.idleSecs.toNat then
    .error (.invalidInput "upload_lease" "invalid upload lease owner or bound")
  else lease.backstop.map fun _ ↦ ()

/-- The milliseconds of a wall reading, which is in nanoseconds since the epoch. -/
def timestamp (wall : ℤ) : Except StorageError UInt64 :=
  if 0 ≤ wall ∧ wall / 1000000 < 2 ^ 64 then .ok (UInt64.ofNat (wall / 1000000).toNat)
  else .error (.invalidInput "upload_lease" "wall timestamp cannot be represented")

/-- `Lease::begin`. -/
def Lease.«begin» (config : UploadLeaseConfig) (wall : ℤ) : Except StorageError Lease :=
  (timestamp wall).bind fun renewedAt ↦
    let value : Lease := ⟨config.owner, config.idleSecs, 0, renewedAt⟩
    value.validate.map fun _ ↦ value

def Lease.next (lease : Lease) (wall : ℤ) : Except StorageError Lease :=
  if lease.renewSeq.toNat + 1 < 2 ^ 64 then
    (timestamp wall).map fun renewedAt ↦
      { lease with renewSeq := lease.renewSeq + 1, renewedAt := renewedAt }
  else .error (.invalidInput "renew_upload" "upload lease sequence exhausted")

/-- The bytes of a lease as JSON: the names and marks, the owner, and three numbers. -/
def Lease.jsonLength (lease : Lease) : ℕ :=
  52 + 36 + (toString lease.idleSecs.toNat).length + (toString lease.renewSeq.toNat).length +
    (toString lease.renewedAt.toNat).length

/-! ## The store -/

/-- What a sidecar holds: the fields of a lease, or bytes that do not parse as one. -/
inductive Sidecar
  | fields (lease : Lease)
  | malformed
  deriving DecidableEq

structure Staged where
  content : List UInt8
  modified : ℤ
  deriving DecidableEq

/-- The owner and number of renewals a sweep saw, and the monotonic reading when it first did. -/
structure Observation where
  owner : Uuid
  renewSeq : UInt64
  since : ℕ
  deriving DecidableEq

/-- An entry of the upload directory that was unlinked. -/
inductive Removal
  | staged (id : UploadId)
  | lease (id : UploadId)
  deriving DecidableEq

/-- The blob root with the upload directory, the observations of this instance, and, read by
nothing, the entries unlinked from the upload directory, the last one first. -/
structure Store where
  floorBytes : ℕ
  hasDirectory : Bool
  staged : OrderedMap UploadId Staged
  sidecars : OrderedMap UploadId Sidecar
  objects : OrderedMap ContentRef (List UInt8)
  observations : OrderedMap UploadId Observation
  unlinked : List Removal

/-- The calls to the file system that a step makes. -/
inductive Call
  | directory | names | createStaged | syncCreated | syncRoot
  | space | createLease | writeLease | syncLease | replaceLease | syncReplaced
  | openLease | readLease
  | cleanupDirectory | cleanupOpen | unlinkLease | syncCleanup
  | openStaged | stat | write | touch | sync | statAfter | unlinkStaged
  | makeShards | openExisting | touchExisting | syncExisting | persist
  | syncShard | syncParent | syncBlobRoot | syncStaging
  deriving DecidableEq

/-- What the host answers while a step runs: the calls that fail, and the readings. A call that
fails does so with another error than that the entry is missing. -/
structure Host where
  fails : Call → Bool
  wall : ℤ
  touched : ℤ
  availableBytes : ℕ
  /-- How much of a part reaches the file when writing it fails, or is cut by another writer. -/
  written : ℕ

abbrev Upload (α : Type) := Attempt Store StorageError α

variable (host : Host)

/-- A call whose failure is reported under a name. -/
def call (c : Call) (operation : String) : Upload Unit :=
  if host.fails c then fail (.io operation) else pure ()

/-- `crosses_floor`. -/
def crossesFloor (available requiredWriteBytes floorBytes : ℕ) : Bool :=
  available - requiredWriteBytes < floorBytes

def checkSpace (bytes : ℕ) : Upload Unit := do
  call host .space "append_part_check_space"
  let floorBytes ← read Store.floorBytes
  if crossesFloor host.availableBytes bytes floorBytes then
    fail (.capacityFloor host.availableBytes floorBytes bytes)
  else pure ()

/-- `lease::read`: no lease where there is no sidecar, an error where it holds no valid one. -/
def Store.lease (s : Store) (id : UploadId) : Except StorageError (Option Lease) :=
  if host.fails .openLease then .error (.io "upload_lease_open")
  else
    match s.sidecars.get id with
    | none => .ok none
    | some sidecar =>
      if host.fails .readLease then .error (.io "upload_lease_read")
      else
        match sidecar with
        | .malformed => .error (.invalidInput "upload_lease" "not a lease")
        | .fields lease => lease.validate.map fun _ ↦ some lease

def readLease (id : UploadId) : Upload (Option Lease) := do
  let lease ← read fun s ↦ s.lease host id
  check lease

def setSidecar (id : UploadId) (lease : Lease) (s : Store) : Store :=
  { s with sidecars := s.sidecars.insert id (.fields lease) }

/-- `lease::publish`: the lease is written to a temporary file that then replaces the sidecar. -/
def publish (id : UploadId) (lease : Lease) : Upload Unit := do
  check lease.validate
  checkSpace host lease.jsonLength
  call host .createLease "lease_create"
  call host .writeLease "lease_write"
  call host .syncLease "lease_sync_file"
  call host .replaceLease "lease_replace"
  write (setSidecar id lease)
  call host .syncReplaced "lease_sync_directory"

def forget (id : UploadId) (s : Store) : Store :=
  { s with observations := s.observations.erase id }

def dropSidecar (id : UploadId) (s : Store) : Store :=
  { s with sidecars := s.sidecars.erase id, unlinked := .lease id :: s.unlinked }

def dropStaged (id : UploadId) (s : Store) : Store :=
  { s with staged := s.staged.erase id, unlinked := .staged id :: s.unlinked }

/-- `lease::cleanup`. -/
def cleanup (id : UploadId) : Upload Unit := do
  write (forget id)
  call host .cleanupDirectory "lease_cleanup_open"
  if ← read Store.hasDirectory then
    call host .cleanupOpen "lease_cleanup_open"
    if ← read fun s ↦ (s.sidecars.get id).isSome then
      call host .unlinkLease "lease_unlink"
      write (dropSidecar id)
    call host .syncCleanup "lease_sync_cleanup"

/-! ## Expiry -/

/-- The observation a sweep at `monotonic` leaves for a lease it reads: the one at hand as long as
it is of the same owner and renewal, else a new one. -/
def observe (observed : Option Observation) (lease : Lease) (monotonic : ℕ) : Observation :=
  let first : Observation := ⟨lease.owner, lease.renewSeq, monotonic⟩
  match observed with
  | none => first
  | some held => if held.owner = lease.owner ∧ held.renewSeq = lease.renewSeq then held else first

/-- `lease::expired`: seen without change for the idle bound and five minutes, or past the
backstop. -/
def expired (id : UploadId) (lease : Lease) (wall : ℤ) (monotonic : ℕ) : Upload Bool := do
  if 2 ^ 64 ≤ lease.idleSecs.toNat + 300 then
    fail (.invalidInput "upload_lease" "unrepresentable observation bound")
  let backstop ← check lease.backstop
  let observed ← read fun s ↦ observe (s.observations.get id) lease monotonic
  write fun s ↦ { s with observations := s.observations.insert id observed }
  pure (decide (observed.since + (lease.idleSecs.toNat + 300) * 1000000000 ≤ monotonic) ||
    decide (backstop ≤ wall))

end Khive.Blob
