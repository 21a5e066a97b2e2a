import Khive.Blob.Lease

/-!
# The steps of a store instance

A step holds the write lock of the blob root, so steps do not overlap. Beginning, appending and
renewing publish a lease; committing and aborting remove the staged file and then clean up the
sidecar; a sweep visits the entries of the upload directory one after another.

A sweep goes on past an entry that fails and answers with the first failure. The uploads it found
staged are live: at its end only they keep an observation.
-/

namespace Khive.Blob

open Attempt

def maxBlobWholeBytes : ℕ := 64 * 1024 * 1024

variable (host : Host)

/-! ## Beginning -/

/-- What is done once the staged file is created: its lease is published, and the caller gets the id
only when all is synced. -/
def beginCreated (id : UploadId) (lease : Lease) : Upload UploadId := do
  call host .syncCreated "begin_upload_sync"
  publish host id lease
  call host .syncRoot "upload_sync_root"
  pure id

/-- What is left of an upload that could not be begun is removed, the staged file first. -/
def beginFailed (id : UploadId) : Upload Unit := do
  match ← caught (call host .unlinkStaged "begin_upload") with
  | .ok _ =>
    if ← read fun s ↦ (s.staged.get id).isSome then write (dropStaged id)
    let _ ← caught (cleanup host id)
    pure ()
  | .error _ => pure ()

/-- The ids drawn are tried in turn until one names no file. A list in which every id is taken is
that of a call that is still drawing. -/
def beginLoop (lease : Lease) : List UploadId → Upload UploadId
  | [] => fail (.io "begin_upload")
  | id :: draws => do
    call host .createStaged "begin_upload"
    if ← read fun s ↦ (s.staged.get id).isSome then beginLoop lease draws
    else
      write fun s ↦ { s with staged := s.staged.insert id ⟨[], host.touched⟩ }
      match ← caught (beginCreated host id lease) with
      | .ok id => pure id
      | .error e =>
        beginFailed host id
        fail e

/-- `begin_leased`. -/
def beginLeased (size : ℕ) (config : UploadLeaseConfig) (draws : List UploadId) :
    Upload UploadId := do
  if maxBlobWholeBytes < size then
    fail (.invalidInput "begin_upload" "declared upload exceeds the 64 MiB ceiling")
  let lease ← check (Lease.begin config host.wall)
  call host .directory "begin_upload"
  write fun s ↦ { s with hasDirectory := true }
  beginLoop host lease draws

/-! ## Appending and renewing -/

/-- The staged file of an upload, opened through the upload directory. -/
def openStaged (id : UploadId) (operation : String) : Upload Staged := do
  call host .directory operation
  if ← read Store.hasDirectory then
    call host .openStaged operation
    match ← read fun s ↦ s.staged.get id with
    | some file => pure file
    | none => fail (.notFound id)
  else fail (.notFound id)

/-- The lease of an upload, renewed once more. -/
def renewal (id : UploadId) (operation : String) : Upload Lease := do
  match ← readLease host id with
  | some lease => check (lease.next host.wall)
  | none => fail (.invalidInput operation "missing upload lease")

def setStaged (id : UploadId) (file : Staged) (s : Store) : Store :=
  { s with staged := s.staged.insert id file }

/-- Append the bytes to the staged file. A failing write leaves some of them there. -/
def appendBytes (id : UploadId) (file : Staged) (bytes : List UInt8) : Upload Unit := do
  match ← caught (call host .write "append_part_write") with
  | .ok _ => write (setStaged id { file with content := file.content ++ bytes })
  | .error e =>
    write (setStaged id { file with content := file.content ++ bytes.take host.written })
    fail e
  call host .touch "append_part_touch"
  write (setStaged id ⟨file.content ++ bytes, host.touched⟩)
  call host .sync "append_part_sync"

def append (id : UploadId) (bytes : List UInt8) : Upload ℕ := do
  let file ← openStaged host id "append_part"
  let renewal ← renewal host id "append_part"
  call host .stat "append_part_stat"
  let after := file.content.length + bytes.length
  if maxBlobWholeBytes < after then
    fail (.invalidInput "append_part" "staged upload exceeds the 64 MiB ceiling")
  checkSpace host bytes.length
  appendBytes host id file bytes
  call host .statAfter "append_part_stat"
  let reached ← read fun s ↦ (s.staged.get id).map fun file ↦ file.content.length
  if reached ≠ some after then
    fail (.invalidInput "append_part" "staged length changed during append")
  publish host id renewal
  pure after

def renew (id : UploadId) : Upload Unit := do
  let _ ← openStaged host id "renew_upload"
  let renewal ← renewal host id "renew_upload"
  publish host id renewal

/-! ## Committing and aborting -/

def syncDirectories : Upload Unit := do
  call host .syncShard "put_sync_shard"
  call host .syncParent "put_sync_parent"
  call host .syncBlobRoot "put_sync_root"

/-- `publish_blob_at`: the staged file becomes the object, or is unlinked if it cannot be moved. -/
def publishBlobAt (id : UploadId) (file : Staged) (contentRef : ContentRef) : Upload Unit := do
  match ← caught (call host .persist "put_persist") with
  | .ok _ =>
    write (dropStaged id)
    write fun s ↦ { s with objects := s.objects.insert contentRef file.content }
  | .error e =>
    unless host.fails .unlinkStaged do write (dropStaged id)
    fail e
  syncDirectories host

def commitStaged (id : UploadId) (contentRef : ContentRef) : Upload Unit := do
  let file ← openStaged host id "commit_upload"
  call host .touch "put_touch_mtime"
  write (setStaged id { file with modified := host.touched })
  call host .sync "put_fsync"
  call host .makeShards "commit_upload_mkdir"
  call host .openExisting "commit_upload_existing"
  if ← read fun s ↦ (s.objects.get contentRef).isSome then
    call host .touchExisting "put_touch_mtime"
    call host .syncExisting "put_fsync"
    syncDirectories host
    call host .unlinkStaged "commit_upload_cleanup"
    write (dropStaged id)
  else publishBlobAt host id file contentRef
  call host .syncStaging "upload_sync_staging"

def commit (id : UploadId) (contentRef : ContentRef) : Upload Unit := do
  commitStaged host id contentRef
  cleanup host id

def abort (id : UploadId) : Upload Unit := do
  call host .directory "abort_upload"
  if ← read fun s ↦ s.hasDirectory && (s.staged.get id).isSome then
    call host .unlinkStaged "abort_upload"
    write (dropStaged id)
  cleanup host id

/-! ## Sweeping -/

/-- What the name of an entry stands for: 32 lowercase hex characters are a staged file, with
`.lease` behind them a sidecar, and the sweep passes over every other name. -/
inductive EntryName
  | staged (id : UploadId)
  | lease (id : UploadId)
  | other
  deriving DecidableEq

/-- A sidecar is cleaned up when its staged file is missing. -/
def sweepSidecar (id : UploadId) : Upload Unit := do
  if ← read fun s ↦ !host.fails .openStaged && (s.staged.get id).isNone then cleanup host id

/-- The staged file was there when the sweep came to it. -/
def isLive (id : UploadId) (s : Store) : Bool := !host.fails .openStaged && (s.staged.get id).isSome

/-- Is a staged file without a lease a day old? -/
def isAbandoned (file : Staged) (wall : ℤ) : Upload Bool := do
  call host .stat "sweep_uploads_stat"
  pure (decide (file.modified + 86400 * 1000000000 ≤ wall))

/-- A lease that is missing or cannot be read takes the observation of the upload with it. -/
def sweepLease (id : UploadId) : Upload (Option Lease) := do
  let value ← read fun s ↦ s.lease host id
  match value with
  | .ok (some lease) => pure (some lease)
  | value =>
    write (forget id)
    check value

/-- Visit a staged file, and say whether it was removed. -/
def sweepStaged (id : UploadId) (wall : ℤ) (monotonic : ℕ) : Upload Bool := do
  call host .openStaged "sweep_uploads_stat"
  match ← read fun s ↦ s.staged.get id with
  | none => pure false
  | some file =>
    let expired ← match ← sweepLease host id with
      | some lease => expired id lease wall monotonic
      | none => isAbandoned host file wall
    if expired then
      call host .unlinkStaged "sweep_uploads_delete"
      write (dropStaged id)
      cleanup host id
    pure expired

/-- A sweep under way. -/
structure Sweep where
  store : Store
  live : List UploadId
  removed : ℕ
  failure : Option StorageError

/-- Take up what visiting an entry did. -/
def Sweep.record (sweep : Sweep) (live : List UploadId) : Except StorageError Bool × Store → Sweep
  | (.ok removed, store) =>
    ⟨store, live, if removed then sweep.removed + 1 else sweep.removed, sweep.failure⟩
  | (.error e, store) => ⟨store, live, sweep.removed, sweep.failure.or (some e)⟩

def Sweep.visit (wall : ℤ) (monotonic : ℕ) (sweep : Sweep) : EntryName × Host → Sweep
  | (.lease id, host) =>
    sweep.record sweep.live ((sweepSidecar host id >>= fun _ ↦ pure false) sweep.store)
  | (.staged id, host) =>
    sweep.record (if isLive host id sweep.store then id :: sweep.live else sweep.live)
      (sweepStaged host id wall monotonic sweep.store)
  | (.other, _) => sweep

def Sweep.start (s : Store) : Sweep := ⟨s, [], 0, none⟩

/-- The entries of a listing visited in turn, each with what the host answers meanwhile. -/
def sweepEntries (wall : ℤ) (monotonic : ℕ) (listing : List (EntryName × Host)) (s : Store) :
    Sweep :=
  listing.foldl (Sweep.visit wall monotonic) (.start s)

def Sweep.finish (sweep : Sweep) : Except StorageError ℕ × Store :=
  let store := { sweep.store with
    observations := sweep.store.observations.filterKeys fun id ↦ decide (id ∈ sweep.live) }
  match sweep.failure with
  | some e => (.error e, store)
  | none => (.ok sweep.removed, store)

def sweepListing (wall : ℤ) (monotonic : ℕ) (listing : List (EntryName × Host)) : Upload ℕ :=
  fun s ↦ (sweepEntries wall monotonic listing s).finish

/-- `sweep_at`. -/
def sweepAt (wall : ℤ) (monotonic : ℕ) (listing : List (EntryName × Host)) : Upload ℕ := do
  call host .directory "sweep_uploads_open"
  if ← read Store.hasDirectory then
    call host .names "sweep_uploads_list"
    sweepListing wall monotonic listing
  else
    write fun s ↦ { s with observations := .empty }
    pure 0

/-! ## Runs -/

/-- A step with all that it is given: the ids it draws, the clocks it reads, the directory listing
it gets, and what the host answers. -/
inductive Request
  | begin (size : ℕ) (config : UploadLeaseConfig) (draws : List UploadId) (host : Host)
  | append (id : UploadId) (bytes : List UInt8) (host : Host)
  | renew (id : UploadId) (host : Host)
  | commit (id : UploadId) (contentRef : ContentRef) (host : Host)
  | abort (id : UploadId) (host : Host)
  | sweep (wall : ℤ) (monotonic : ℕ) (listing : List (EntryName × Host)) (host : Host)

/-- Run a step for its effect. -/
def Request.perform : Request → Upload Unit
  | .begin size config draws host => beginLeased host size config draws >>= fun _ ↦ pure ()
  | .append id bytes host => Blob.append host id bytes >>= fun _ ↦ pure ()
  | .renew id host => Blob.renew host id
  | .commit id contentRef host => Blob.commit host id contentRef
  | .abort id host => Blob.abort host id
  | .sweep wall monotonic listing host => sweepAt host wall monotonic listing >>= fun _ ↦ pure ()

/-- The store after a sequence of steps. -/
def Store.after (s : Store) (steps : List Request) : Store :=
  steps.foldl (fun s request ↦ (request.perform s).2) s

end Khive.Blob
