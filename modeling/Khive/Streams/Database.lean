import Khive.Foundation.Checks
import Khive.Foundation.Table

/-!
# The tables under ordered note streams

`note_streams` is the ledger: it says which note stands under which number of which stream.
`note_stream_floors` keeps how far a stream was truncated, and `note_stream_truncations` holds the
permit under which one truncation deletes ledger rows. The triggers of these tables are part of
every statement here: an entry is inserted only under the next number, a ledger row is deleted only
under a permit, and a note that stands in a stream is neither deleted nor rewritten.

Statements on tables that a stream transaction never reads (full text, vectors) are `auxiliary`:
their result is given.
-/

namespace Khive.Streams

/-! ## Rows -/

/-- The columns of `notes` that the stream transactions and their guards read. -/
structure Note where
  id : String
  «namespace» : String
  kind : String
  key : Option String
  content : String
  createdAt : ℤ
  deletedAt : Option ℤ
  version : ℤ
  deriving DecidableEq, Repr

/-- A stream of a namespace. -/
structure StreamKey where
  «namespace» : String
  stream : String
  deriving DecidableEq, Repr

structure LedgerRow where
  stream : StreamKey
  seq : ℤ
  noteId : String
  deriving DecidableEq, Repr

abbrev LedgerRow.key (row : LedgerRow) : StreamKey × ℤ := (row.stream, row.seq)

structure FloorRow where
  stream : StreamKey
  floorSeq : ℤ
  deriving DecidableEq, Repr

structure PermitRow where
  stream : StreamKey
  beforeSeq : ℤ
  deriving DecidableEq, Repr

@[ext]
structure Database where
  notes : Table Note String Note.id
  noteStreams : Table LedgerRow (StreamKey × ℤ) LedgerRow.key
  noteStreamFloors : Table FloorRow StreamKey FloorRow.stream
  noteStreamTruncations : Table PermitRow StreamKey PermitRow.stream
  deriving DecidableEq

namespace Database

def empty : Database := ⟨.empty, .empty, .empty, .empty⟩

end Database

/-! ## Errors -/

inductive StorageError
  /-- A trigger raised `ABORT` with this message. -/
  | trigger (message : String)
  | constraint (message : String)
  /-- `write_failure`: a conflict of the operation `stream.append`. -/
  | conflict (message : String)
  | internal (message : String)
  deriving DecidableEq, Repr

/-- `i64::MAX`. -/
def maxSeq : ℤ := 9223372036854775807

/-! ## Statements on notes -/

/-- An `UPDATE notes`: which row, under which condition, and which columns it assigns. -/
structure NoteUpdate where
  id : String
  version : Option ℤ
  «namespace» : Option String
  kind : Option String
  content : Option String
  deletedAt : Option (Option ℤ)
  properties : Bool
  deriving DecidableEq, Repr

namespace NoteUpdate

def matches? (update : NoteUpdate) (held : Note) : Bool :=
  update.version.all (· == held.version)

/-- The columns of the trigger `refuse_stream_entry_rewrite`: it fires when one of them is
assigned, whatever the value. -/
def rewrites (update : NoteUpdate) : Bool :=
  update.content.isSome || update.properties || update.deletedAt.isSome ||
    update.namespace.isSome || update.kind.isSome

/-- The assigned columns, and the version the trigger `bump_note_version` counts up. -/
def apply (update : NoteUpdate) (held : Note) : Note where
  id := held.id
  «namespace» := update.namespace.getD held.namespace
  kind := update.kind.getD held.kind
  key := held.key
  content := update.content.getD held.content
  createdAt := held.createdAt
  deletedAt := update.deletedAt.getD held.deletedAt
  version := held.version + 1

end NoteUpdate

inductive Statement
  | upsertNote (note : Note)
  | insertKeyedNote (note : Note)
  | updateNote (update : NoteUpdate)
  | deleteNote («namespace» id : String)
  | auxiliary (affected : Except StorageError ℕ)

namespace Database

/-- The live note that holds a key. -/
def liveHolder? (db : Database) («namespace» kind key : String) : Option Note :=
  db.notes.rows.find? fun note ↦
    note.namespace == «namespace» && note.kind == kind && note.key == some key &&
      note.deletedAt.isNone

/-- Another live note holds the key of `note`: the unique index over live keys. -/
def keyTaken (db : Database) (note : Note) : Bool :=
  note.deletedAt.isNone && note.key.any fun key ↦
    (db.liveHolder? note.namespace note.kind key).any fun held ↦ held.id != note.id

/-- A note stands in some stream. -/
def inStream (db : Database) (noteId : String) : Bool :=
  db.noteStreams.rows.any fun row ↦ row.noteId == noteId

def uniqueKey : StorageError := .constraint "UNIQUE constraint failed: idx_notes_namespace_kind_key"

def streamMember : StorageError := .trigger "stream_member"

def streamGap : StorageError := .trigger "stream_gap"

/-- Replace the row of a note under the triggers and the index on live keys. -/
def rewriteNote (db : Database) (rewrites : Bool) (note : Note) :
    Except StorageError (Database × ℕ) :=
  if rewrites && db.inStream note.id then .error streamMember
  else if db.keyTaken note then .error uniqueKey
  else .ok ({ db with notes := db.notes.upsert note }, 1)

/-- One statement: the tables after it and how many rows it affected. -/
def execute (db : Database) : Statement → Except StorageError (Database × ℕ)
  | .upsertNote note =>
    match db.notes.get note.id with
    | none => db.rewriteNote false { note with version := 1 }
    | some held =>
      -- `DO UPDATE`: the key and the creation time stay
      db.rewriteNote true
        { note with key := held.key, createdAt := held.createdAt, version := held.version + 1 }
  | .insertKeyedNote note =>
    if db.keyTaken note then .ok (db, 0)
    else if (db.notes.get note.id).isSome then .error (.constraint "UNIQUE constraint failed: notes.id")
    else db.rewriteNote false { note with version := 1 }
  | .updateNote update =>
    match db.notes.get update.id with
    | none => .ok (db, 0)
    | some held =>
      if update.matches? held then db.rewriteNote update.rewrites (update.apply held)
      else .ok (db, 0)
  | .deleteNote «namespace» id =>
    match db.notes.get id with
    | none => .ok (db, 0)
    | some held =>
      if held.namespace != «namespace» then .ok (db, 0)
      else if db.inStream id then .error streamMember
      else .ok ({ db with notes := db.notes.filter fun note ↦ note.id != id }, 1)
  | .auxiliary affected => affected.map fun count ↦ (db, count)

/-! ## The ledger -/

/-- `SELECT MAX(seq) FROM note_streams` of a stream. -/
def maxSeq? (db : Database) (stream : StreamKey) : Option ℤ :=
  ((db.noteStreams.rows.filter fun row ↦ row.stream == stream).map LedgerRow.seq).max?

def floorSeq? (db : Database) (stream : StreamKey) : Option ℤ :=
  (db.noteStreamFloors.get stream).map FloorRow.floorSeq

/-- `STREAM_POSITION_SQL`, its column `head_seq`. The persisted floor retains the head when
truncation removes every entry. -/
def headSeq (db : Database) (stream : StreamKey) : ℤ :=
  max ((db.maxSeq? stream).getD 0) (((db.floorSeq? stream).map (· - 1)).getD 0)

/-- `STREAM_POSITION_SQL`, its column `floor_seq`. -/
def floorSeq (db : Database) (stream : StreamKey) : ℤ :=
  (db.floorSeq? stream).getD 1

/-- `INSERT INTO note_streams` under the triggers `refuse_stream_foreign_note` and
`refuse_stream_gap_v60`. -/
def insertStreamEntry (db : Database) (stream : StreamKey) (seq : ℤ) (noteId : String) :
    Except StorageError Database := do
  guardOr streamMember <| (db.notes.get noteId).any fun note ↦
    note.namespace == stream.namespace && note.deletedAt.isNone
  guardOr streamMember (!db.inStream noteId)
  guardOr streamGap (seq != Streams.maxSeq && seq == db.headSeq stream + 1)
  guardOr (.constraint "CHECK constraint failed: seq > 0") (decide (0 < seq))
  let ledger ← okOr (.constraint "UNIQUE constraint failed: note_streams")
    (db.noteStreams.insert ⟨stream, seq, noteId⟩)
  return { db with noteStreams := ledger }

/-- The rows of a stream below a number, in order. -/
def rowsBelow (db : Database) (stream : StreamKey) (before : ℤ) : List LedgerRow :=
  (db.noteStreams.rows.filter fun row ↦ row.stream == stream && decide (row.seq < before)).mergeSort
    fun a b ↦ decide (a.seq ≤ b.seq)

/-- `DELETE FROM note_streams … AND seq < before` under the trigger
`refuse_stream_ledger_delete_v60`. -/
def deleteLedger (db : Database) (stream : StreamKey) (before : ℤ) :
    Except StorageError (Database × ℕ) :=
  let rows := db.rowsBelow stream before
  let permitted (row : LedgerRow) : Bool :=
    (db.noteStreamTruncations.get stream).any fun permit ↦ decide (row.seq < permit.beforeSeq)
  if rows.all permitted then
    .ok ({ db with noteStreams := db.noteStreams.filter fun row ↦
      !(row.stream == stream && decide (row.seq < before)) }, rows.length)
  else .error streamMember

end Database

/-! ## Fences -/

/-- What a fence asserts about the live holder of a key. -/
structure NoteFence where
  key : String
  kind : String
  expectedVersion : Option ℤ
  liveUntil : Option String
  id : Option String
  deriving DecidableEq, Repr

/-- Whether a fence came alone or in a list; only a list names the failing index. -/
inductive NoteFences
  | one (fence : NoteFence)
  | many (fences : List NoteFence)
  deriving DecidableEq, Repr

def NoteFences.entries : NoteFences → List NoteFence
  | .one fence => [fence]
  | .many fences => fences

inductive NoteWriteConflict
  | version (expected current : ℤ)
  | fence (key : String) (expected current : Option ℤ) (index : Option ℕ)
  | key (key existingId : String)
  | fenceDeadline (key kind : String) (version : ℤ) (field : String) (index : Option ℕ)
      (reason : String)
  | fenceIdentity (key kind : String) (version : ℤ) (index : Option ℕ) (asserted current : String)
  deriving DecidableEq, Repr

/-- What a transaction reads beside the tables: its clock, and the deadline that a dotted path
finds in a note's JSON content. -/
structure Reading where
  now : ℤ
  deadline : String → String → Option ℤ

/-- `live_until::evaluate`: the reason for which a deadline does not admit the write. -/
def deadlineRefusal (reading : Reading) (content : Option String) (field : String) :
    Option String :=
  match content.bind (reading.deadline · field) with
  | some deadline => if reading.now < deadline then none else some "expired"
  | none => some "live_until_unreadable"

namespace Database

/-- One fence: identity first, then version, then the deadline. -/
def checkFence (db : Database) (reading : Reading) («namespace» : String) (index : Option ℕ)
    (fence : NoteFence) : Option NoteWriteConflict :=
  let holder := db.liveHolder? «namespace» fence.kind fence.key
  match fence.id, holder with
  | some asserted, some held =>
    if asserted != held.id then
      some (.fenceIdentity fence.key fence.kind (fence.expectedVersion.getD 0) index asserted held.id)
    else checkVersion holder
  | _, _ => checkVersion holder
where
  checkVersion (holder : Option Note) : Option NoteWriteConflict :=
    if holder.map Note.version != fence.expectedVersion then
      some (.fence fence.key fence.expectedVersion (holder.map Note.version) index)
    else
      fence.liveUntil.bind fun field ↦
        (deadlineRefusal reading (holder.map Note.content) field).map
          (.fenceDeadline fence.key fence.kind (fence.expectedVersion.getD 0) field index)

/-- `NoteWriteGuard::check_fence`: the first conflict of a list of fences. -/
def checkFences (db : Database) (reading : Reading) («namespace» : String) :
    Option NoteFences → Option NoteWriteConflict
  | none => none
  | some fences =>
    (fences.entries.zipIdx).findSome? fun (fence, index) ↦
      let index := match fences with
        | .one _ => none
        | .many _ => some index
      db.checkFence reading «namespace» index fence

end Database

/-! ## Plans -/

/-- How many rows a statement must affect. -/
structure AffectedRowGuard where
  expectedMin : ℕ
  expectedMax : Option ℕ
  deriving DecidableEq, Repr

namespace AffectedRowGuard

def exactly (n : ℕ) : AffectedRowGuard := ⟨n, some n⟩

def holdsFor (guard : AffectedRowGuard) (affected : ℕ) : Bool :=
  decide (guard.expectedMin ≤ affected) && guard.expectedMax.all fun bound ↦ decide (affected ≤ bound)

end AffectedRowGuard

structure PlanStatement where
  statement : Statement
  guard : Option AffectedRowGuard

/-- What a note write asserts: its fences, the version it replaces and the key it claims. -/
structure NoteWriteGuard where
  «namespace» : String
  targetId : String
  expectedVersion : Option ℤ
  fence : Option NoteFences
  createKey : Option (String × String)

structure Plan where
  statements : List PlanStatement
  guard : Option NoteWriteGuard

inductive PlanFailure
  | noteConflict (conflict : NoteWriteConflict)
  | guardFailed (expected : AffectedRowGuard) (observed : ℕ)
  | sqlError (source : StorageError)
  deriving DecidableEq, Repr

namespace Database

/-- `NoteWriteGuard::classify_refusal`: why the first statement changed no row. -/
def classifyRefusal (db : Database) (guard : NoteWriteGuard) : Option NoteWriteConflict :=
  let taken := guard.createKey.bind fun (kind, key) ↦
    (db.liveHolder? guard.namespace kind key).map fun held ↦ NoteWriteConflict.key key held.id
  let moved := guard.expectedVersion.bind fun expected ↦
    ((db.notes.get guard.targetId).filter fun note ↦ note.deletedAt.isNone).bind fun held ↦
      if held.version != expected then some (NoteWriteConflict.version expected held.version)
      else none
  taken.or moved

/-- The statements of a plan from the one at `index` on. -/
def runStatements (guard : Option NoteWriteGuard) :
    Database → ℕ → List PlanStatement → Except PlanFailure Database
  | db, _, [] => .ok db
  | db, index, planned :: rest => do
    let (after, affected) ← (db.execute planned.statement).mapError .sqlError
    match planned.guard.filter fun expected ↦ !expected.holdsFor affected with
    | none => runStatements guard after (index + 1) rest
    | some expected =>
      match (if index = 0 then guard else none).bind after.classifyRefusal with
      | some conflict => .error (.noteConflict conflict)
      | none => .error (.guardFailed expected affected)

/-- `apply_plan`. -/
def applyPlan (db : Database) (reading : Reading) (plan : Plan) : Except PlanFailure Database :=
  match plan.guard.bind fun guard ↦ db.checkFences reading guard.namespace guard.fence with
  | some conflict => .error (.noteConflict conflict)
  | none => db.runStatements plan.guard 0 plan.statements

end Database

end Khive.Streams
