import Khive.Streams.Append

/-!
# Truncating and reading a stream

A truncation removes the entries below a bound that is clipped to the number after the head, writes
the bound as the floor, and does so in one transaction. A read takes head, floor and page from one
snapshot of the tables; its `nextAfter` is the last number of the page when the head is above it.
-/

namespace Khive.Streams

variable {ν : Type}

/-! ## Truncation -/

/-- What a truncation answers. -/
structure Truncated where
  removed : ℕ
  floorSeq : ℤ
  headSeq : ℤ
  deriving DecidableEq, Repr

def invalidState (message : String) : RuntimeError := .internal ("stream truncation: " ++ message)

/-- The entries below a bound that have a note of the stream's namespace. -/
def truncatedNotes (db : Database) (stream : StreamKey) (before : ℤ) : List Note :=
  (db.rowsBelow stream before).filterMap fun row ↦
    (db.notes.get row.noteId).filter fun note ↦ note.namespace == stream.namespace

/-- `note_delete_plan` for the notes of the removed rows, after their index rows: each must delete
exactly one row. -/
def deleteNotes («namespace» : String) :
    Database → List Note → Except RuntimeError Database
  | db, [] => .ok db
  | db, note :: rest => do
    let (after, affected) ← (db.execute (.deleteNote «namespace» note.id)).mapError .storage
    guardOr (invalidState "note deletion refused") (AffectedRowGuard.holdsFor (.exactly 1) affected)
    deleteNotes «namespace» after rest

/-- The writes of a truncation: the permit, the ledger prefix, the notes, the floor, and the permit
again. -/
def truncateBelow (db : Database) (key : StreamKey) (before : ℤ) :
    Except RuntimeError (Database × ℕ) := do
  let notes := truncatedNotes db key before
  let permits ← okOr (.storage (.constraint "UNIQUE constraint failed: note_stream_truncations"))
    (db.noteStreamTruncations.insert ⟨key, before⟩)
  let permitted := { db with noteStreamTruncations := permits }
  let (cut, removed) ← (permitted.deleteLedger key before).mapError .storage
  guardOr (invalidState "ledger prefix has missing note records") (removed == notes.length)
  let purged ← deleteNotes key.namespace cut notes
  let floors := purged.noteStreamFloors.upsert ⟨key, before⟩
  let cleared := purged.noteStreamTruncations.filter fun permit ↦ permit.stream != key
  return ({ purged with noteStreamFloors := floors, noteStreamTruncations := cleared }, removed)

/-- `stream_truncate`: the tables the transaction commits, and its answer. -/
def streamTruncate (db : Database) («namespace» stream : String) (beforeSeq : ℤ) :
    Except RuntimeError (Database × Truncated) := do
  validateStream stream
  let key : StreamKey := ⟨«namespace», stream⟩
  let head := db.headSeq key
  let floor := db.floorSeq key
  guardOr (invalidState "unrepresentable stream floor") (head != maxSeq)
  let before := min beforeSeq (head + 1)
  if before ≤ floor then
    return (db, ⟨0, floor, head⟩)
  else
    (truncateBelow db key before).map fun (after, removed) ↦ (after, ⟨removed, before, head⟩)

/-! ## Reading -/

structure StreamEntry (ν : Type) where
  seq : ℤ
  id : String
  record : Json ν
  createdAt : ℤ

/-- What a read answers. -/
structure StreamPage (ν : Type) where
  entries : List (StreamEntry ν)
  headSeq : ℤ
  floorSeq : ℤ
  nextAfter : Option ℤ

/-- The rows of a page: the ledger joined to its notes, above `after` and the floor, in order. -/
def pageRows (db : Database) (stream : StreamKey) (after : ℤ) (limit : ℕ) : List (ℤ × Note) :=
  let above := max after (db.floorSeq stream - 1)
  let joined := db.noteStreams.rows.filterMap fun row ↦
    if row.stream = stream ∧ above < row.seq then
      (db.notes.get row.noteId).map fun note ↦ (row.seq, note)
    else none
  (joined.mergeSort fun a b ↦ decide (a.1 ≤ b.1)).take limit

def entryOfRow (text : JsonText ν) (row : ℤ × Note) : Except RuntimeError (StreamEntry ν) := do
  let record ← okOr (.internal "invalid stream record JSON") (text.parse row.2.content)
  return ⟨row.1, row.2.id, record, row.2.createdAt⟩

/-- `stream_read`. -/
def streamRead (text : JsonText ν) (db : Database) («namespace» stream : String) (after limit : ℤ) :
    Except RuntimeError (StreamPage ν) := do
  validateStream stream
  guardOr (.invalidInput "stream.read requires after >= 0 and limit >= 1")
    (decide (0 ≤ after) && decide (1 ≤ limit))
  let key : StreamKey := ⟨«namespace», stream⟩
  let rows := pageRows db key after limit.toNat
  let entries ← rows.mapM (entryOfRow text)
  let head := db.headSeq key
  return {
    entries := entries
    headSeq := head
    floorSeq := db.floorSeq key
    nextAfter := (rows.getLast?.map Prod.fst).filter (· < head) }

end Khive.Streams
