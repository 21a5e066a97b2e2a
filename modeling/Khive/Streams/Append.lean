import Khive.Foundation.Bytes
import Khive.Foundation.Json
import Khive.Foundation.SortedMap
import Khive.Streams.Database

/-!
# Appending to streams

A number is handed out from a head that the transaction read, and every number goes through
`allocateSequence`. Two paths do so. `runStreamAppends` reads all heads, assigns all numbers in list
order and only then writes; a batch of `runPreparedStreamBatch` reads a head when a member first
names its stream, and keeps it in a cache for the members after it. A batch in atomic mode is one
transaction, in per-member mode one transaction for each member.

What an append stores is text. `prepareContent` serializes the record, and where the note kind has a
hook of its own, the hook may put another text in its place.
-/

namespace Khive.Streams

/-! ## Refusals -/

/-- The errors a caller can act on, with the details they carry. -/
inductive KhiveError
  | seqConflict (stream : String) (expected next : ℤ)
  | sequenceExhausted
  | noteConflict (conflict : NoteWriteConflict)
  | observation (reason key : String) (index : ℕ)
  | writeNotFound (key : String)
  | given (message : String)
  deriving DecidableEq, Repr

inductive RuntimeError
  | invalidInput (message : String)
  | internal (message : String)
  | khive (error : KhiveError)
  | storage (error : StorageError)
  deriving DecidableEq, Repr

/-! ## The allocator -/

inductive SequenceRefusal
  | exhausted
  | conflict (expected next : ℤ)
  deriving DecidableEq, Repr

/-- The number after `head`. The final `i64` is reserved for the floor of an emptied stream. -/
def allocateSequence (head : ℤ) (expected : Option ℤ) : Except SequenceRefusal ℤ :=
  if head = maxSeq then .error .exhausted
  else
    match expected.filter (· != head + 1) with
    | some expected => .error (.conflict expected (head + 1))
    | none => if head + 1 = maxSeq then .error .exhausted else .ok (head + 1)

/-! ## Preparing an append -/

/-- The text codec of JSON values. -/
structure JsonText (ν : Type) where
  print : Json ν → String
  parse : String → Option (Json ν)

/-- A hook that a note kind registers for its creation: it edits the arguments or refuses. -/
abbrev KindHook (ν : Type) :=
  OrderedMap String (Json ν) → Except RuntimeError (OrderedMap String (Json ν))

structure StreamAppendSpec (ν : Type) where
  stream : String
  record : Json ν
  expectedSeq : Option ℤ
  embed : Option Bool
  embeddingModel : Option String
  noteKind : String
  tags : Option (List String)
  fence : Option NoteFences

/-- What a fresh note draws: its id, its time, and the results of its index statements. -/
structure Draw where
  id : String
  createdAt : ℤ
  indexes : List (Except StorageError ℕ)

variable {ν : Type}

def validateStream (stream : String) : Except RuntimeError Unit :=
  guardOr (.invalidInput "stream must be at most 512 UTF-8 bytes and contain no U+0000") <|
    decide (byteSize stream.toList ≤ 512) && !stream.toList.contains '\x00'

namespace StreamAppendSpec

def validateEmbedding (spec : StreamAppendSpec ν) : Except RuntimeError Unit :=
  guardOr (.khive (.given "embedding_model requires embed=true")) <|
    !(spec.embeddingModel.isSome && spec.embed != some true)

end StreamAppendSpec

/-- The arguments a kind hook sees: an object record's own members, with the fields of the note
over them. A kind without a hook sees those fields only. -/
def createArgs (text : JsonText ν) («namespace» : String) (spec : StreamAppendSpec ν) (hooked : Bool) :
    OrderedMap String (Json ν) :=
  let own : OrderedMap String (Json ν) := match hooked, spec.record with
    | true, .object members => members.foldl (fun args member ↦ args.insert member.1 member.2) .empty
    | _, _ => .empty
  let args := (((own.insert "kind" (.string "note")).insert "note_kind" (.string spec.noteKind)).insert
    "content" (.string (text.print spec.record))).insert "namespace" (.string «namespace»)
  let args := match spec.tags with
    | some tags => args.insert "tags" (.array (tags.map .string))
    | none => args
  match spec.embed with
  | some embed => args.insert "embed" (.bool embed)
  | none => args

/-- The text an append stores. -/
def prepareContent (text : JsonText ν) (hooks : String → Option (KindHook ν)) («namespace» : String)
    (spec : StreamAppendSpec ν) : Except RuntimeError String := do
  let hook := hooks spec.noteKind
  let args := createArgs text «namespace» spec hook.isSome
  let args ← match hook with
    | some hook => hook args
    | none => .ok args
  match args.get "content" with
  | some (.string content) => .ok content
  | _ => .error (.invalidInput "stream append fields: content must be a string")

structure PreparedAppend where
  stream : String
  expectedSeq : Option ℤ
  note : Note
  statements : List PlanStatement
  fence : Option NoteFences

/-- A new note of a namespace. -/
def Draw.note (draw : Draw) («namespace» kind content : String) : Note where
  id := draw.id
  «namespace» := «namespace»
  kind := kind
  key := none
  content := content
  createdAt := draw.createdAt
  deletedAt := none
  version := 1

/-- The statements of a new note: its row, then its index rows. -/
def noteStatements (note : Note) (indexes : List (Except StorageError ℕ)) : List PlanStatement :=
  ⟨.upsertNote note, some (.exactly 1)⟩ :: indexes.map fun affected ↦ ⟨.auxiliary affected, none⟩

/-- `prepare_stream_appends` for one append. -/
def prepareStreamAppend (text : JsonText ν) (hooks : String → Option (KindHook ν))
    («namespace» : String) (spec : StreamAppendSpec ν) (draw : Draw) :
    Except RuntimeError PreparedAppend := do
  spec.validateEmbedding
  validateStream spec.stream
  let content ← prepareContent text hooks «namespace» spec
  let note := draw.note «namespace» spec.noteKind content
  return ⟨spec.stream, spec.expectedSeq, note, noteStatements note draw.indexes, spec.fence⟩

/-! ## One transaction over several appends -/

inductive BatchOutcome
  | appended (seqs : List ℤ)
  | exhausted
  | conflict (next : ℤ)
  | fenceConflict (conflict : NoteWriteConflict)
  deriving DecidableEq, Repr

/-- Every stream head, each read once. -/
def readHeads (db : Database) («namespace» : String) (appends : List PreparedAppend) :
    OrderedMap String ℤ :=
  appends.foldl (fun heads append ↦ if (heads.get append.stream).isSome then heads
    else heads.insert append.stream (db.headSeq ⟨«namespace», append.stream⟩)) .empty

/-- Assign the numbers in list order. A refusal is an outcome: nothing was written yet. -/
def assignSequences (db : Database) (reading : Reading) («namespace» : String) :
    OrderedMap String ℤ → List PreparedAppend → Except (Except StorageError BatchOutcome) (List ℤ)
  | _, [] => .ok []
  | heads, append :: rest =>
    match db.checkFences reading «namespace» append.fence with
    | some conflict => .error (.ok (.fenceConflict conflict))
    | none =>
      match heads.get append.stream with
      | none => .error (.error (.conflict "stream head missing"))
      | some head =>
        match allocateSequence head append.expectedSeq with
        | .error .exhausted => .error (.ok .exhausted)
        | .error (.conflict _ next) => .error (.ok (.conflict next))
        | .ok next => do
          let seqs ← assignSequences db reading «namespace» (heads.insert append.stream next) rest
          return next :: seqs

/-- The prepared statements of a note, each with its guard. -/
def writeStatements : Database → List PlanStatement → Except StorageError Database
  | db, [] => .ok db
  | db, planned :: rest => do
    let (after, affected) ← db.execute planned.statement
    guardOr (.conflict "prepared note write guard failed") <|
      planned.guard.all fun guard ↦ guard.holdsFor affected
    writeStatements after rest

/-- Notes and ledger rows, in list order. -/
def writeAppends («namespace» : String) :
    Database → List (PreparedAppend × ℤ) → Except StorageError Database
  | db, [] => .ok db
  | db, (append, seq) :: rest => do
    let written ← writeStatements db append.statements
    let entered ← written.insertStreamEntry ⟨«namespace», append.stream⟩ seq append.note.id
    writeAppends «namespace» entered rest

/-- `run_stream_appends`: the tables the transaction commits, and its outcome. -/
def runStreamAppends (db : Database) (reading : Reading) («namespace» : String)
    (appends : List PreparedAppend) : Except StorageError (Database × BatchOutcome) :=
  match assignSequences db reading «namespace» (readHeads db «namespace» appends) appends with
  | .error (.error failure) => .error failure
  | .error (.ok outcome) => .ok (db, outcome)
  | .ok seqs => do
    let written ← writeAppends «namespace» db (appends.zip seqs)
    return (written, .appended seqs)

/-! ## A batch -/

/-- A member of a batch. A write comes with the plan that its preparation made of it. -/
inductive StreamBatchMember (ν : Type)
  | append (spec : StreamAppendSpec ν) (draw : Draw)
  | write (key kind id : String) (plan : Plan)
  | refused (error : KhiveError)

inductive PreparedBatchAction
  | append (stream : String) (expectedSeq : Option ℤ) (note : Note) (plan : Plan)
      (fence : Option NoteFences)
  | write (key kind id : String) (plan : Plan)
  | refused (error : KhiveError)

structure PreparedBatchMember where
  index : ℕ
  action : PreparedBatchAction

/-- `prepare_stream_batch` for one member: an append keeps its record as JSON text, whatever the
kind. -/
def prepareAction (text : JsonText ν) («namespace» : String) :
    StreamBatchMember ν → PreparedBatchAction
  | .append spec draw =>
    let note := draw.note «namespace» spec.noteKind (text.print spec.record)
    .append spec.stream spec.expectedSeq note
      ⟨noteStatements note draw.indexes, some ⟨«namespace», note.id, none, none, none⟩⟩ spec.fence
  | .write key kind id plan => .write key kind id plan
  | .refused error => .refused error

def prepareStreamBatch (text : JsonText ν) («namespace» : String)
    (members : List (StreamBatchMember ν)) : List PreparedBatchMember :=
  members.zipIdx.map fun (member, index) ↦ ⟨index, prepareAction text «namespace» member⟩

/-- An exact live-key observation. -/
structure StreamObservation where
  key : String
  kind : String
  version : Option ℤ
  id : Option String
  liveUntil : Option String
  deriving DecidableEq, Repr

/-- One observation: the identity, then the version, then the deadline. -/
def observationRefusal (db : Database) (reading : Reading) («namespace» : String)
    (entry : StreamObservation) : Option String :=
  let holder := db.liveHolder? «namespace» entry.kind entry.key
  if (entry.id.any fun asserted ↦ holder.any fun held ↦ asserted != held.id) then
    some "identity_conflict"
  else if holder.map Note.version != entry.version then some "version_conflict"
  else entry.liveUntil.bind fun field ↦
    deadlineRefusal reading (holder.map Note.content) field

/-- `check_observed`: the first refusal, with its index. -/
def checkObserved (db : Database) (reading : Reading) («namespace» : String)
    (observed : List StreamObservation) : Option KhiveError :=
  observed.zipIdx.findSome? fun (entry, index) ↦
    (observationRefusal db reading «namespace» entry).map fun reason ↦
      .observation reason entry.key index

/-- What a member answers. -/
inductive MemberResult
  | appended (seq : ℤ) (id : String) (createdAt : ℤ)
  | written (id : String) (version : ℤ)
  deriving DecidableEq, Repr

/-- Why the plan of a write failed: a conflict, a holder that moved, or an internal error. -/
def writeFailure (db : Database) («namespace» key kind id : String) (plan : Plan) :
    PlanFailure → RuntimeError
  | .noteConflict conflict => .khive (.noteConflict conflict)
  | .guardFailed .. =>
    match db.liveHolder? «namespace» kind key with
    | none => .khive (.writeNotFound key)
    | some holder =>
      match (plan.guard.bind NoteWriteGuard.expectedVersion).filter fun _ ↦ holder.id != id with
      | some expected => .khive (.noteConflict (.version expected holder.version))
      | none => .khive (.given ("note " ++ id ++
          " changed concurrently after it was read; retry with fresh state"))
  | .sqlError _ => .internal "stream write plan failed"

/-- `apply_stream_member`: the head of a stream is read when a member first names it. -/
def applyStreamMember (db : Database) (reading : Reading) («namespace» : String)
    (heads : OrderedMap String ℤ) :
    PreparedBatchAction → Except RuntimeError (Database × OrderedMap String ℤ × MemberResult)
  | .refused error => .error (.khive error)
  | .append stream expectedSeq note plan _ => do
    let head := (heads.get stream).getD (db.headSeq ⟨«namespace», stream⟩)
    let next ← (allocateSequence head expectedSeq).mapError fun refusal ↦
      match refusal with
      | .exhausted => .khive .sequenceExhausted
      | .conflict expected next => .khive (.seqConflict stream expected next)
    let applied ← (db.applyPlan reading plan).mapError fun _ ↦ .internal "stream append plan failed"
    let entered ← (applied.insertStreamEntry ⟨«namespace», stream⟩ next note.id).mapError .storage
    return (entered, heads.insert stream next, .appended next note.id note.createdAt)
  | .write key kind id plan => do
    let applied ← (db.applyPlan reading plan).mapError (writeFailure db «namespace» key kind id plan)
    let stored ← okOr (.internal "missing stream write timestamp")
      ((applied.notes.get id).filter fun note ↦ note.namespace == «namespace»)
    return (applied, heads, .written id stored.version)

/-- A failed unit names the member that earned it, if one did. -/
structure BatchFailure where
  member : Option ℕ
  error : RuntimeError
  deriving DecidableEq, Repr

/-- Member fences observe the transaction's initial state. -/
def checkMemberFences (db : Database) (reading : Reading) («namespace» : String)
    (members : List PreparedBatchMember) : Option BatchFailure :=
  members.findSome? fun member ↦
    match member.action with
    | .append _ _ _ _ fence =>
      (db.checkFences reading «namespace» fence).map fun conflict ↦
        ⟨some member.index, .khive (.noteConflict conflict)⟩
    | _ => none

/-- The members, in list order, with the heads read so far. -/
def applyStreamMembers (reading : Reading) («namespace» : String) :
    Database → OrderedMap String ℤ → List PreparedBatchMember →
      Except BatchFailure (Database × OrderedMap String ℤ × List MemberResult)
  | db, heads, [] => .ok (db, heads, [])
  | db, heads, member :: rest => do
    let (applied, heads, result) ← (applyStreamMember db reading «namespace» heads
      member.action).mapError fun error ↦ ⟨some member.index, error⟩
    let (last, heads, results) ← applyStreamMembers reading «namespace» applied heads rest
    return (last, heads, result :: results)

/-- `run_prepared_stream_batch`: one writer transaction. -/
def runPreparedStreamBatch (db : Database) (reading : Reading) («namespace» : String)
    (members : List PreparedBatchMember) (fence : Option NoteFence)
    (observed : List StreamObservation) : Except BatchFailure (Database × List MemberResult) :=
  match db.checkFences reading «namespace» (fence.map .one) with
  | some conflict => .error ⟨none, .khive (.noteConflict conflict)⟩
  | none =>
    match checkObserved db reading «namespace» observed with
    | some error => .error ⟨none, .khive error⟩
    | none =>
      match checkMemberFences db reading «namespace» members with
      | some failure => .error failure
      | none =>
        (applyStreamMembers reading «namespace» db .empty members).map fun (last, _, results) ↦
          (last, results)

end Khive.Streams
