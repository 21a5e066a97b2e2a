import Khive.Foundation.NumberedLog
import Khive.Streams.Read

/-!
# The ledger as numbered logs

The tables hold one log for each stream. `Holds` relates the ledger and the notes to these logs;
`Consistent` adds the floors and the bound on the heads. The head that the position query computes
from two tables is then the head of the log, whether or not any entry is left.

Every statement of a transaction is one step here: statements on notes keep all logs, an inserted
ledger row appends one entry, a truncation forgets a prefix.
-/

namespace Khive.Streams

/-- What a stream keeps of an appended note. -/
structure Entry where
  id : String
  content : String
  deriving DecidableEq, Repr

def Note.entry (note : Note) : Entry := ⟨note.id, note.content⟩

abbrev Logs := StreamKey → Log Entry

/-- The ledger and its notes are the entries of the logs. -/
structure Holds (db : Database) (logs : Logs) : Prop where
  held : ∀ row ∈ db.noteStreams.rows, ∃ note, db.notes.get row.noteId = some note ∧
    note.namespace = row.stream.namespace ∧ note.deletedAt = none ∧
      (logs row.stream).get? row.seq = some note.entry
  present : ∀ stream n, ((logs stream).get? n).isSome →
    ∃ row ∈ db.noteStreams.rows, row.stream = stream ∧ row.seq = n

structure Consistent (db : Database) (logs : Logs) : Prop extends Holds db logs where
  floor : ∀ stream, db.floorSeq stream = (logs stream).floor
  head_lt : ∀ stream, (logs stream).head < maxSeq

variable {db db' : Database} {logs : Logs} {stream : StreamKey}

theorem Consistent.empty : Consistent .empty fun _ ↦ .empty where
  held row hrow := absurd hrow List.not_mem_nil
  present stream n h := by simp at h
  floor _ := rfl
  head_lt _ := by decide

/-! ## Positions -/

namespace Holds

theorem mem_seqs (h : Holds db logs) {n : ℤ} :
    n ∈ (db.noteStreams.rows.filter fun row ↦ row.stream == stream).map LedgerRow.seq ↔
      (logs stream).floor ≤ n ∧ n ≤ (logs stream).head := by
  rw [← Log.isSome_get?, List.mem_map]
  constructor
  · rintro ⟨row, hrow, rfl⟩
    obtain ⟨hmem, hstream⟩ := List.mem_filter.mp hrow
    obtain ⟨note, -, -, -, hget⟩ := h.held row hmem
    rw [← eq_of_beq hstream, hget]
    rfl
  · intro hn
    obtain ⟨row, hmem, hstream, hseq⟩ := h.present stream n hn
    exact ⟨row, List.mem_filter.mpr ⟨hmem, beq_iff_eq.mpr hstream⟩, hseq⟩

theorem maxSeq?_eq (h : Holds db logs) :
    db.maxSeq? stream =
      if (logs stream).floor ≤ (logs stream).head then some (logs stream).head else none := by
  unfold Database.maxSeq?
  split
  · rename_i hle
    refine List.max?_eq_some_iff.mpr ⟨h.mem_seqs.mpr ⟨hle, le_rfl⟩, fun n hn ↦ ?_⟩
    exact (h.mem_seqs.mp hn).2
  · rename_i hlt
    rw [List.max?_eq_none_iff, List.eq_nil_iff_forall_not_mem]
    intro n hn
    have := h.mem_seqs.mp hn
    omega

end Holds

/-- The head recomputed from two tables is the head of the log. -/
theorem Consistent.headSeq (h : Consistent db logs) (stream : StreamKey) :
    db.headSeq stream = (logs stream).head := by
  have hfloor := h.floor stream
  have hpos := (logs stream).floor_pos
  have hle := (logs stream).floor_le_head_succ
  unfold Database.floorSeq at hfloor
  unfold Database.headSeq
  rw [h.toHolds.maxSeq?_eq]
  rcases hrow : db.floorSeq? stream with _ | floor
  · rw [hrow] at hfloor
    simp only [Option.getD_none] at hfloor
    split <;> simp only [Option.map_none, Option.getD_none, Option.getD_some] <;> omega
  · rw [hrow] at hfloor
    simp only [Option.getD_some] at hfloor
    split <;> simp only [Option.map_some, Option.getD_none, Option.getD_some] <;> omega

/-! ## Statements on notes -/

/-- A step that leaves the stream tables alone. -/
structure SameStreams (db db' : Database) : Prop where
  noteStreams : db'.noteStreams = db.noteStreams
  noteStreamFloors : db'.noteStreamFloors = db.noteStreamFloors
  noteStreamTruncations : db'.noteStreamTruncations = db.noteStreamTruncations

theorem SameStreams.refl (db : Database) : SameStreams db db := ⟨rfl, rfl, rfl⟩

theorem SameStreams.trans {db'' : Database} (h : SameStreams db db') (h' : SameStreams db' db'') :
    SameStreams db db'' where
  noteStreams := h'.noteStreams.trans h.noteStreams
  noteStreamFloors := h'.noteStreamFloors.trans h.noteStreamFloors
  noteStreamTruncations := h'.noteStreamTruncations.trans h.noteStreamTruncations

/-- A note that still stands for the entry it was appended as. -/
def Note.StandsFor (note' note : Note) : Prop :=
  note'.namespace = note.namespace ∧ note'.deletedAt = note.deletedAt ∧ note'.entry = note.entry

/-- Statements on notes keep what stands in a stream. -/
structure KeepsEntries (db db' : Database) : Prop extends SameStreams db db' where
  stands : ∀ row ∈ db.noteStreams.rows, ∀ note, db.notes.get row.noteId = some note →
    ∃ note', db'.notes.get row.noteId = some note' ∧ note'.StandsFor note

theorem KeepsEntries.refl (db : Database) : KeepsEntries db db where
  toSameStreams := .refl db
  stands _ _ note hnote := ⟨note, hnote, rfl, rfl, rfl⟩

theorem KeepsEntries.trans {db'' : Database} (h : KeepsEntries db db')
    (h' : KeepsEntries db' db'') : KeepsEntries db db'' where
  toSameStreams := h.toSameStreams.trans h'.toSameStreams
  stands row hrow note hnote := by
    obtain ⟨note', hnote', hns, hdeleted, hentry⟩ := h.stands row hrow note hnote
    obtain ⟨note'', hnote'', hns', hdeleted', hentry'⟩ :=
      h'.stands row (h.noteStreams ▸ hrow) note' hnote'
    exact ⟨note'', hnote'', hns'.trans hns, hdeleted'.trans hdeleted, hentry'.trans hentry⟩

theorem Holds.keeps (h : Holds db logs) (hkeeps : KeepsEntries db db') : Holds db' logs where
  held row hrow := by
    rw [hkeeps.noteStreams] at hrow
    obtain ⟨note, hnote, hns, hdeleted, hget⟩ := h.held row hrow
    obtain ⟨note', hnote', hns', hdeleted', hentry⟩ := hkeeps.stands row hrow note hnote
    exact ⟨note', hnote', hns'.trans hns, hdeleted'.trans hdeleted, by rw [hget, hentry]⟩
  present stream n hn := by
    rw [hkeeps.noteStreams]
    exact h.present stream n hn

theorem SameStreams.floorSeq (h : SameStreams db db') (stream : StreamKey) :
    db'.floorSeq stream = db.floorSeq stream := by
  rw [Database.floorSeq, Database.floorSeq?, h.noteStreamFloors]
  rfl

theorem Consistent.keeps (h : Consistent db logs) (hkeeps : KeepsEntries db db') :
    Consistent db' logs where
  toHolds := h.toHolds.keeps hkeeps
  floor stream := (hkeeps.floorSeq stream).trans (h.floor stream)
  head_lt := h.head_lt

namespace Database

theorem inStream_iff {id : String} :
    db.inStream id = true ↔ ∃ row ∈ db.noteStreams.rows, row.noteId = id := by
  simp only [inStream, List.any_eq_true, beq_iff_eq]

/-- A row may be replaced when no stream holds its note, or when it still stands for the entry. -/
theorem keepsEntries_of_rewriteNote {rewrites : Bool} {note : Note} {n : ℕ}
    (h : db.rewriteNote rewrites note = .ok (db', n))
    (hstands : rewrites = false → ∀ held, db.notes.get note.id = some held →
      db.inStream note.id = true → note.StandsFor held) : KeepsEntries db db' := by
  unfold rewriteNote at h
  split at h
  · cases h
  rename_i htrigger
  split at h
  · cases h
  cases h
  refine ⟨⟨rfl, rfl, rfl⟩, fun row hrow held hheld ↦ ?_⟩
  have hin : db.inStream row.noteId = true := inStream_iff.mpr ⟨row, hrow, rfl⟩
  show ∃ note', (db.notes.upsert note).get row.noteId = some note' ∧ _
  rw [Table.get_upsert]
  by_cases hid : row.noteId = note.id
  · rw [if_pos hid]
    rw [hid] at hin hheld
    have hkept : rewrites = false := by
      by_contra hrewrites
      exact htrigger (by simp [hin, hrewrites])
    exact ⟨note, rfl, hstands hkept held hheld hin⟩
  · rw [if_neg hid]
    exact ⟨held, hheld, rfl, rfl, rfl⟩

theorem id_of_get {id : String} {note : Note} (h : db.notes.get id = some note) : note.id = id :=
  Table.key_of_get h

/-- Every statement on notes keeps what stands in a stream. -/
theorem keepsEntries_of_execute (hdb : Holds db logs) {statement : Statement} {n : ℕ}
    (h : db.execute statement = .ok (db', n)) : KeepsEntries db db' := by
  -- a note that is not held is in no stream
  have hfresh : ∀ {id : String}, db.notes.get id = none → db.inStream id = true → False := by
    intro id hnone hin
    obtain ⟨row, hrow, rfl⟩ := inStream_iff.mp hin
    obtain ⟨note, hnote, -⟩ := hdb.held row hrow
    rw [hnone] at hnote
    cases hnote
  cases statement with
  | upsertNote note =>
    rw [execute] at h
    split at h
    · rename_i hnone
      exact keepsEntries_of_rewriteNote h fun _ _ _ hin ↦ absurd hin (hfresh hnone)
    · exact keepsEntries_of_rewriteNote h fun hfalse ↦ absurd hfalse (by simp)
  | insertKeyedNote note =>
    rw [execute] at h
    split at h
    · cases h
      exact .refl _
    split at h
    · cases h
    · rename_i hheld
      have hnone : db.notes.get note.id = none := by simpa using hheld
      exact keepsEntries_of_rewriteNote h fun _ _ _ hin ↦ absurd hin (hfresh hnone)
  | updateNote update =>
    rw [execute] at h
    split at h
    · cases h
      exact .refl _
    rename_i held hheld
    split at h
    · refine keepsEntries_of_rewriteNote h fun hkept held' hheld' _ ↦ ?_
      have hsame : held' = held := by
        have hid : (update.apply held).id = update.id := show held.id = _ from id_of_get hheld
        rw [hid, hheld] at hheld'
        exact (Option.some.inj hheld').symm
      simp only [NoteUpdate.rewrites, Bool.or_eq_false_iff, Option.isSome_eq_false_iff,
        Option.isNone_iff_eq_none] at hkept
      obtain ⟨⟨⟨⟨hcontent, -⟩, hdeleted⟩, hns⟩, -⟩ := hkept
      simp [hsame, Note.StandsFor, Note.entry, NoteUpdate.apply, hcontent, hdeleted, hns]
    · cases h
      exact .refl _
  | deleteNote ns id =>
    rw [execute] at h
    split at h
    · cases h
      exact .refl _
    split at h
    · cases h
      exact .refl _
    split at h
    · cases h
    rename_i hout
    cases h
    refine ⟨⟨rfl, rfl, rfl⟩, fun row hrow note hnote ↦ ⟨note, ?_, rfl, rfl, rfl⟩⟩
    show (db.notes.filter _).get row.noteId = some note
    rw [Table.get_filter, hnote, Option.filter_some, if_pos]
    have hid : note.id = row.noteId := id_of_get hnote
    simp only [bne_iff_ne, ne_eq]
    rintro rfl
    exact hout (inStream_iff.mpr ⟨row, hrow, hid.symm⟩)
  | auxiliary affected =>
    obtain ⟨count, -, hcount⟩ := map_eq_ok.mp h
    cases hcount
    exact .refl _

theorem keepsEntries_of_runStatements {guard : Option NoteWriteGuard} {index : ℕ}
    {statements : List PlanStatement} (hdb : Holds db logs)
    (h : db.runStatements guard index statements = .ok db') : KeepsEntries db db' := by
  induction statements generalizing db index with
  | nil =>
    cases h
    exact .refl _
  | cons planned rest ih =>
    rw [runStatements] at h
    obtain ⟨⟨after, affected⟩, hexecute, hrest⟩ := bind_eq_ok.mp h
    have hkeeps := keepsEntries_of_execute hdb (mapError_eq_ok.mp hexecute)
    dsimp only at hrest
    split at hrest
    · exact hkeeps.trans (ih (hdb.keeps hkeeps) hrest)
    · split at hrest <;> cases hrest

theorem keepsEntries_of_applyPlan {reading : Reading} {plan : Plan} (hdb : Holds db logs)
    (h : db.applyPlan reading plan = .ok db') : KeepsEntries db db' := by
  unfold applyPlan at h
  split at h
  · cases h
  · exact keepsEntries_of_runStatements hdb h

end Database

theorem keepsEntries_of_writeStatements {statements : List PlanStatement} (hdb : Holds db logs)
    (h : writeStatements db statements = .ok db') : KeepsEntries db db' := by
  induction statements generalizing db with
  | nil =>
    cases h
    exact .refl _
  | cons planned rest ih =>
    rw [writeStatements] at h
    obtain ⟨⟨after, affected⟩, hexecute, hrest⟩ := bind_eq_ok.mp h
    obtain ⟨-, hrest⟩ := seq_eq_ok.mp hrest
    have hkeeps := Database.keepsEntries_of_execute hdb hexecute
    exact hkeeps.trans (ih (hdb.keeps hkeeps) hrest)

/-! ## An inserted entry -/

/-- The logs after an entry was appended to a stream. -/
def Logs.append (logs : Logs) (stream : StreamKey) (entry : Entry) : Logs :=
  Function.update logs stream ((logs stream).append entry)

theorem Logs.append_self (logs : Logs) (stream : StreamKey) (entry : Entry) :
    logs.append stream entry stream = (logs stream).append entry := Function.update_self ..

theorem Logs.append_of_ne (logs : Logs) {stream other : StreamKey} (entry : Entry)
    (h : other ≠ stream) : logs.append stream entry other = logs other :=
  Function.update_of_ne h ..

/-- What an accepted ledger row says: its number is the next one, and its note becomes the entry. -/
theorem Consistent.insertStreamEntry (h : Consistent db logs) {seq : ℤ} {noteId : String}
    (hinsert : db.insertStreamEntry stream seq noteId = .ok db') :
    ∃ note, db.notes.get noteId = some note ∧ seq = (logs stream).head + 1 ∧
      Consistent db' (logs.append stream note.entry) := by
  unfold Database.insertStreamEntry at hinsert
  obtain ⟨hforeign, hinsert⟩ := seq_eq_ok.mp hinsert
  obtain ⟨-, hinsert⟩ := seq_eq_ok.mp hinsert
  obtain ⟨hgap, hinsert⟩ := seq_eq_ok.mp hinsert
  obtain ⟨-, hinsert⟩ := seq_eq_ok.mp hinsert
  obtain ⟨ledger, hledger, hdb'⟩ := bind_eq_ok.mp hinsert
  obtain rfl := pure_eq_ok.mp hdb'
  obtain ⟨note, hnote, hlive⟩ := Option.any_eq_true _ _ |>.mp (guardOr_eq_ok.mp hforeign)
  simp only [Bool.and_eq_true, beq_iff_eq, Option.isNone_iff_eq_none] at hlive
  have hgap := guardOr_eq_ok.mp hgap
  simp only [Bool.and_eq_true, bne_iff_ne, ne_eq, beq_iff_eq, h.headSeq stream] at hgap
  obtain ⟨hmax, rfl⟩ := hgap
  have hrows := (Table.insert_eq_some.mp (okOr_eq_ok.mp hledger)).2
  refine ⟨note, hnote, rfl, ⟨fun row hrow ↦ ?_, fun other n hn ↦ ?_⟩, fun other ↦ ?_,
    fun other ↦ ?_⟩
  · simp only [hrows, List.mem_append, List.mem_singleton] at hrow
    rcases hrow with hold | rfl
    · obtain ⟨held, hheld, hns, hdeleted, hget⟩ := h.held row hold
      refine ⟨held, hheld, hns, hdeleted, ?_⟩
      by_cases hstream : row.stream = stream
      · have hbound := (Log.bounds_of_get? hget).2
        rw [hstream] at hget hbound ⊢
        rw [Logs.append_self, Log.get?_append, if_neg (by omega), hget]
      · rw [Logs.append_of_ne _ _ hstream, hget]
    · refine ⟨note, hnote, hlive.1, hlive.2, ?_⟩
      show (logs.append stream note.entry stream).get? _ = _
      rw [Logs.append_self, Log.get?_append, if_pos rfl]
  · simp only [hrows, List.mem_append, List.mem_singleton]
    -- the one number that is new has the new row
    by_cases hnew : other = stream ∧ n = (logs stream).head + 1
    · exact ⟨_, .inr rfl, hnew.1.symm, hnew.2.symm⟩
    · have hold : ((logs other).get? n).isSome := by
        by_cases hother : other = stream
        · subst hother
          rw [Logs.append_self, Log.get?_append, if_neg fun hn' ↦ hnew ⟨rfl, hn'⟩] at hn
          exact hn
        · rwa [Logs.append_of_ne _ _ hother] at hn
      obtain ⟨row, hrow, hkey⟩ := h.present other n hold
      exact ⟨row, .inl hrow, hkey⟩
  · have hfloor := h.floor other
    by_cases hother : other = stream
    · subst hother
      rw [Logs.append_self, Log.floor_append]
      exact hfloor
    · rw [Logs.append_of_ne _ _ hother]
      exact hfloor
  · have hlt := h.head_lt other
    by_cases hother : other = stream
    · subst hother
      rw [Logs.append_self, Log.head_append]
      unfold maxSeq at hmax hlt ⊢
      omega
    · rw [Logs.append_of_ne _ _ hother]
      exact hlt

/-! ## A removed prefix -/

namespace Database

theorem keepsEntries_of_deleteNotes {ns : String} {notes : List Note} (hdb : Holds db logs)
    (h : deleteNotes ns db notes = .ok db') : KeepsEntries db db' := by
  induction notes generalizing db with
  | nil =>
    cases h
    exact .refl _
  | cons note rest ih =>
    rw [deleteNotes] at h
    obtain ⟨⟨after, affected⟩, hexecute, hrest⟩ := bind_eq_ok.mp h
    obtain ⟨-, hrest⟩ := seq_eq_ok.mp hrest
    have hkeeps := keepsEntries_of_execute hdb (mapError_eq_ok.mp hexecute)
    exact hkeeps.trans (ih (hdb.keeps hkeeps) hrest)

end Database

/-- What a permitted deletion leaves of the ledger. -/
theorem Database.deleteLedger_eq_ok {before : ℤ} {removed : ℕ}
    (h : db.deleteLedger stream before = .ok (db', removed)) :
    db'.notes = db.notes ∧ db'.noteStreamFloors = db.noteStreamFloors ∧
      ∀ row, row ∈ db'.noteStreams.rows ↔
        row ∈ db.noteStreams.rows ∧ ¬ (row.stream = stream ∧ row.seq < before) := by
  unfold deleteLedger at h
  dsimp only at h
  split at h
  · cases h
    refine ⟨rfl, rfl, fun row ↦ ?_⟩
    simp only [Table.filter, List.mem_filter, Bool.not_eq_true', Bool.and_eq_false_iff,
      beq_eq_false_iff_ne, decide_eq_false_iff_not, not_and_or, ne_eq]
  · cases h

/-- The logs after a stream was truncated. -/
def Logs.truncate (logs : Logs) (stream : StreamKey) (before : ℤ) : Logs :=
  Function.update logs stream ((logs stream).truncate before)

theorem Logs.truncate_self (logs : Logs) (stream : StreamKey) (before : ℤ) :
    logs.truncate stream before stream = (logs stream).truncate before := Function.update_self ..

theorem Logs.truncate_of_ne (logs : Logs) {stream other : StreamKey} (before : ℤ)
    (h : other ≠ stream) : logs.truncate stream before other = logs other :=
  Function.update_of_ne h ..

theorem Logs.later_truncate (logs : Logs) (stream : StreamKey) (before : ℤ) (other : StreamKey) :
    Log.Later (logs other) (logs.truncate stream before other) := by
  by_cases hother : other = stream
  · subst hother
    rw [Logs.truncate_self]
    exact Log.later_truncate _ _
  · rw [Logs.truncate_of_ne _ _ hother]
    exact .refl _

/-- The ledger without the rows below a bound holds the truncated logs. -/
theorem Holds.cut (h : Holds db logs) {before beforeSeq : ℤ}
    (hbefore : before = min beforeSeq ((logs stream).head + 1))
    (hnotes : db'.notes = db.notes)
    (hrows : ∀ row, row ∈ db'.noteStreams.rows ↔
      row ∈ db.noteStreams.rows ∧ ¬ (row.stream = stream ∧ row.seq < before)) :
    Holds db' (logs.truncate stream beforeSeq) where
  held row hrow := by
    obtain ⟨hrow, hkept⟩ := (hrows row).mp hrow
    obtain ⟨note, hnote, hns, hdeleted, hget⟩ := h.held row hrow
    refine ⟨note, hnotes ▸ hnote, hns, hdeleted, ?_⟩
    by_cases hstream : row.stream = stream
    · have hbound := (Log.bounds_of_get? hget).2
      rw [hstream] at hget hbound ⊢
      have hge : before ≤ row.seq := not_lt.mp fun hlt ↦ hkept ⟨hstream, hlt⟩
      rw [Logs.truncate_self, Log.get?_truncate, if_neg (by omega), hget]
    · rw [Logs.truncate_of_ne _ _ hstream, hget]
  present other n hn := by
    by_cases hother : other = stream
    · subst hother
      rw [Logs.truncate_self, Log.get?_truncate] at hn
      split at hn
      · simp at hn
      rename_i hge
      obtain ⟨row, hrow, hstream, rfl⟩ := h.present other n hn
      exact ⟨row, (hrows row).mpr ⟨hrow, fun hcut ↦ by omega⟩, hstream, rfl⟩
    · rw [Logs.truncate_of_ne _ _ hother] at hn
      obtain ⟨row, hrow, hstream, hseq⟩ := h.present other n hn
      exact ⟨row, (hrows row).mpr ⟨hrow, fun hcut ↦ hother (hstream ▸ hcut.1)⟩, hstream, hseq⟩

/-- What a truncation that writes leaves: the prefix is gone and the bound is the floor. -/
theorem Consistent.truncateBelow (h : Consistent db logs) {before beforeSeq : ℤ} {removed : ℕ}
    (hbefore : before = min beforeSeq ((logs stream).head + 1))
    (hfloor : (logs stream).floor < before)
    (hrun : Streams.truncateBelow db stream before = .ok (db', removed)) :
    Consistent db' (logs.truncate stream beforeSeq) := by
  unfold Streams.truncateBelow at hrun
  obtain ⟨permits, -, hrun⟩ := bind_eq_ok.mp hrun
  obtain ⟨⟨cut, count⟩, hcut, hrun⟩ := bind_eq_ok.mp hrun
  obtain ⟨-, hrun⟩ := seq_eq_ok.mp hrun
  obtain ⟨purged, hpurged, hrun⟩ := bind_eq_ok.mp hrun
  obtain ⟨rfl, -⟩ := Prod.mk.inj (pure_eq_ok.mp hrun)
  obtain ⟨hnotes, hfloors, hrows⟩ := Database.deleteLedger_eq_ok (mapError_eq_ok.mp hcut)
  have hholds := h.toHolds.cut hbefore hnotes hrows
  have hkeeps := Database.keepsEntries_of_deleteNotes hholds hpurged
  have hpurgedHolds := hholds.keeps hkeeps
  refine ⟨⟨hpurgedHolds.held, hpurgedHolds.present⟩, fun other ↦ ?_, fun other ↦ ?_⟩
  · have hold := h.floor other
    unfold Database.floorSeq Database.floorSeq? at hold ⊢
    dsimp only
    rw [Table.get_upsert]
    by_cases hother : other = stream
    · subst hother
      rw [if_pos rfl, Logs.truncate_self, Log.floor_truncate]
      simp only [Option.map_some, Option.getD_some]
      omega
    · rw [if_neg hother, Logs.truncate_of_ne _ _ hother, ← hold, hkeeps.noteStreamFloors, hfloors]
  · have hlt := h.head_lt other
    by_cases hother : other = stream
    · subst hother
      rw [Logs.truncate_self, Log.head_truncate]
      exact hlt
    · rw [Logs.truncate_of_ne _ _ hother]
      exact hlt

theorem Consistent.streamTruncate (h : Consistent db logs) {ns name : String} {beforeSeq : ℤ}
    {answer : Truncated} (hrun : Streams.streamTruncate db ns name beforeSeq = .ok (db', answer)) :
    Consistent db' (logs.truncate ⟨ns, name⟩ beforeSeq) := by
  unfold Streams.streamTruncate at hrun
  obtain ⟨-, hrun⟩ := seq_eq_ok.mp hrun
  obtain ⟨-, hrun⟩ := seq_eq_ok.mp hrun
  rw [h.headSeq, h.floor] at hrun
  dsimp only at hrun
  split at hrun
  · rename_i hle
    obtain ⟨rfl, -⟩ := Prod.mk.inj (pure_eq_ok.mp hrun)
    -- the clipped bound is at the floor or below it: nothing is forgotten
    have hsame : logs.truncate ⟨ns, name⟩ beforeSeq = logs := by
      refine (congrArg (Function.update logs _) ?_).trans (Function.update_eq_self ..)
      unfold Log.truncate
      rw [show (min beforeSeq ((logs ⟨ns, name⟩).head + 1) - (logs ⟨ns, name⟩).floor).toNat = 0
        from by omega]
      rfl
    rwa [hsame]
  · rename_i hlt
    obtain ⟨⟨after, removed⟩, hbelow, hpair⟩ := map_eq_ok.mp hrun
    obtain ⟨rfl, -⟩ := Prod.mk.inj hpair
    exact h.truncateBelow rfl (not_le.mp hlt) hbelow

end Khive.Streams
