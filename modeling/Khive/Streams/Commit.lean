import Khive.Streams.Ledger

/-!
# Runs of stream transactions

A writer transaction commits whole or leaves the tables as they were. `unit` is one of them: a
single append, a batch in atomic mode, one member of a batch in per-member mode, a truncation, or
any other transaction on notes. Writers take turns in any order, so a run is a list of units. What
a run has given out is the list of numbers its appends were answered, in order.

`Entered` is the effect of a unit's appends on the logs: each takes the number after the head of
its stream, as that head stands when its turn comes.
-/

namespace Khive.Streams

variable {ν : Type}

/-- A number given to an append, with the record and the text that was stored for it. -/
structure Given (ν : Type) where
  stream : StreamKey
  seq : ℤ
  id : String
  content : String
  record : Json ν

def Given.entry (given : Given ν) : Entry := ⟨given.id, given.content⟩

/-! ## One unit -/

inductive Request (ν : Type)
  | append (spec : StreamAppendSpec ν) (draw : Draw)
  | batch (members : List (StreamBatchMember ν)) (fence : Option NoteFence)
      (observed : List StreamObservation)
  | member (index : ℕ) (member : StreamBatchMember ν)
  | truncate (stream : String) (beforeSeq : ℤ)
  | notes (statements : List Statement)

/-- A batch in per-member mode: one transaction for each member, in list order. Transactions of
others may come between them. -/
def perMember (members : List (StreamBatchMember ν)) : List (Request ν) :=
  members.zipIdx.map fun (member, index) ↦ .member index member

/-- The error a stopped allocation answers. -/
def outcomeError (append : PreparedAppend) : BatchOutcome → RuntimeError
  | .appended _ => .internal "invalid stream append outcome"
  | .exhausted => .khive .sequenceExhausted
  | .conflict next => .khive (.seqConflict append.stream (append.expectedSeq.getD 0) next)
  | .fenceConflict conflict => .khive (.noteConflict conflict)

/-- `stream_append`, its transaction included. -/
def streamAppend (text : JsonText ν) (hooks : String → Option (KindHook ν)) (reading : Reading)
    («namespace» : String) (db : Database) (spec : StreamAppendSpec ν) (draw : Draw) :
    Database × Except RuntimeError (List (Given ν)) :=
  match prepareStreamAppend text hooks «namespace» spec draw with
  | .error error => (db, .error error)
  | .ok append =>
    match runStreamAppends db reading «namespace» [append] with
    | .error failure => (db, .error (.storage failure))
    | .ok (after, .appended seqs) =>
      (after, .ok (seqs.map fun seq ↦
        ⟨⟨«namespace», append.stream⟩, seq, append.note.id, append.note.content, spec.record⟩))
    | .ok (after, outcome) => (after, .error (outcomeError append outcome))

/-- Numbers that the members of a batch were given. -/
def givenByMembers (text : JsonText ν) («namespace» : String)
    (results : List (StreamBatchMember ν × MemberResult)) : List (Given ν) :=
  results.filterMap fun
    | (.append spec _, .appended seq id _) =>
      some ⟨⟨«namespace», spec.stream⟩, seq, id, text.print spec.record, spec.record⟩
    | _ => none

def StreamBatchMember.refusal : StreamBatchMember ν → Option KhiveError
  | .refused error => some error
  | _ => none

/-- The shape of a batch: it has members, its streams are named well, and no key is written
twice. -/
def validateStreamBatch (members : List (StreamBatchMember ν)) : Except RuntimeError Unit := do
  guardOr (.invalidInput "stream.batch requires at least one member") (!members.isEmpty)
  members.forM fun
    | .append spec _ => do
      spec.validateEmbedding
      validateStream spec.stream
    | _ => .ok ()
  guardOr (.invalidInput "stream.batch repeats write key") <| decide
    (members.filterMap fun
      | .write key kind _ _ => some (kind, key)
      | _ => none).Nodup

/-- A transaction over members: `stream_batch_atomic`, or one round of
`stream_batch_per_member`. -/
def streamBatch (text : JsonText ν) (reading : Reading) («namespace» : String) (db : Database)
    (members : List (StreamBatchMember ν)) (fence : Option NoteFence)
    (observed : List StreamObservation) : Database × Except RuntimeError (List (Given ν)) :=
  match validateStreamBatch members with
  | .error error => (db, .error error)
  | .ok () =>
    match members.findSome? StreamBatchMember.refusal with
    | some error => (db, .error (.khive error))
    | none =>
      match runPreparedStreamBatch db reading «namespace» (prepareStreamBatch text «namespace» members)
          fence observed with
      | .error failure => (db, .error failure.error)
      | .ok (after, results) => (after, .ok (givenByMembers text «namespace» (members.zip results)))

/-- A transaction of another command on notes. -/
def runNotes (db : Database) : List Statement → Except StorageError Database
  | [] => .ok db
  | statement :: rest => do
    let (after, _) ← db.execute statement
    runNotes after rest

/-- One writer transaction: the tables after it, and what it answers. -/
def unit (text : JsonText ν) (hooks : String → Option (KindHook ν)) (reading : Reading)
    («namespace» : String) (db : Database) :
    Request ν → Database × Except RuntimeError (List (Given ν))
  | .append spec draw => streamAppend text hooks reading «namespace» db spec draw
  | .batch members fence observed => streamBatch text reading «namespace» db members fence observed
  | .member _ member => streamBatch text reading «namespace» db [member] none []
  | .truncate stream beforeSeq =>
    match streamTruncate db «namespace» stream beforeSeq with
    | .error error => (db, .error error)
    | .ok (after, _) => (after, .ok [])
  | .notes statements =>
    match runNotes db statements with
    | .error failure => (db, .error (.storage failure))
    | .ok after => (after, .ok [])

/-! ## What a unit's appends do to the logs -/

inductive Entered : Logs → List (Given ν) → Logs → Prop
  | nil (logs : Logs) : Entered logs [] logs
  | cons {logs logs' : Logs} {rest : List (Given ν)} (given : Given ν)
      (hseq : given.seq = (logs given.stream).head + 1)
      (hrest : Entered (logs.append given.stream given.entry) rest logs') :
      Entered logs (given :: rest) logs'

/-- `count` numbers from `start` on. -/
def consecutive (start : ℤ) : ℕ → List ℤ
  | 0 => []
  | count + 1 => start :: consecutive (start + 1) count

theorem mem_consecutive {start n : ℤ} {count : ℕ} :
    n ∈ consecutive start count ↔ start ≤ n ∧ n < start + count := by
  induction count generalizing start with
  | zero => simp only [consecutive, List.not_mem_nil, false_iff]; omega
  | succ count ih =>
    rw [consecutive, List.mem_cons, ih]
    omega

theorem nodup_consecutive (start : ℤ) (count : ℕ) : (consecutive start count).Nodup := by
  induction count generalizing start with
  | zero => exact List.nodup_nil
  | succ count ih =>
    refine List.nodup_cons.mpr ⟨fun hmem ↦ ?_, ih _⟩
    have := (mem_consecutive.mp hmem).1
    omega

theorem consecutive_append (start : ℤ) (m n : ℕ) :
    consecutive start m ++ consecutive (start + m) n = consecutive start (m + n) := by
  induction m generalizing start with
  | zero => simp [consecutive]
  | succ m ih =>
    rw [consecutive, List.cons_append, Nat.add_right_comm, consecutive, ← ih,
      show start + ((m + 1 : ℕ) : ℤ) = start + 1 + m from by push_cast; ring]

/-- The numbers given on one stream, in order. -/
def seqsOn (stream : StreamKey) (given : List (Given ν)) : List ℤ :=
  (given.filter fun g ↦ g.stream == stream).map Given.seq

theorem seqsOn_append (stream : StreamKey) (gs gs' : List (Given ν)) :
    seqsOn stream (gs ++ gs') = seqsOn stream gs ++ seqsOn stream gs' := by
  simp [seqsOn]

namespace Entered

variable {logs logs' logs'' : Logs} {gs gs' : List (Given ν)}

theorem append (h : Entered logs gs logs') (h' : Entered logs' gs' logs'') :
    Entered logs (gs ++ gs') logs'' := by
  induction h with
  | nil _ => exact h'
  | cons given hseq _ ih => exact .cons given hseq (ih h')

theorem later (h : Entered logs gs logs') (stream : StreamKey) :
    Log.Later (logs stream) (logs' stream) := by
  induction h with
  | nil _ => exact .refl _
  | @cons logs logs' rest given hseq _ ih =>
    refine Log.Later.trans ?_ ih
    by_cases hstream : stream = given.stream
    · subst hstream
      rw [Logs.append_self]
      exact Log.later_append _ _
    · rw [Logs.append_of_ne _ _ hstream]
      exact .refl _

/-- **Consecutive numbers.** The appends to one stream take the numbers after its head, in list
order, and the head moves by their count. -/
theorem seqsOn_eq (h : Entered logs gs logs') (stream : StreamKey) :
    seqsOn stream gs = consecutive ((logs stream).head + 1) (seqsOn stream gs).length ∧
      (logs' stream).head = (logs stream).head + (seqsOn stream gs).length := by
  induction h with
  | nil logs => exact ⟨rfl, (add_zero _).symm⟩
  | @cons logs logs' rest given hseq _ ih =>
    obtain ⟨hseqs, hhead⟩ := ih
    by_cases hstream : given.stream = stream
    · subst hstream
      rw [Logs.append_self, Log.head_append] at hseqs hhead
      have hcons : seqsOn given.stream (given :: rest) = given.seq :: seqsOn given.stream rest := by
        simp [seqsOn]
      rw [← hseq] at hseqs
      rw [hcons, List.length_cons, consecutive, ← hseq]
      exact ⟨congrArg _ hseqs, by rw [hhead]; push_cast; ring⟩
    · have hskip : seqsOn stream (given :: rest) = seqsOn stream rest := by
        simp [seqsOn, hstream]
      rw [Logs.append_of_ne _ _ (Ne.symm hstream)] at hseqs hhead
      rw [hskip]
      exact ⟨hseqs, hhead⟩

/-- An entry of the logs after was there before, or is one of those given. -/
theorem get?_cases (h : Entered logs gs logs') {stream : StreamKey} {n : ℤ} {entry : Entry}
    (hget : (logs' stream).get? n = some entry) :
    (logs stream).get? n = some entry ∨
      ∃ given ∈ gs, given.stream = stream ∧ given.seq = n ∧ given.entry = entry := by
  induction h with
  | nil _ => exact .inl hget
  | @cons logs logs' rest given hseq _ ih =>
    rcases ih hget with hold | ⟨g, hg, hrest⟩
    · by_cases hstream : stream = given.stream
      · subst hstream
        rw [Logs.append_self, Log.get?_append] at hold
        split at hold
        · rename_i hn
          exact .inr ⟨given, List.mem_cons_self, rfl, hseq.trans hn.symm, Option.some.inj hold⟩
        · exact .inl hold
      · rw [Logs.append_of_ne _ _ hstream] at hold
        exact .inl hold
    · exact .inr ⟨g, List.mem_cons_of_mem _ hg, hrest⟩

end Entered

/-! ## The text of a new note -/

section Text

variable {db db' : Database} {note : Note} {indexes : List (Except StorageError ℕ)}

/-- A note written by its statements stands under its id with its text. -/
def Stored (db : Database) (note : Note) : Prop :=
  ∃ held, db.notes.get note.id = some held ∧ held.entry = note.entry

theorem stored_of_upsertNote {n : ℕ} (h : db.execute (.upsertNote note) = .ok (db', n)) :
    Stored db' note := by
  have hrewrite : ∀ {rewrites : Bool} {held : Note}, db.rewriteNote rewrites held = .ok (db', n) →
      held.entry = note.entry → Stored db' note := by
    intro rewrites held hrun hentry
    unfold Database.rewriteNote at hrun
    split at hrun
    · cases hrun
    split at hrun
    · cases hrun
    cases hrun
    have hid : held.id = note.id := congrArg Entry.id hentry
    refine ⟨held, ?_, hentry⟩
    show (db.notes.upsert held).get note.id = some held
    rw [Table.get_upsert, if_pos hid.symm]
  rw [Database.execute] at h
  split at h
  · exact hrewrite h rfl
  · exact hrewrite h rfl

theorem writeStatements_auxiliary
    (h : writeStatements db (indexes.map fun affected ↦ ⟨.auxiliary affected, none⟩) = .ok db') :
    db' = db := by
  induction indexes with
  | nil => exact (Except.ok.inj h).symm
  | cons affected rest ih =>
    rw [List.map_cons, writeStatements] at h
    obtain ⟨⟨after, n⟩, hexecute, hrest⟩ := bind_eq_ok.mp h
    obtain ⟨-, hrest⟩ := seq_eq_ok.mp hrest
    obtain ⟨count, -, hpair⟩ := map_eq_ok.mp hexecute
    cases hpair
    exact ih hrest

theorem stored_of_writeStatements (h : writeStatements db (noteStatements note indexes) = .ok db') :
    Stored db' note := by
  rw [noteStatements, writeStatements] at h
  obtain ⟨⟨after, n⟩, hexecute, hrest⟩ := bind_eq_ok.mp h
  obtain ⟨-, hrest⟩ := seq_eq_ok.mp hrest
  rw [writeStatements_auxiliary hrest]
  exact stored_of_upsertNote hexecute

theorem runStatements_auxiliary {guard : Option NoteWriteGuard} {index : ℕ}
    (h : db.runStatements guard index
      (indexes.map fun affected ↦ ⟨.auxiliary affected, none⟩) = .ok db') : db' = db := by
  induction indexes generalizing index with
  | nil => exact (Except.ok.inj h).symm
  | cons affected rest ih =>
    rw [List.map_cons, Database.runStatements] at h
    obtain ⟨⟨after, n⟩, hexecute, hrest⟩ := bind_eq_ok.mp h
    obtain ⟨count, -, hpair⟩ := map_eq_ok.mp (mapError_eq_ok.mp hexecute)
    cases hpair
    exact ih hrest

theorem stored_of_applyPlan {reading : Reading} {guard : Option NoteWriteGuard}
    (h : db.applyPlan reading ⟨noteStatements note indexes, guard⟩ = .ok db') :
    Stored db' note := by
  unfold Database.applyPlan at h
  split at h
  · cases h
  dsimp only at h
  rw [noteStatements, Database.runStatements] at h
  obtain ⟨⟨after, n⟩, hexecute, hrest⟩ := bind_eq_ok.mp h
  dsimp only at hrest
  split at hrest
  · rw [runStatements_auxiliary hrest]
    exact stored_of_upsertNote (mapError_eq_ok.mp hexecute)
  · split at hrest <;> cases hrest

end Text

/-! ## What each path enters -/

section Paths

variable {db db' : Database} {logs : Logs} {reading : Reading} {ns : String}

/-- A ledger row for a stored note enters that note's text. -/
theorem Consistent.enter (h : Consistent db logs) {stream : StreamKey} {seq : ℤ} {note : Note}
    (hstored : Stored db note) (hinsert : db.insertStreamEntry stream seq note.id = .ok db') :
    seq = (logs stream).head + 1 ∧ Consistent db' (logs.append stream note.entry) := by
  obtain ⟨held, hheld, hseq, hafter⟩ := h.insertStreamEntry hinsert
  obtain ⟨stored, hget, hentry⟩ := hstored
  rw [hget] at hheld
  obtain rfl := Option.some.inj hheld
  exact ⟨hseq, hentry ▸ hafter⟩

/-- The numbers a list of prepared appends was given. -/
def givenTo (ns : String) (record : Json ν) (pairs : List (PreparedAppend × ℤ)) : List (Given ν) :=
  pairs.map fun (append, seq) ↦
    ⟨⟨ns, append.stream⟩, seq, append.note.id, append.note.content, record⟩

theorem Consistent.writeAppends (h : Consistent db logs) {pairs : List (PreparedAppend × ℤ)}
    (hnotes : ∀ pair ∈ pairs, ∃ indexes, pair.1.statements = noteStatements pair.1.note indexes)
    (record : Json ν) (hrun : Streams.writeAppends ns db pairs = .ok db') :
    ∃ logs', Consistent db' logs' ∧ Entered logs (givenTo ns record pairs) logs' := by
  induction pairs generalizing db logs with
  | nil =>
    cases hrun
    exact ⟨logs, h, .nil logs⟩
  | cons pair rest ih =>
    obtain ⟨append, seq⟩ := pair
    rw [Streams.writeAppends] at hrun
    obtain ⟨written, hwritten, hrun⟩ := bind_eq_ok.mp hrun
    obtain ⟨entered, hentered, hrun⟩ := bind_eq_ok.mp hrun
    obtain ⟨indexes, hstatements⟩ := hnotes _ List.mem_cons_self
    have hkeeps := h.keeps (keepsEntries_of_writeStatements h.toHolds hwritten)
    dsimp only at hstatements
    rw [hstatements] at hwritten
    obtain ⟨hseq, hafter⟩ := hkeeps.enter (stored_of_writeStatements hwritten) hentered
    obtain ⟨logs', hlogs', hrest⟩ := ih hafter (fun pair hpair ↦ hnotes pair (.tail _ hpair)) hrun
    exact ⟨logs', hlogs', .cons ⟨⟨ns, append.stream⟩, seq, append.note.id, append.note.content,
      record⟩ hseq hrest⟩

theorem prepareStreamAppend_eq_ok {text : JsonText ν} {hooks : String → Option (KindHook ν)}
    {spec : StreamAppendSpec ν} {draw : Draw} {append : PreparedAppend}
    (h : prepareStreamAppend text hooks ns spec draw = .ok append) :
    append.statements = noteStatements append.note draw.indexes ∧
      prepareContent text hooks ns spec = .ok append.note.content := by
  unfold prepareStreamAppend at h
  obtain ⟨-, h⟩ := seq_eq_ok.mp h
  obtain ⟨-, h⟩ := seq_eq_ok.mp h
  obtain ⟨content, hcontent, h⟩ := bind_eq_ok.mp h
  obtain rfl := pure_eq_ok.mp h
  exact ⟨rfl, hcontent⟩

/-- The heads a batch keeps are the heads its next members will find. -/
def CachedHeads (logs : Logs) (ns : String) (heads : OrderedMap String ℤ) : Prop :=
  ∀ stream head, heads.get stream = some head → head = (logs ⟨ns, stream⟩).head

theorem CachedHeads.empty : CachedHeads logs ns .empty := fun _ _ h ↦ absurd h (by simp [OrderedMap.get, OrderedMap.empty])

theorem CachedHeads.insert {heads : OrderedMap String ℤ} (h : CachedHeads logs ns heads)
    (stream : String) (entry : Entry) :
    CachedHeads (logs.append ⟨ns, stream⟩ entry) ns
      (heads.insert stream ((logs ⟨ns, stream⟩).head + 1)) := by
  intro other head hget
  rw [OrderedMap.get_insert] at hget
  by_cases hother : other = stream
  · subst hother
    rw [if_pos rfl] at hget
    rw [Logs.append_self, Log.head_append]
    exact (Option.some.inj hget).symm
  · rw [if_neg hother] at hget
    rw [Logs.append_of_ne _ _ fun hkey ↦ hother (StreamKey.mk.inj hkey).2]
    exact h other head hget

/-- Whether cached or read now, the head a member counts from is that of the ledger. -/
theorem CachedHeads.getD {heads : OrderedMap String ℤ} (hheads : CachedHeads logs ns heads)
    (h : Consistent db logs) (stream : String) :
    (heads.get stream).getD (db.headSeq ⟨ns, stream⟩) = db.headSeq ⟨ns, stream⟩ := by
  rcases hget : heads.get stream with _ | head
  · rfl
  · rw [Option.getD_some, hheads stream head hget, h.headSeq]

theorem Consistent.applyStreamMember (h : Consistent db logs) {text : JsonText ν}
    {heads heads' : OrderedMap String ℤ} {member : StreamBatchMember ν} {result : MemberResult}
    (hheads : CachedHeads logs ns heads)
    (hrun : Streams.applyStreamMember db reading ns heads (prepareAction text ns member) =
      .ok (db', heads', result)) :
    ∃ logs', Consistent db' logs' ∧ CachedHeads logs' ns heads' ∧
      Entered logs (givenByMembers text ns [(member, result)]) logs' := by
  cases member with
  | refused error =>
    rw [prepareAction, Streams.applyStreamMember] at hrun
    cases hrun
  | append spec draw =>
    rw [prepareAction, Streams.applyStreamMember] at hrun
    obtain ⟨next, -, hrun⟩ := bind_eq_ok.mp hrun
    obtain ⟨applied, happlied, hrun⟩ := bind_eq_ok.mp hrun
    obtain ⟨entered, hentered, hrun⟩ := bind_eq_ok.mp hrun
    have hanswer := pure_eq_ok.mp hrun
    have happlied := mapError_eq_ok.mp happlied
    have hkeeps := h.keeps (Database.keepsEntries_of_applyPlan h.toHolds happlied)
    obtain ⟨hseq, hafter⟩ :=
      hkeeps.enter (stored_of_applyPlan happlied) (mapError_eq_ok.mp hentered)
    obtain ⟨hdb, hresult⟩ := Prod.mk.inj hanswer
    obtain rfl := hdb
    obtain ⟨rfl, rfl⟩ := Prod.mk.inj hresult
    refine ⟨_, hafter, hseq ▸ hheads.insert _ _, ?_⟩
    exact .cons ⟨⟨ns, spec.stream⟩, next, draw.id, text.print spec.record, spec.record⟩ hseq (.nil _)
  | write key kind id plan =>
    rw [prepareAction, Streams.applyStreamMember] at hrun
    obtain ⟨applied, happlied, hrun⟩ := bind_eq_ok.mp hrun
    obtain ⟨stored, -, hrun⟩ := bind_eq_ok.mp hrun
    obtain ⟨hdb, hresult⟩ := Prod.mk.inj (pure_eq_ok.mp hrun)
    obtain rfl := hdb
    obtain ⟨rfl, rfl⟩ := Prod.mk.inj hresult
    refine ⟨logs, ?_, hheads, .nil logs⟩
    exact h.keeps (Database.keepsEntries_of_applyPlan h.toHolds (mapError_eq_ok.mp happlied))

theorem Consistent.applyStreamMembers (h : Consistent db logs) {text : JsonText ν} {start : ℕ}
    {heads heads' : OrderedMap String ℤ} {members : List (StreamBatchMember ν)}
    {results : List MemberResult} (hheads : CachedHeads logs ns heads)
    (hrun : Streams.applyStreamMembers reading ns db heads
      ((members.zipIdx start).map fun (member, index) ↦ ⟨index, prepareAction text ns member⟩) =
        .ok (db', heads', results)) :
    ∃ logs', Consistent db' logs' ∧ CachedHeads logs' ns heads' ∧
      Entered logs (givenByMembers text ns (members.zip results)) logs' := by
  induction members generalizing db logs heads start results with
  | nil =>
    cases hrun
    exact ⟨logs, h, hheads, .nil logs⟩
  | cons member rest ih =>
    rw [List.zipIdx_cons, List.map_cons, Streams.applyStreamMembers] at hrun
    obtain ⟨⟨applied, heads₁, result⟩, happlied, hrun⟩ := bind_eq_ok.mp hrun
    obtain ⟨⟨last, heads₂, results'⟩, hrest, hrun⟩ := bind_eq_ok.mp hrun
    obtain ⟨hlast, hresults⟩ := Prod.mk.inj (pure_eq_ok.mp hrun)
    obtain rfl := hlast
    obtain ⟨rfl, rfl⟩ := Prod.mk.inj hresults
    obtain ⟨logs₁, hlogs₁, hheads₁, hentered⟩ :=
      h.applyStreamMember hheads (mapError_eq_ok.mp happlied)
    obtain ⟨logs', hlogs', hheads', hentered'⟩ := ih hlogs₁ hheads₁ hrest
    refine ⟨logs', hlogs', hheads', ?_⟩
    have hsplit : givenByMembers text ns ((member :: rest).zip (result :: results')) =
        givenByMembers text ns [(member, result)] ++
          givenByMembers text ns (rest.zip results') := by
      rw [List.zip_cons_cons, ← List.singleton_append, givenByMembers, List.filterMap_append]
      rfl
    rw [hsplit]
    exact hentered.append hentered'

theorem Consistent.runNotes (h : Consistent db logs) {statements : List Statement}
    (hrun : Streams.runNotes db statements = .ok db') : Consistent db' logs := by
  induction statements generalizing db with
  | nil =>
    cases hrun
    exact h
  | cons statement rest ih =>
    rw [Streams.runNotes] at hrun
    obtain ⟨⟨after, n⟩, hexecute, hrest⟩ := bind_eq_ok.mp hrun
    exact ih (h.keeps (Database.keepsEntries_of_execute h.toHolds hexecute)) hrest

end Paths

end Khive.Streams
