import Khive.Streams.Commit

/-!
# Stream numbers are dense and never reused

In every run of writer transactions from empty tables, the ledger of a stream holds exactly the
numbers from its floor to its head. The invariant behind it is that the tables are those of a
family of logs, and that the numbers given on a stream so far are `1`, `2`, … up to the head of its
log: truncation moves the floor, and no step takes a number back.
-/

namespace Khive.Streams

variable {ν : Type} {text : JsonText ν} {hooks : String → Option (KindHook ν)}
  {P : String → Request ν → Prop} {db db' : Database} {logs : Logs} {reading : Reading} {ns : String}

/-! ## One unit -/

/-- What a unit did to the logs, and what it answered. -/
inductive Outcome (db db' : Database) (logs : Logs) : Except RuntimeError (List (Given ν)) → Prop
  | refused (error : RuntimeError) (h : db' = db) : Outcome db db' logs (.error error)
  | entered (gs : List (Given ν)) (logs' : Logs) (hlogs : Consistent db' logs')
      (h : Entered logs gs logs') : Outcome db db' logs (.ok gs)
  | truncated (stream : StreamKey) (before : ℤ)
      (hlogs : Consistent db' (logs.truncate stream before)) : Outcome db db' logs (.ok [])

theorem assignSequences_cons {heads : OrderedMap String ℤ} {append : PreparedAppend}
    {rest : List PreparedAppend} {seqs : List ℤ} :
    assignSequences db reading ns heads (append :: rest) = .ok seqs ↔
      db.checkFences reading ns append.fence = none ∧
        ∃ head next later, heads.get append.stream = some head ∧
          allocateSequence head append.expectedSeq = .ok next ∧
            assignSequences db reading ns (heads.insert append.stream next) rest = .ok later ∧
              seqs = next :: later := by
  rw [assignSequences]
  rcases db.checkFences reading ns append.fence with _ | conflict
  swap
  · simp
  rcases heads.get append.stream with _ | head
  · simp
  rcases hallocate : allocateSequence head append.expectedSeq with (_ | ⟨expected, next⟩) | next
  · simp [hallocate]
  · simp [hallocate]
  · simp only [hallocate]
    rw [bind_eq_ok]
    constructor
    · rintro ⟨later, hlater, hpure⟩
      exact ⟨trivial, head, next, later, rfl, hallocate, hlater, (pure_eq_ok.mp hpure).symm⟩
    · rintro ⟨-, head', next', later, hhead, hnext, hlater, rfl⟩
      cases hhead
      cases hallocate.symm.trans hnext
      exact ⟨later, hlater, rfl⟩

theorem assignSequences_length {heads : OrderedMap String ℤ} {appends : List PreparedAppend}
    {seqs : List ℤ} (h : assignSequences db reading ns heads appends = .ok seqs) :
    seqs.length = appends.length := by
  induction appends generalizing heads seqs with
  | nil =>
    cases h
    rfl
  | cons append rest ih =>
    obtain ⟨-, head, next, later, -, -, hlater, rfl⟩ := assignSequences_cons.mp h
    rw [List.length_cons, List.length_cons, ih hlater]

theorem outcome_streamAppend (h : Consistent db logs) {spec : StreamAppendSpec ν} {draw : Draw} :
    Outcome db (streamAppend text hooks reading ns db spec draw).1 logs
      (streamAppend text hooks reading ns db spec draw).2 := by
  unfold streamAppend
  rcases hprepare : prepareStreamAppend text hooks ns spec draw with error | append
  · exact .refused error rfl
  dsimp only
  have hnotes := (prepareStreamAppend_eq_ok hprepare).1
  unfold runStreamAppends
  rcases hassign : assignSequences db reading ns (readHeads db ns [append]) [append] with
    (failure | outcome) | seqs
  · exact .refused _ rfl
  · -- a refusal found before the first write commits the tables as they were
    dsimp only
    cases outcome with
    | appended seqs =>
      refine absurd hassign ?_
      rw [assignSequences]
      split
      · simp
      split
      · simp
      split
      · simp
      · simp
      · rw [assignSequences]
        exact fun hok ↦ absurd hok (by simp [bind, Except.bind, pure, Except.pure])
    | exhausted => exact .refused _ rfl
    | conflict next => exact .refused _ rfl
    | fenceConflict conflict => exact .refused _ rfl
  · dsimp only
    rcases hwrite : writeAppends ns db ([append].zip seqs) with failure | written
    · exact .refused _ rfl
    · have hlength := assignSequences_length hassign
      obtain ⟨seq, rfl⟩ := List.length_eq_one_iff.mp hlength
      have hindexes : ∀ pair ∈ [append].zip [seq],
          ∃ indexes, pair.1.statements = noteStatements pair.1.note indexes := by
        simpa using ⟨draw.indexes, hnotes⟩
      obtain ⟨logs', hlogs', hentered⟩ := h.writeAppends hindexes spec.record hwrite
      exact .entered _ logs' hlogs' hentered

theorem outcome_streamBatch (h : Consistent db logs) {members : List (StreamBatchMember ν)}
    {fence : Option NoteFence} {observed : List StreamObservation} :
    Outcome db (streamBatch text reading ns db members fence observed).1 logs
      (streamBatch text reading ns db members fence observed).2 := by
  unfold streamBatch
  split
  · exact .refused _ rfl
  split
  · exact .refused _ rfl
  rcases hrun : runPreparedStreamBatch db reading ns (prepareStreamBatch text ns members) fence
    observed with failure | ⟨after, results⟩
  · exact .refused _ rfl
  · unfold runPreparedStreamBatch at hrun
    split at hrun
    · cases hrun
    split at hrun
    · cases hrun
    split at hrun
    · cases hrun
    obtain ⟨⟨last, heads, results'⟩, hmembers, hpair⟩ := map_eq_ok.mp hrun
    cases hpair
    obtain ⟨logs', hlogs', -, hentered⟩ := h.applyStreamMembers .empty hmembers
    exact .entered _ logs' hlogs' hentered

/-- Every unit refuses, enters its appends, or truncates one stream. -/
theorem outcome_unit (h : Consistent db logs) (request : Request ν) :
    Outcome db (unit text hooks reading ns db request).1 logs
      (unit text hooks reading ns db request).2 := by
  cases request with
  | append spec draw => exact outcome_streamAppend h
  | batch members fence observed => exact outcome_streamBatch h
  | member index member => exact outcome_streamBatch h
  | truncate stream beforeSeq =>
    rw [unit]
    rcases hrun : streamTruncate db ns stream beforeSeq with error | ⟨after, answer⟩
    · exact .refused _ rfl
    · exact .truncated _ _ (h.streamTruncate hrun)
  | notes statements =>
    rw [unit]
    rcases hrun : runNotes db statements with failure | after
    · exact .refused _ rfl
    · exact .entered [] logs (h.runNotes hrun) (.nil logs)

/-- Across a unit, every log goes on. -/
theorem Outcome.exists_logs {answer : Except RuntimeError (List (Given ν))}
    (h : Outcome db db' logs answer) (hdb : Consistent db logs) :
    ∃ logs', Consistent db' logs' ∧ ∀ stream, Log.Later (logs stream) (logs' stream) := by
  cases h with
  | refused error heq => exact ⟨logs, heq ▸ hdb, fun _ ↦ .refl _⟩
  | entered gs logs' hlogs hentered => exact ⟨logs', hlogs, hentered.later⟩
  | truncated stream before hlogs => exact ⟨_, hlogs, logs.later_truncate stream before⟩

/-! ## Runs -/

def answers : Except RuntimeError (List (Given ν)) → List (Given ν)
  | .ok gs => gs
  | .error _ => []

/-- Runs from empty tables of units that satisfy `P`, with the numbers given so far. -/
inductive Run (text : JsonText ν) (hooks : String → Option (KindHook ν))
    (P : String → Request ν → Prop) : Database → List (Given ν) → Prop
  | start : Run text hooks P .empty []
  | unit {db : Database} {given : List (Given ν)} (reading : Reading) («namespace» : String)
      (request : Request ν) (hrequest : P «namespace» request) (h : Run text hooks P db given) :
      Run text hooks P (unit text hooks reading «namespace» db request).1
        (given ++ answers (unit text hooks reading «namespace» db request).2)

/-- The numbers given on each stream are those up to its head, and what a log holds was given. -/
structure Recorded (logs : Logs) (given : List (Given ν)) : Prop where
  seqs : ∀ stream, ∃ count : ℕ, (logs stream).head = count ∧
    seqsOn stream given = consecutive 1 count
  entries : ∀ stream n entry, (logs stream).get? n = some entry →
    ∃ g ∈ given, g.stream = stream ∧ g.seq = n ∧ g.entry = entry

theorem Recorded.unit {given : List (Given ν)} (h : Recorded logs given)
    (hdb : Consistent db logs) {answer : Except RuntimeError (List (Given ν))}
    (hunit : Outcome db db' logs answer) :
    ∃ logs', Consistent db' logs' ∧ Recorded logs' (given ++ answers answer) ∧
      ∀ stream, Log.Later (logs stream) (logs' stream) := by
  cases hunit with
  | refused error heq =>
    exact ⟨logs, heq ▸ hdb, by rwa [answers, List.append_nil], fun _ ↦ .refl _⟩
  | entered gs logs' hlogs hentered =>
    refine ⟨logs', hlogs, ⟨fun stream ↦ ?_, fun stream n entry hget ↦ ?_⟩, hentered.later⟩
    · obtain ⟨count, hcount, hseqs⟩ := h.seqs stream
      obtain ⟨hnew, hhead⟩ := hentered.seqsOn_eq stream
      refine ⟨count + (seqsOn stream gs).length, by rw [hhead, hcount]; push_cast; rfl, ?_⟩
      rw [seqsOn_append, hseqs, answers, ← consecutive_append, ← add_comm (count : ℤ) 1, ← hcount]
      exact congrArg _ hnew
    · rcases hentered.get?_cases hget with hold | ⟨g, hg, hrest⟩
      · obtain ⟨g, hg, hrest⟩ := h.entries stream n entry hold
        exact ⟨g, List.mem_append_left _ hg, hrest⟩
      · exact ⟨g, List.mem_append_right _ hg, hrest⟩
  | truncated stream before hlogs =>
    refine ⟨_, hlogs, ⟨fun other ↦ ?_, fun other n entry hget ↦ ?_⟩,
      logs.later_truncate stream before⟩
    · rw [answers, List.append_nil]
      by_cases hother : other = stream
      · subst hother
        rw [Logs.truncate_self, Log.head_truncate]
        exact h.seqs other
      · rw [Logs.truncate_of_ne _ _ hother]
        exact h.seqs other
    · rw [answers, List.append_nil]
      refine h.entries other n entry ?_
      by_cases hother : other = stream
      · subst hother
        rw [Logs.truncate_self, Log.get?_truncate] at hget
        split at hget
        · cases hget
        · exact hget
      · rwa [Logs.truncate_of_ne _ _ hother] at hget

/-- The tables of every run are those of logs. -/
theorem Run.exists_logs {given : List (Given ν)} (h : Run text hooks P db given) :
    ∃ logs, Consistent db logs ∧ Recorded logs given := by
  induction h with
  | start => exact ⟨_, .empty, fun _ ↦ ⟨0, rfl, rfl⟩, fun _ _ _ hget ↦ by simp at hget⟩
  | unit reading ns request _ _ ih =>
    obtain ⟨logs, hlogs, hrecorded⟩ := ih
    obtain ⟨logs', hlogs', hrecorded', -⟩ := hrecorded.unit hlogs (outcome_unit hlogs request)
    exact ⟨logs', hlogs', hrecorded'⟩

/-! ## Allocation -/

theorem allocateSequence_none {head n : ℤ} :
    allocateSequence head none = .ok n ↔ n = head + 1 ∧ head ≠ maxSeq ∧ n ≠ maxSeq := by
  unfold allocateSequence
  by_cases hhead : head = maxSeq
  · simp [hhead]
  by_cases hnext : head + 1 = maxSeq
  · simp only [hhead, if_false, Option.filter_none, hnext, if_true, reduceCtorEq, false_iff]
    rintro ⟨rfl, -, hn⟩
    exact hn rfl
  · simp only [hhead, if_false, Option.filter_none, hnext, Except.ok.injEq]
    constructor
    · rintro rfl
      exact ⟨rfl, hhead, hnext⟩
    · exact fun h ↦ h.1.symm

/-- The condition on a number admits exactly the number that would be given without it. -/
theorem allocateSequence_some {head expected n : ℤ} :
    allocateSequence head (some expected) = .ok n ↔
      expected = n ∧ allocateSequence head none = .ok n := by
  rw [allocateSequence_none]
  unfold allocateSequence
  by_cases hhead : head = maxSeq
  · simp [hhead]
  by_cases hexpected : expected = head + 1
  · subst hexpected
    rw [if_neg hhead, show (some (head + 1)).filter (· != head + 1) = none from by simp]
    dsimp only
    by_cases hnext : head + 1 = maxSeq
    · rw [if_pos hnext]
      simp only [reduceCtorEq, false_iff]
      rintro ⟨rfl, -, -, hn⟩
      exact hn hnext
    · rw [if_neg hnext, Except.ok.injEq]
      constructor
      · rintro rfl
        exact ⟨rfl, rfl, hhead, hnext⟩
      · exact fun h ↦ h.1
  · rw [if_neg hhead, show (some expected).filter (· != head + 1) = some expected from by
      simp [hexpected]]
    simp only [reduceCtorEq, false_iff]
    rintro ⟨rfl, rfl, -⟩
    exact hexpected rfl

/-- The condition on an append admits exactly the number it would be assigned without it. -/
theorem assignSequences_expected {append : PreparedAppend} {expected : ℤ}
    (hexpected : append.expectedSeq = some expected) {heads : OrderedMap String ℤ}
    {earlier : List PreparedAppend} {seqs : List ℤ} :
    assignSequences db reading ns heads (earlier ++ [append]) = .ok seqs ↔
      assignSequences db reading ns heads (earlier ++ [{ append with expectedSeq := none }]) =
          .ok seqs ∧ seqs.getLast? = some expected := by
  induction earlier generalizing heads seqs with
  | nil =>
    rw [List.nil_append, List.nil_append, assignSequences_cons, assignSequences_cons, hexpected]
    simp only [allocateSequence_some]
    constructor
    · rintro ⟨hfence, head, next, later, hhead, ⟨rfl, hnext⟩, hlater, rfl⟩
      cases hlater
      exact ⟨⟨hfence, head, _, [], hhead, hnext, rfl, rfl⟩, rfl⟩
    · rintro ⟨⟨hfence, head, next, later, hhead, hnext, hlater, rfl⟩, hlast⟩
      cases hlater
      cases hlast
      exact ⟨hfence, head, _, [], hhead, ⟨rfl, hnext⟩, rfl, rfl⟩
  | cons first rest ih =>
    rw [List.cons_append, List.cons_append, assignSequences_cons, assignSequences_cons]
    have hlast : ∀ {next : ℤ} {later : List ℤ} {heads : OrderedMap String ℤ} {a : PreparedAppend},
        assignSequences db reading ns heads (rest ++ [a]) = .ok later →
          (next :: later).getLast? = later.getLast? := by
      intro next later heads a h
      have := assignSequences_length h
      cases later with
      | nil => simp at this
      | cons n later => rw [List.getLast?_cons_cons]
    constructor
    · rintro ⟨hfence, head, next, later, hhead, hnext, hlater, rfl⟩
      obtain ⟨hlater', hexpected'⟩ := ih.mp hlater
      exact ⟨⟨hfence, head, next, later, hhead, hnext, hlater', rfl⟩, (hlast hlater').trans hexpected'⟩
    · rintro ⟨⟨hfence, head, next, later, hhead, hnext, hlater, rfl⟩, hexpected'⟩
      exact ⟨hfence, head, next, later, hhead, hnext,
        ih.mpr ⟨hlater, (hlast hlater).symm.trans hexpected'⟩, rfl⟩

/-! ## Density -/

/-- `SELECT seq FROM note_streams` of a stream. -/
def Database.ledgerSeqs (db : Database) (stream : StreamKey) : List ℤ :=
  (db.noteStreams.rows.filter fun row ↦ row.stream == stream).map LedgerRow.seq

/-- The ledger of a stream holds exactly the numbers from floor to head, each once. -/
structure Dense (db : Database) (stream : StreamKey) : Prop where
  mem_iff : ∀ n, n ∈ db.ledgerSeqs stream ↔ db.floorSeq stream ≤ n ∧ n ≤ db.headSeq stream
  nodup : (db.ledgerSeqs stream).Nodup
  one_le_floor : 1 ≤ db.floorSeq stream
  floor_le : db.floorSeq stream ≤ db.headSeq stream + 1
  head_lt : db.headSeq stream < maxSeq

theorem Consistent.dense (h : Consistent db logs) (stream : StreamKey) : Dense db stream where
  mem_iff n := by rw [h.headSeq, h.floor]; exact h.toHolds.mem_seqs
  nodup := by
    have hrows : (db.noteStreams.rows.filter fun row ↦ row.stream == stream).Pairwise
        fun a b ↦ a.key ≠ b.key :=
      (List.pairwise_map.mp db.noteStreams.distinct).sublist List.filter_sublist
    refine List.pairwise_map.mpr (List.Pairwise.imp_of_mem (fun ha hb hkey hseq ↦ hkey ?_) hrows)
    have hstream := eq_of_beq (List.mem_filter.mp ha).2
    have hstream' := eq_of_beq (List.mem_filter.mp hb).2
    exact Prod.ext (hstream.trans hstream'.symm) hseq
  one_le_floor := by rw [h.floor]; exact (logs stream).floor_pos
  floor_le := by rw [h.headSeq, h.floor]; exact (logs stream).floor_le_head_succ
  head_lt := by rw [h.headSeq]; exact h.head_lt stream

/-- No number of a stream is given twice. -/
theorem Recorded.nodup {given : List (Given ν)} (h : Recorded logs given) :
    (given.map fun g ↦ (g.stream, g.seq)).Nodup := by
  refine List.pairwise_map.mpr (List.pairwise_iff_getElem.mpr fun i j hi hj hij heq ↦ ?_)
  obtain ⟨count, -, hseqs⟩ := h.seqs given[j].stream
  have hnodup : (seqsOn given[j].stream given).Nodup := hseqs ▸ nodup_consecutive 1 count
  rw [seqsOn, List.Nodup, List.pairwise_map, List.pairwise_filter] at hnodup
  obtain ⟨hstream, hseq⟩ := Prod.mk.inj heq
  exact List.pairwise_iff_getElem.mp hnodup i j hi hj hij (beq_iff_eq.mpr hstream)
    (beq_self_eq_true _) hseq

/-- What a unit may do to the positions of the streams, and to the tables when it refuses. -/
structure Advances (db db' : Database) (answer : Except RuntimeError (List (Given ν))) : Prop where
  head_le : ∀ stream, db.headSeq stream ≤ db'.headSeq stream
  floor_le : ∀ stream, db.floorSeq stream ≤ db'.floorSeq stream
  consecutive : ∀ gs, answer = .ok gs → ∀ stream, seqsOn stream gs =
    consecutive (db.headSeq stream + 1) (seqsOn stream gs).length
  refused : ∀ error, answer = .error error → db' = db

theorem advances_unit (h : Consistent db logs) (request : Request ν) :
    Advances db (unit text hooks reading ns db request).1
      (unit text hooks reading ns db request).2 := by
  have houtcome : Outcome db (unit text hooks reading ns db request).1 logs
      (unit text hooks reading ns db request).2 := outcome_unit h request
  obtain ⟨logs', hlogs', hlater⟩ := houtcome.exists_logs h
  refine ⟨fun stream ↦ ?_, fun stream ↦ ?_, fun gs hgs stream ↦ ?_, fun error herror ↦ ?_⟩
  · rw [h.headSeq, hlogs'.headSeq]
    exact (hlater stream).head_le
  · rw [h.floor, hlogs'.floor]
    exact (hlater stream).floor_le
  · rw [h.headSeq]
    rw [hgs] at houtcome
    cases houtcome with
    | entered gs logs' hlogs hentered => exact (hentered.seqsOn_eq stream).1
    | truncated stream before hlogs => rfl
  · rw [herror] at houtcome
    cases houtcome with
    | refused error heq => exact heq

namespace Sample

/-- The JSON text of `null`. -/
def nullText : JsonText Empty where
  print _ := "null"
  parse content := if content = "null" then some .null else none

def spec : StreamAppendSpec Empty := ⟨"log", .null, some 1, none, none, "observation", none, none⟩

def units (db : Database) (request : Request Empty) :
    Database × Except RuntimeError (List (Given Empty)) :=
  unit nullText (fun _ ↦ none) ⟨0, fun _ _ ↦ none⟩ "local" db request

/-- An append to an empty stream. -/
def appended : Database := (units .empty (.append spec ⟨"n1", 7, []⟩)).1

/-- A truncation of all it holds. -/
def emptied : Database := (units appended (.truncate "log" 100)).1

end Sample

end Khive.Streams
