import Khive.Streams.Dense

/-!
# Readers of a stream

A reader takes page after page, each from a snapshot of its own, and follows `nextAfter` until a
page has none. The snapshots are ever later logs, so it misses nothing but what was truncated: that
is the general fact about numbered logs, and what is shown here is that a page of the tables is a
page of the log.

A page decodes the text of its entries, and an append may have stored a text that is no JSON at all:
a note kind with a hook of its own puts its own text in the place of the record. `Request.ReadsBack`
says that what an append stores reads back as its record. Where it does not, the reader is stopped
by an error at that entry.
-/

namespace Khive.Streams

variable {ν : Type} {text : JsonText ν} {hooks : String → Option (KindHook ν)}
  {P : String → Request ν → Prop} {db db' : Database} {logs : Logs} {stream : StreamKey}
  {given given' : List (Given ν)}

/-! ## A page of the tables -/

/-- The joined rows of a page before they are put in order. -/
def joinedRows (db : Database) (stream : StreamKey) (above : ℤ) : List (ℤ × Note) :=
  db.noteStreams.rows.filterMap fun row ↦
    if row.stream = stream ∧ above < row.seq then
      (db.notes.get row.noteId).map fun note ↦ (row.seq, note)
    else none

theorem mem_joinedRows {above : ℤ} {n : ℤ} {note : Note} :
    (n, note) ∈ joinedRows db stream above ↔ ∃ row ∈ db.noteStreams.rows,
      row.stream = stream ∧ row.seq = n ∧ above < n ∧ db.notes.get row.noteId = some note := by
  simp only [joinedRows, List.mem_filterMap, Option.ite_none_right_eq_some, Option.map_eq_some_iff,
    Prod.mk.injEq]
  constructor
  · rintro ⟨row, hrow, ⟨hstream, habove⟩, held, hheld, rfl, rfl⟩
    exact ⟨row, hrow, hstream, rfl, habove, hheld⟩
  · rintro ⟨row, hrow, hstream, rfl, habove, hheld⟩
    exact ⟨row, hrow, ⟨hstream, habove⟩, note, hheld, rfl, rfl⟩

theorem pairwise_joinedRows (db : Database) (stream : StreamKey) (above : ℤ) :
    (joinedRows db stream above).Pairwise fun a b ↦ a.1 ≠ b.1 := by
  refine List.pairwise_filterMap.mpr ((List.pairwise_map.mp db.noteStreams.distinct).imp ?_)
  intro row row' hkey a ha b hb heq
  simp only [Option.ite_none_right_eq_some, Option.map_eq_some_iff] at ha hb
  obtain ⟨⟨hstream, -⟩, note, -, rfl⟩ := ha
  obtain ⟨⟨hstream', -⟩, note', -, rfl⟩ := hb
  exact hkey (Prod.ext (hstream.trans hstream'.symm) heq)

/-- **A page of the tables is a page of the log.** -/
theorem Consistent.pageRows (h : Consistent db logs) (after : ℤ) (limit : ℕ) :
    (pageRows db stream after limit).map (fun row ↦ (row.1, row.2.entry)) =
      (logs stream).page after limit := by
  let above := max after (db.floorSeq stream - 1)
  let sorted := (joinedRows db stream above).mergeSort fun a b ↦ decide (a.1 ≤ b.1)
  have hperm : sorted.Perm (joinedRows db stream above) := List.mergeSort_perm _ _
  have hle : sorted.Pairwise fun a b ↦ decide (a.1 ≤ b.1) = true :=
    List.pairwise_mergeSort (fun a b c hab hbc ↦ decide_eq_true
        ((of_decide_eq_true hab).trans (of_decide_eq_true hbc)))
      (fun a b ↦ by simpa using le_total a.1 b.1) _
  have hne : sorted.Pairwise fun a b ↦ a.1 ≠ b.1 :=
    (hperm.pairwise_iff (fun hab ↦ Ne.symm hab)).mpr (pairwise_joinedRows db stream above)
  have hascending : Log.Ascending (sorted.map fun row ↦ (row.1, row.2.entry)) := by
    refine List.pairwise_map.mpr (List.Pairwise.imp₂ ?_ hle hne)
    exact fun a b hab hneq ↦ lt_of_le_of_ne (of_decide_eq_true hab) hneq
  -- both lists ascend, so it is enough that they have the same members
  have hsorted : (sorted.map fun row ↦ (row.1, row.2.entry)) =
      (logs stream).numbered.filter fun e ↦ after < e.1 := by
    refine hascending.ext ((Log.ascending_numbered _).filter _) fun e ↦ ?_
    rw [List.mem_map, List.mem_filter, Log.mem_numbered, decide_eq_true_eq]
    constructor
    · rintro ⟨⟨n, note⟩, hmem, rfl⟩
      obtain ⟨row, hrow, rfl, rfl, habove, hnote⟩ := mem_joinedRows.mp (hperm.mem_iff.mp hmem)
      obtain ⟨held, hheld, -, -, hget⟩ := h.held row hrow
      cases hheld.symm.trans hnote
      exact ⟨hget, (le_max_left _ _).trans_lt habove⟩
    · rintro ⟨hget, hafter⟩
      obtain ⟨row, hrow, hstream, hseq⟩ :=
        h.present stream e.1 (Option.isSome_iff_exists.mpr ⟨_, hget⟩)
      obtain ⟨held, hheld, -, -, hentry⟩ := h.held row hrow
      rw [hstream, hseq, hget] at hentry
      have habove : above < e.1 := by
        have := (Log.bounds_of_get? hget).1
        rw [← h.floor] at this
        exact max_lt hafter (by omega)
      refine ⟨(e.1, held), hperm.mem_iff.mpr (mem_joinedRows.mpr
        ⟨row, hrow, hstream, hseq, habove, hheld⟩), ?_⟩
      exact Prod.ext rfl (Option.some.inj hentry).symm
  have hrows : Streams.pageRows db stream after limit = sorted.take limit := rfl
  rw [hrows, List.map_take, hsorted]
  rfl

/-! ## What a read answers -/

/-- Every entry of the log reads back as a record that was given for it. -/
def Readable (text : JsonText ν) (logs : Logs) (given : List (Given ν)) : Prop :=
  ∀ stream n entry, (logs stream).get? n = some entry →
    ∃ g ∈ given, g.stream = stream ∧ g.seq = n ∧ g.id = entry.id ∧
      text.parse entry.content = some g.record

/-- The last number a page returned, or where it started. -/
def StreamPage.lastSeq (page : StreamPage ν) (after : ℤ) : ℤ :=
  (page.entries.getLast?.map StreamEntry.seq).getD after

/-- How a page stands to the log of its snapshot. -/
structure PageOf (text : JsonText ν) (log : Log Entry) (after : ℤ) (limit : ℕ)
    (page : StreamPage ν) : Prop where
  entries : page.entries.map StreamEntry.seq = (log.page after limit).map Prod.fst
  parsed : ∀ entry ∈ page.entries, ∃ held, log.get? entry.seq = some held ∧
    entry.id = held.id ∧ text.parse held.content = some entry.record
  nextAfter : page.nextAfter = log.next (log.page after limit)

theorem entryOfRow_eq_ok {row : ℤ × Note} {entry : StreamEntry ν}
    (h : entryOfRow text row = .ok entry) :
    entry.seq = row.1 ∧ entry.id = row.2.id ∧ text.parse row.2.content = some entry.record := by
  obtain ⟨record, hrecord, hpure⟩ := bind_eq_ok.mp h
  obtain rfl := pure_eq_ok.mp hpure
  exact ⟨rfl, rfl, okOr_eq_ok.mp hrecord⟩

variable {ns name : String} {after limit : ℤ}

/-- The answer of a successful read is the page of the log, decoded. -/
theorem Consistent.pageOf (h : Consistent db logs) {page : StreamPage ν}
    (hread : streamRead text db ns name after limit = .ok page) :
    0 < limit.toNat ∧ PageOf text (logs ⟨ns, name⟩) after limit.toNat page := by
  unfold streamRead at hread
  obtain ⟨-, hread⟩ := seq_eq_ok.mp hread
  obtain ⟨hbounds, hread⟩ := seq_eq_ok.mp hread
  obtain ⟨entries, hentries, hpure⟩ := bind_eq_ok.mp hread
  obtain rfl := pure_eq_ok.mp hpure
  have hbounds := guardOr_eq_ok.mp hbounds
  simp only [Bool.and_eq_true, decide_eq_true_eq] at hbounds
  have hpage : (Streams.pageRows db ⟨ns, name⟩ after limit.toNat).map
      (fun row ↦ (row.1, row.2.entry)) = (logs ⟨ns, name⟩).page after limit.toNat :=
    h.pageRows after limit.toNat
  have hforall := mapM_eq_ok.mp hentries
  refine ⟨by omega, ?_, fun entry hentry ↦ ?_, ?_⟩
  · rw [← hpage, List.map_map]
    show entries.map _ = _
    rw [← List.forall₂_eq_eq_eq, List.forall₂_map_left_iff, List.forall₂_map_right_iff]
    exact hforall.flip.imp fun a b hab ↦ (entryOfRow_eq_ok hab).1
  · obtain ⟨row, hrow, hrowOk⟩ := exists_of_mem_forall₂ hforall hentry
    obtain ⟨hseq, hid, hparsed⟩ := entryOfRow_eq_ok hrowOk
    have hmem : (row.1, row.2.entry) ∈ (logs ⟨ns, name⟩).page after limit.toNat :=
      hpage ▸ List.mem_map_of_mem hrow
    rw [hseq]
    exact ⟨row.2.entry, (Log.get?_of_mem_page hmem).2, hid, hparsed⟩
  · show ((Streams.pageRows db ⟨ns, name⟩ after limit.toNat).getLast?.map Prod.fst).filter _ = _
    rw [Log.next, ← hpage, List.getLast?_map, Option.map_map, h.headSeq]
    rfl

theorem getLast?_seq {log : Log Entry} {limit : ℕ} {page : StreamPage ν}
    (h : PageOf text log after limit page) :
    page.entries.getLast?.map StreamEntry.seq = (log.page after limit).getLast?.map Prod.fst := by
  rw [← List.getLast?_map, h.entries, List.getLast?_map]

theorem Consistent.mem_ledgerSeqs (h : Consistent db logs) {n : ℤ} :
    n ∈ db.ledgerSeqs stream ↔ (logs stream).floor ≤ n ∧ n ≤ (logs stream).head :=
  h.toHolds.mem_seqs

/-- A page says to stop exactly when its snapshot holds nothing above it. -/
theorem Consistent.nextAfter_eq_none (h : Consistent db logs) {page : StreamPage ν}
    (hread : streamRead text db ns name after limit = .ok page) :
    page.nextAfter = none ↔ ∀ n ∈ db.ledgerSeqs ⟨ns, name⟩, n ≤ page.lastSeq after := by
  obtain ⟨hlimit, hpage⟩ := h.pageOf hread
  rw [hpage.nextAfter, Log.next_eq_none_iff hlimit]
  have hlast : page.lastSeq after = Log.lastOf after ((logs ⟨ns, name⟩).page after limit.toNat) := by
    rw [StreamPage.lastSeq, Log.lastOf, getLast?_seq hpage]
  rw [hlast]
  constructor
  · intro hall n hn
    obtain ⟨x, hx⟩ := Log.exists_get? (h.mem_ledgerSeqs.mp hn).1 (h.mem_ledgerSeqs.mp hn).2
    exact hall n x hx
  · intro hall n x hx
    exact hall n (h.mem_ledgerSeqs.mpr (Log.bounds_of_get? hx))

/-- A read of a readable log does not fail. -/
theorem Consistent.streamRead_ok (h : Consistent db logs) (hreadable : Readable text logs given)
    (hstream : validateStream name = .ok ()) (hafter : 0 ≤ after) (hlimit : 1 ≤ limit) :
    ∃ page, streamRead text db ns name after limit = .ok page := by
  have hparses : ∀ row ∈ Streams.pageRows db ⟨ns, name⟩ after limit.toNat,
      ∃ entry, entryOfRow text row = .ok entry := by
    intro row hrow
    have hmem : (row.1, row.2.entry) ∈ (logs ⟨ns, name⟩).page after limit.toNat := by
      rw [← h.pageRows after limit.toNat]
      exact List.mem_map_of_mem hrow
    obtain ⟨g, -, -, -, -, hparse⟩ := hreadable _ _ _ (Log.get?_of_mem_page hmem).2
    have hparse : text.parse row.2.content = some g.record := hparse
    rw [entryOfRow, hparse]
    exact ⟨_, rfl⟩
  obtain ⟨entries, hentries⟩ : ∃ entries,
      (Streams.pageRows db ⟨ns, name⟩ after limit.toNat).mapM (entryOfRow text) = .ok entries := by
    generalize Streams.pageRows db ⟨ns, name⟩ after limit.toNat = rows at hparses
    induction rows with
    | nil => exact ⟨[], rfl⟩
    | cons row rows ih =>
      obtain ⟨entry, hentry⟩ := hparses row List.mem_cons_self
      obtain ⟨entries, hentries⟩ := ih fun row hrow ↦ hparses row (.tail _ hrow)
      exact ⟨entry :: entries, mapM_eq_ok.mpr (.cons hentry (mapM_eq_ok.mp hentries))⟩
  unfold streamRead
  rw [hstream, show (decide (0 ≤ after) && decide (1 ≤ limit)) = true from by simp [hafter, hlimit]]
  simp only [guardOr, if_true, ok_bind, hentries]
  exact ⟨_, rfl⟩

/-! ## Texts that read back -/

def StreamBatchMember.ReadsBack (text : JsonText ν) : StreamBatchMember ν → Prop
  | .append spec _ => text.parse (text.print spec.record) = some spec.record
  | _ => True

/-- What the appends of a request store reads back as their records. -/
def Request.ReadsBack (text : JsonText ν) (hooks : String → Option (KindHook ν))
    («namespace» : String) : Request ν → Prop
  | .append spec _ => ∀ content, prepareContent text hooks «namespace» spec = .ok content →
      text.parse content = some spec.record
  | .batch members _ _ => ∀ m ∈ members, m.ReadsBack text
  | .member _ m => m.ReadsBack text
  | _ => True

theorem parse_of_mem_givenByMembers {members : List (StreamBatchMember ν)}
    {results : List MemberResult} (h : ∀ member ∈ members, member.ReadsBack text) :
    ∀ g ∈ givenByMembers text ns (members.zip results), text.parse g.content = some g.record := by
  intro g hg
  obtain ⟨⟨member, result⟩, hmem, hsome⟩ := List.mem_filterMap.mp hg
  have hmember := h member (List.of_mem_zip hmem).1
  cases member with
  | append spec draw =>
    cases result with
    | appended seq id createdAt =>
      cases hsome
      exact hmember
    | written id version => cases hsome
  | write key kind id plan => cases hsome
  | refused error => cases hsome

theorem parse_of_mem_streamBatch {reading : Reading} {members : List (StreamBatchMember ν)}
    {fence : Option NoteFence} {observed : List StreamObservation}
    (h : ∀ member ∈ members, member.ReadsBack text) :
    ∀ g ∈ answers (streamBatch text reading ns db members fence observed).2,
      text.parse g.content = some g.record := by
  intro g hg
  unfold streamBatch at hg
  split at hg
  · cases hg
  split at hg
  · cases hg
  split at hg
  · cases hg
  · exact parse_of_mem_givenByMembers h g hg

theorem parse_of_mem_unit {reading : Reading} {request : Request ν}
    (h : request.ReadsBack text hooks ns) :
    ∀ g ∈ answers (unit text hooks reading ns db request).2,
      text.parse g.content = some g.record := by
  intro g hg
  cases request with
  | append spec draw =>
    rw [unit, streamAppend] at hg
    split at hg
    · cases hg
    rename_i append hprepare
    split at hg
    · cases hg
    · rename_i seqs _
      obtain ⟨seq, -, rfl⟩ := List.mem_map.mp hg
      exact h _ (prepareStreamAppend_eq_ok hprepare).2
    · cases hg
  | batch members fence observed => exact parse_of_mem_streamBatch h g hg
  | member index member =>
    exact parse_of_mem_streamBatch (fun m hm ↦ (List.mem_singleton.mp hm).symm ▸ h) g hg
  | truncate name beforeSeq =>
    rw [unit] at hg
    split at hg <;> cases hg
  | notes statements =>
    rw [unit] at hg
    split at hg <;> cases hg

/-! ## Sessions -/

/-- Units between two snapshots. -/
inductive Steps (text : JsonText ν) (hooks : String → Option (KindHook ν))
    (P : String → Request ν → Prop) (db : Database) (given : List (Given ν)) :
    Database → List (Given ν) → Prop
  | refl : Steps text hooks P db given db given
  | unit {db' : Database} {given' : List (Given ν)} (reading : Reading) («namespace» : String)
      (request : Request ν) (hrequest : P «namespace» request)
      (h : Steps text hooks P db given db' given') :
      Steps text hooks P db given (unit text hooks reading «namespace» db' request).1
        (given' ++ answers (unit text hooks reading «namespace» db' request).2)

/-- A reader of one stream: pages of any limits, with units between them, until a page has no
`nextAfter`. It runs from the first snapshot to the last and returns its entries. -/
inductive Session (text : JsonText ν) (hooks : String → Option (KindHook ν))
    (P : String → Request ν → Prop) (ns name : String) :
    ℤ → Database → List (Given ν) → Database → List (Given ν) → List (StreamEntry ν) → Prop
  | last {after limit : ℤ} {db : Database} {given : List (Given ν)} {page : StreamPage ν}
      (hread : streamRead text db ns name after limit = .ok page) (hnext : page.nextAfter = none) :
      Session text hooks P ns name after db given db given page.entries
  | more {after limit a : ℤ} {db db' last : Database} {given given' lastGiven : List (Given ν)}
      {page : StreamPage ν} {entries : List (StreamEntry ν)}
      (hread : streamRead text db ns name after limit = .ok page) (hnext : page.nextAfter = some a)
      (hsteps : Steps text hooks P db given db' given')
      (rest : Session text hooks P ns name a db' given' last lastGiven entries) :
      Session text hooks P ns name after db given last lastGiven (page.entries ++ entries)

/-- Tables of a run, whose texts read back as the records they were given for. -/
structure Tracks (text : JsonText ν) (db : Database) (logs : Logs) (given : List (Given ν)) : Prop where
  consistent : Consistent db logs
  recorded : Recorded logs given
  parse : ∀ g ∈ given, text.parse g.content = some g.record

theorem Tracks.readable (h : Tracks text db logs given) : Readable text logs given := by
  intro stream n entry hget
  obtain ⟨g, hg, hstream, hseq, rfl⟩ := h.recorded.entries stream n entry hget
  exact ⟨g, hg, hstream, hseq, rfl, h.parse g hg⟩

theorem Tracks.unit (h : Tracks text db logs given) {reading : Reading} {request : Request ν}
    (hrequest : request.ReadsBack text hooks ns) :
    ∃ logs', Tracks text (unit text hooks reading ns db request).1 logs'
        (given ++ answers (unit text hooks reading ns db request).2) ∧
      ∀ stream, Log.Later (logs stream) (logs' stream) := by
  have houtcome : Outcome db (Streams.unit text hooks reading ns db request).1 logs
      (Streams.unit text hooks reading ns db request).2 := outcome_unit h.consistent request
  have hparse : ∀ g ∈ given ++ answers (Streams.unit text hooks reading ns db request).2,
      text.parse g.content = some g.record := by
    intro g hg
    rcases List.mem_append.mp hg with hold | hnew
    · exact h.parse g hold
    · exact parse_of_mem_unit hrequest g hnew
  obtain ⟨logs', hlogs', hrecorded, hlater⟩ := h.recorded.unit h.consistent houtcome
  exact ⟨logs', ⟨hlogs', hrecorded, hparse⟩, hlater⟩

theorem Tracks.run (h : Run text hooks (Request.ReadsBack text hooks) db given) :
    ∃ logs, Tracks text db logs given := by
  induction h with
  | start => exact ⟨_, .empty, ⟨fun _ ↦ ⟨0, rfl, rfl⟩, fun _ _ _ hget ↦ by simp at hget⟩, by simp⟩
  | unit reading ns request hrequest _ ih =>
    obtain ⟨logs, hlogs⟩ := ih
    obtain ⟨logs', hlogs', -⟩ := hlogs.unit hrequest
    exact ⟨logs', hlogs'⟩

theorem Tracks.steps (h : Tracks text db logs given)
    (hsteps : Steps text hooks (Request.ReadsBack text hooks) db given db' given') :
    ∃ logs', Tracks text db' logs' given' ∧ (∀ stream, Log.Later (logs stream) (logs' stream)) ∧
      given ⊆ given' := by
  induction hsteps with
  | refl => exact ⟨logs, h, fun _ ↦ .refl _, List.Subset.refl _⟩
  | unit reading ns request hrequest _ ih =>
    obtain ⟨logs₁, hlogs₁, hlater₁, hsub⟩ := ih
    obtain ⟨logs₂, hlogs₂, hlater₂⟩ := hlogs₁.unit hrequest
    exact ⟨logs₂, hlogs₂, fun stream ↦ (hlater₁ stream).trans (hlater₂ stream),
      fun g hg ↦ List.mem_append_left _ (hsub hg)⟩

/-- A page's entries are records that were given for their numbers. -/
theorem Tracks.given_of_mem_page (h : Tracks text db logs given) {page : StreamPage ν}
    (hread : streamRead text db ns name after limit = .ok page) :
    ∀ entry ∈ page.entries, ∃ g ∈ given, g.stream = ⟨ns, name⟩ ∧ g.seq = entry.seq ∧
      g.id = entry.id ∧ g.record = entry.record := by
  intro entry hentry
  obtain ⟨held, hget, hid, hparse⟩ := (h.consistent.pageOf hread).2.parsed entry hentry
  obtain ⟨g, hg, hstream, hseq, hgid, hrecord⟩ := h.readable _ _ _ hget
  rw [hrecord] at hparse
  exact ⟨g, hg, hstream, hseq, hgid.trans hid.symm, Option.some.inj hparse⟩

/-- What a session did: it read ever later logs, and every entry was given. -/
theorem Session.reads {last : Database} {lastGiven : List (Given ν)}
    {entries : List (StreamEntry ν)}
    (h : Session text hooks (Request.ReadsBack text hooks) ns name after db given last lastGiven
      entries) (htracks : Tracks text db logs given) :
    given ⊆ lastGiven ∧ ∃ lastLogs ls raw, Consistent last lastLogs ∧ Log.Reads after ls raw ∧
      raw.map Prod.fst = entries.map StreamEntry.seq ∧
      ls.head? = some (logs ⟨ns, name⟩) ∧ ls.getLast? = some (lastLogs ⟨ns, name⟩) ∧
      ls.Pairwise Log.Later ∧ ∀ entry ∈ entries, ∃ g ∈ lastGiven, g.stream = ⟨ns, name⟩ ∧
        g.seq = entry.seq ∧ g.id = entry.id ∧ g.record = entry.record := by
  induction h generalizing logs with
  | last hread hnext =>
    obtain ⟨hlimit, hpage⟩ := htracks.consistent.pageOf hread
    refine ⟨List.Subset.refl _, logs, [logs ⟨ns, name⟩], _, htracks.consistent,
      .last _ _ _ hlimit (hpage.nextAfter.symm.trans hnext), hpage.entries.symm, rfl, rfl,
      List.pairwise_singleton .., htracks.given_of_mem_page hread⟩
  | more hread hnext hsteps rest ih =>
    -- between two pages the tables change, and the log becomes a later one
    obtain ⟨hlimit, hpage⟩ := htracks.consistent.pageOf hread
    obtain ⟨logs₁, htracks₁, hlater, hsub⟩ := htracks.steps hsteps
    obtain ⟨hsub', lastLogs, ls, raw, hlast, hreads, hraw, hfirst, hlastLog, hpairwise, hgiven⟩ :=
      ih htracks₁
    obtain ⟨ls, rfl⟩ : ∃ ls', ls = logs₁ ⟨ns, name⟩ :: ls' :=
      ⟨ls.tail, (List.cons_head?_tail hfirst).symm⟩
    refine ⟨fun _ hg ↦ hsub' (hsub hg), lastLogs, _, _, hlast,
      .more (logs ⟨ns, name⟩) _ _ hlimit _ (hpage.nextAfter.symm.trans hnext) _ _ hreads, ?_, rfl,
      ?_, ?_, fun entry hentry ↦ ?_⟩
    · rw [List.map_append, List.map_append, hpage.entries, hraw]
    · rw [List.getLast?_cons_cons]
      exact hlastLog
    · refine List.pairwise_cons.mpr ⟨fun l hl ↦ ?_, hpairwise⟩
      rcases List.mem_cons.mp hl with rfl | hl
      · exact hlater _
      · exact (hlater _).trans ((List.pairwise_cons.mp hpairwise).1 l hl)
    · rcases List.mem_append.mp hentry with hpageEntry | hrest
      · obtain ⟨g, hg, hrest⟩ := htracks.given_of_mem_page hread entry hpageEntry
        exact ⟨g, hsub' (hsub hg), hrest⟩
      · exact hgiven entry hrest

/-! ## Nothing is missed -/

/-- What readers of a system can rely on. In every state a read answers, and says to stop exactly
when nothing is above it. A session returns ascending numbers above its start, each with the record
given for it, and every number that the ledger holds at both its ends. -/
def ReadersMissNothing (text : JsonText ν) (hooks : String → Option (KindHook ν))
    (P : String → Request ν → Prop) : Prop :=
  ∀ db given ns name after, Run text hooks P db given → validateStream name = .ok () → 0 ≤ after →
    (∀ limit, 1 ≤ limit → ∃ page, streamRead text db ns name after limit = .ok page ∧
      (page.nextAfter = none ↔ ∀ n ∈ db.ledgerSeqs ⟨ns, name⟩, n ≤ page.lastSeq after)) ∧
    ∀ last lastGiven entries, Session text hooks P ns name after db given last lastGiven entries →
      (entries.map StreamEntry.seq).Pairwise (· < ·) ∧
      (∀ entry ∈ entries, after < entry.seq ∧ ∃ g ∈ lastGiven, g.stream = ⟨ns, name⟩ ∧
        g.seq = entry.seq ∧ g.id = entry.id ∧ g.record = entry.record) ∧
      ∀ n, after < n → n ∈ db.ledgerSeqs ⟨ns, name⟩ → n ∈ last.ledgerSeqs ⟨ns, name⟩ →
        n ∈ entries.map StreamEntry.seq

/-- **A reader misses nothing but truncated entries**, in every run whose appends store texts that
read back as their records. -/
theorem readers_miss_nothing (text : JsonText ν) (hooks : String → Option (KindHook ν)) :
    ReadersMissNothing text hooks (Request.ReadsBack text hooks) := by
  intro db given ns name after hrun hname hafter
  obtain ⟨logs, htracks⟩ := Tracks.run hrun
  refine ⟨fun limit hlimit ↦ ?_, fun last lastGiven entries hsession ↦ ?_⟩
  · obtain ⟨page, hread⟩ := htracks.consistent.streamRead_ok htracks.readable hname hafter hlimit
    exact ⟨page, hread, htracks.consistent.nextAfter_eq_none hread⟩
  · obtain ⟨-, lastLogs, ls, raw, hlast, hreads, hraw, hfirst, hlastLog, hpairwise, hgiven⟩ :=
      hsession.reads htracks
    refine ⟨?_, fun entry hentry ↦ ⟨?_, hgiven entry hentry⟩, fun n hn hheld hheld' ↦ ?_⟩
    · rw [← hraw]
      exact List.pairwise_map.mpr hreads.ascending
    · obtain ⟨e, he, hseq⟩ := List.mem_map.mp (hraw ▸ List.mem_map_of_mem hentry)
      exact hseq ▸ hreads.after_lt e he
    · rw [← hraw]
      exact hreads.mem hpairwise hfirst hlastLog hn (htracks.consistent.mem_ledgerSeqs.mp hheld).2
        (hlast.mem_ledgerSeqs.mp hheld').1

namespace Sample

/-- An append of `null`, whatever the head is. -/
def nullAppend (id : String) : Request Empty := .append { spec with expectedSeq := none } ⟨id, 7, []⟩

/-- Two entries, and then the second alone. -/
def twoEntries : Database := (units (units .empty (nullAppend "n1")).1 (nullAppend "n2")).1

def oneEntry : Database := (units twoEntries (.truncate "log" 2)).1

theorem nullAppend_readsBack (id : String) :
    (nullAppend id).ReadsBack nullText (fun _ ↦ none) "local" := by
  intro content hcontent
  have hnull : prepareContent nullText (fun _ ↦ none) "local" { spec with expectedSeq := none } =
      .ok "null" := by decide +kernel
  obtain rfl := Except.ok.inj (hnull.symm.trans hcontent)
  rfl

/-- The entries of the tables, in order already. -/
theorem pageRows_twoEntries :
    pageRows twoEntries ⟨"local", "log"⟩ 0 1 = (joinedRows twoEntries ⟨"local", "log"⟩ 0).take 1 :=
  congrArg (List.take 1) (List.mergeSort_of_pairwise (by decide +kernel))

theorem exists_page {ε : Type} {read : Except ε (StreamPage Empty)} {a : Option ℤ}
    (h : read.toOption.map StreamPage.nextAfter = some a) :
    ∃ page, read = .ok page ∧ page.nextAfter = a := by
  cases read with
  | error e => cases h
  | ok page => exact ⟨page, rfl, Option.some.inj h⟩

end Sample

/-- A reader with pages of one entry, and a truncation between its two pages: it has the entry that
was there before and after. -/
theorem readers_miss_nothing_between_pages :
    ∃ given lastGiven entries,
      Run Sample.nullText (fun _ ↦ none) (Request.ReadsBack Sample.nullText fun _ ↦ none)
        Sample.twoEntries given ∧
      Session Sample.nullText (fun _ ↦ none) (Request.ReadsBack Sample.nullText fun _ ↦ none)
        "local" "log" 0 Sample.twoEntries given Sample.oneEntry lastGiven entries ∧
      Sample.oneEntry.floorSeq ⟨"local", "log"⟩ = 2 ∧ 2 ∈ entries.map StreamEntry.seq := by
  obtain ⟨given, hrun⟩ : ∃ given, Run Sample.nullText (fun _ ↦ none)
      (Request.ReadsBack Sample.nullText fun _ ↦ none) Sample.twoEntries given :=
    ⟨_, .unit ⟨0, fun _ _ ↦ none⟩ "local" _ (Sample.nullAppend_readsBack "n2")
      (.unit ⟨0, fun _ _ ↦ none⟩ "local" _ (Sample.nullAppend_readsBack "n1") .start)⟩
  obtain ⟨first, hfirst, hmore⟩ : ∃ page,
      streamRead Sample.nullText Sample.twoEntries "local" "log" 0 1 = .ok page ∧
        page.nextAfter = some 1 := by
    refine Sample.exists_page ?_
    simp only [streamRead]
    rw [show (1 : ℤ).toNat = 1 from rfl, Sample.pageRows_twoEntries]
    decide +kernel
  obtain ⟨second, hsecond, hdone⟩ : ∃ page,
      streamRead Sample.nullText Sample.oneEntry "local" "log" 1 1 = .ok page ∧
        page.nextAfter = none := Sample.exists_page (by decide +kernel)
  have hsession : Session Sample.nullText (fun _ ↦ none)
      (Request.ReadsBack Sample.nullText fun _ ↦ none) "local" "log" 0 Sample.twoEntries given
      Sample.oneEntry _ _ :=
    .more hfirst hmore (.unit ⟨0, fun _ _ ↦ none⟩ "local" (.truncate "log" 2) trivial .refl)
      (.last hsecond hdone)
  refine ⟨_, _, _, hrun, hsession, by decide +kernel, ?_⟩
  exact ((readers_miss_nothing Sample.nullText (fun _ ↦ none) _ _ "local" "log" 0 hrun
    (by decide +kernel) le_rfl).2 _ _ _ hsession).2.2 2 (by decide) (by decide +kernel)
    (by decide +kernel)

/-! ## A text that does not read back -/

/-- A field that is a string when it is there. -/
def optionalString (args : OrderedMap String (Json ν)) (field : String) :
    Except RuntimeError (Option String) :=
  match args.get field with
  | none | some .null => .ok none
  | some (.string value) => .ok (some value)
  | some _ => .error (.invalidInput (field ++ " must be a string or null"))

/-- What the hook of the kind `task` puts in the place of the record: the description of the task,
or else its title. The other fields of a task are left out. -/
def taskHook : KindHook ν := fun args ↦ do
  let title ← optionalString args "title"
  let name ← optionalString args "name"
  let title ← okOr (.invalidInput "kind=note + note_kind=task requires string 'title' or 'name'")
    (title.or name)
  let description ← optionalString args "description"
  return (args.insert "name" (.string title)).insert "content" (.string (description.getD title))

namespace Sample

/-- The JSON text of one record. -/
def taskText : JsonText Empty where
  print
    | .object [("title", .string "streamed task")] => "\x7b\"title\":\"streamed task\"\x7d"
    | _ => "null"
  parse content :=
    if content = "\x7b\"title\":\"streamed task\"\x7d" then
      some (.object [("title", .string "streamed task")])
    else if content = "null" then some .null else none

def taskHooks (kind : String) : Option (KindHook Empty) :=
  if kind = "task" then some taskHook else none

/-- The record of a task, appended to a stream. -/
def taskAppend : Request Empty :=
  .append ⟨"log", .object [("title", .string "streamed task")], none, none, none, "task", none, none⟩
    ⟨"n1", 7, []⟩

def taskDatabase : Database :=
  (unit taskText taskHooks ⟨0, fun _ _ ↦ none⟩ "local" .empty taskAppend).1

end Sample

/-- A task appended to a stream stops every reader: its stored text is its title, which is no
JSON. -/
theorem task_stops_readers :
    ¬ ReadersMissNothing Sample.taskText Sample.taskHooks fun _ _ ↦ True := by
  intro h
  have hrun : Run Sample.taskText Sample.taskHooks (fun _ _ ↦ True) Sample.taskDatabase _ :=
    .unit ⟨0, fun _ _ ↦ none⟩ "local" Sample.taskAppend trivial .start
  obtain ⟨page, hread, -⟩ := (h _ _ "local" "log" 0 hrun (by decide +kernel) le_rfl).1 10 (by decide)
  have hfails : (streamRead Sample.taskText Sample.taskDatabase "local" "log" 0 10).toOption.isSome =
      false := by decide +kernel
  rw [hread] at hfails
  cases hfails

end Khive.Streams
