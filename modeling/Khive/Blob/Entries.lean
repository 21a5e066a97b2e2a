import Khive.Blob.Tree

/-!
# Which entries make a tree

Two paths collide when they are equal or one lies in the directory of the other. What has been
taken in is a set of entries without collisions, held once in the ordered map and once in the prefix
index; an entry is taken in exactly when it collides with none of them. So the order in which the
entries come decides nothing but which collision is reported.
-/

namespace Khive.Blob.Tree

/-- Equal paths, or one of them in the directory of the other. -/
def Collides (a b : String) : Prop :=
  a = b ∨ (a ++ "/").toList <+: b.toList ∨ (b ++ "/").toList <+: a.toList

theorem Collides.symm {a b : String} (h : Collides a b) : Collides b a := by
  rcases h with rfl | h | h
  · exact Or.inl rfl
  · exact Or.inr (Or.inr h)
  · exact Or.inr (Or.inl h)

/-- No two of the entries collide. -/
def Clear (entries : List TreeEntry) : Prop :=
  entries.Pairwise fun a b ↦ ¬Collides a.path b.path

theorem Clear.perm {entries entries' : List TreeEntry} (h : entries.Perm entries') :
    Clear entries ↔ Clear entries' :=
  h.pairwise_iff fun hnot hcollides ↦ hnot hcollides.symm

/-- Entries without collisions have different paths, so sorted they ascend. -/
theorem Clear.sortOn_lt {entries : List TreeEntry} (h : Clear entries) :
    (sortOn TreeEntry.path entries).Pairwise fun a b ↦ a.path < b.path := by
  have hne := ((Clear.perm (sortOn_perm TreeEntry.path entries)).mpr h).imp
    fun {a b : TreeEntry} hnot ↦ fun heq : a.path = b.path ↦ hnot (Or.inl heq)
  exact ((sortOn_sorted TreeEntry.path entries).and hne).imp fun hab ↦ lt_of_le_of_ne hab.1 hab.2

theorem Clear.sortOn_perm {entries entries' : List TreeEntry} (h : Clear entries)
    (hperm : entries.Perm entries') :
    sortOn TreeEntry.path entries = sortOn TreeEntry.path entries' := by
  refine SortedMap.eq_of_mem_iff h.sortOn_lt ((Clear.perm hperm).mp h).sortOn_lt fun entry ↦ ?_
  rw [(Khive.sortOn_perm _ _).mem_iff, (Khive.sortOn_perm _ _).mem_iff, hperm.mem_iff]

/-- What has been taken in, in the ordered map and in the prefix index. -/
structure Holds (seen : EntryIndex) (done : List TreeEntry) : Prop where
  get : ∀ path entry, seen.entries.get path = some entry ↔ entry ∈ done ∧ entry.path = path
  indexes : seen.prefixes.Indexes {s | ∃ entry ∈ done, entry.path.toList = s}

/-! ## The probe of the map -/

/-- What stands at or behind the name of a directory and before something in it is in it too. -/
theorem isPrefix_of_le {directory a b : List Char} (h : ¬a < directory) (hab : ¬b < a)
    (hb : directory <+: b) : directory <+: a := by
  obtain ⟨t, rfl⟩ := hb
  by_cases heq : a = directory ++ t
  · exact heq ▸ List.prefix_append _ _
  · exact isPrefix_of_lt h ((lt_or_gt_of_ne heq).resolve_right hab)

/-- The first entry from the name of a directory on is in the directory if any entry is. -/
theorem firstDescendant_isSome_iff (entries : OrderedMap String TreeEntry) (path : String) :
    (firstDescendant entries path).isSome = true ↔
      ∃ key entry, entries.get key = some entry ∧ (path ++ "/").toList <+: key.toList := by
  rw [firstDescendant, Option.isSome_filter]
  constructor
  · intro h
    cases hfind : entries.entries.find? fun e ↦ decide (path ++ "/" ≤ e.1) with
    | none =>
      rw [hfind] at h
      cases h
    | some found =>
      rw [hfind, Option.any_some] at h
      exact ⟨found.1, found.2, OrderedMap.get_eq_some.mpr (List.mem_of_find?_eq_some hfind),
        List.isPrefixOf_iff_prefix.mp h⟩
  · rintro ⟨key, entry, hget, hstart⟩
    have hmem := OrderedMap.get_eq_some.mp hget
    have hle : path ++ "/" ≤ key := by
      rw [← not_lt, String.lt_iff_toList_lt]
      exact not_lt_of_isPrefix hstart
    cases hfind : entries.entries.find? fun e ↦ decide (path ++ "/" ≤ e.1) with
    | none => exact absurd hle (by simpa using List.find?_eq_none.mp hfind _ hmem)
    | some found =>
      obtain ⟨hfound, before, after, hsplit, hbefore⟩ := List.find?_eq_some_iff_append.mp hfind
      -- nothing before what was found qualifies, so the key stands at or behind it
      have hkey : found.1 ≤ key := by
        have hsorted := entries.sorted
        rw [hsplit] at hmem hsorted
        rcases List.mem_append.mp hmem with hmem | hmem
        · exact absurd (decide_eq_true hle) (by simpa using hbefore _ hmem)
        · rcases List.mem_cons.mp hmem with rfl | hmem
          · exact le_rfl
          · exact (List.rel_of_pairwise_cons (List.pairwise_append.mp hsorted).2.1 hmem).le
      rw [Option.any_some]
      refine List.isPrefixOf_iff_prefix.mpr (isPrefix_of_le ?_ ?_ hstart)
      · rw [← String.lt_iff_toList_lt, not_lt]
        exact of_decide_eq_true hfound
      · rwa [← String.lt_iff_toList_lt, not_lt]

/-! ## One entry -/

section Insert

variable {unprintable : Char → Bool} {seen : EntryIndex} {done : List TreeEntry}
  {entry : TreeEntry}

theorem holds_empty : Holds EntryIndex.empty [] := by
  refine ⟨fun path entry ↦ iff_of_false nofun nofun, ?_⟩
  have hset : {s : List Char | ∃ entry ∈ ([] : List TreeEntry), entry.path.toList = s} = ∅ := by
    ext s
    exact iff_of_false (by rintro ⟨_, hmem, -⟩; cases hmem) nofun
  rw [hset]
  exact PrefixIndex.indexes_empty

/-- An entry is taken in when it collides with nothing that has been, and is refused otherwise. -/
theorem insertEntry_spec (h : Holds seen done) (entry : TreeEntry) :
    ((∀ old ∈ done, ¬Collides old.path entry.path) ∧
      ∃ seen', insertEntry unprintable seen entry = some (.ok seen') ∧
        Holds seen' (done ++ [entry])) ∨
    ((∃ old ∈ done, Collides old.path entry.path) ∧
      ∃ e, insertEntry unprintable seen entry = some (.error e)) := by
  rw [insertEntry]
  by_cases hdup : (seen.entries.get entry.path).isSome = true
  · right
    rw [if_pos hdup]
    obtain ⟨old, hold⟩ := Option.isSome_iff_exists.mp hdup
    obtain ⟨hmem, hpath⟩ := (h.get _ _).mp hold
    exact ⟨⟨old, hmem, Or.inl hpath⟩, _, rfl⟩
  rw [if_neg hdup]
  obtain ⟨parent, hparent, hsome, hnone⟩ :=
    PrefixIndex.firstPrefix_spec h.indexes entry.path.toList false
  rw [PrefixIndex.firstParent, hparent, Option.bind_some]
  cases parent with
  | some existing =>
    right
    obtain ⟨⟨old, hmem, hold⟩, hcovers⟩ := hsome existing rfl
    -- a file already stands where the path has a directory
    refine ⟨⟨old, hmem, Or.inr (Or.inl ?_)⟩, _, rfl⟩
    rw [String.toList_append, hold]
    exact hcovers.resolve_right fun hexact ↦ Bool.false_ne_true hexact.1
  | none =>
    have hdescendant := firstDescendant_isSome_iff seen.entries entry.path
    cases hfirst : firstDescendant seen.entries entry.path with
    | some existing =>
      right
      obtain ⟨key, old, hget, hstart⟩ := hdescendant.mp (by rw [hfirst]; rfl)
      obtain ⟨hmem, rfl⟩ := (h.get _ _).mp hget
      -- the path is a directory of a file that is already there
      exact ⟨⟨old, hmem, Or.inr (Or.inr hstart)⟩, _, rfl⟩
    | none =>
      left
      obtain ⟨prefixes, hprefixes, hindexes⟩ :=
        PrefixIndex.insert_spec h.indexes entry.path.toList
      refine ⟨?_, _, by rw [hprefixes]; rfl, ?_, ?_⟩
      · rintro old hmem (heq | hunder | hover)
        · exact hdup (Option.isSome_iff_exists.mpr ⟨old, (h.get _ _).mpr ⟨hmem, heq⟩⟩)
        · refine hnone rfl old.path.toList ⟨old, hmem, rfl⟩ (Or.inl ?_)
          rwa [String.toList_append] at hunder
        · have hsome' := hdescendant.mpr ⟨old.path, old, (h.get _ _).mpr ⟨hmem, rfl⟩, hover⟩
          rw [hfirst] at hsome'
          cases hsome'
      · intro path other
        rw [OrderedMap.get_insert, List.mem_append, List.mem_singleton]
        split_ifs with hpath
        · subst hpath
          constructor
          · intro hother
            obtain rfl := Option.some.inj hother
            exact ⟨Or.inr rfl, rfl⟩
          · rintro ⟨hmem | rfl, heq⟩
            · exact absurd (Option.isSome_iff_exists.mpr ⟨other, (h.get _ _).mpr ⟨hmem, heq⟩⟩) hdup
            · rfl
        · rw [h.get]
          refine and_congr_left fun heq ↦ (or_iff_left ?_).symm
          rintro rfl
          exact hpath heq.symm
      · -- the index of prefixes has the new path besides the old ones
        have hset : {s | ∃ e ∈ done ++ [entry], e.path.toList = s} =
            Set.insert entry.path.toList {s | ∃ e ∈ done, e.path.toList = s} := by
          ext s
          constructor
          · rintro ⟨e, hmem, rfl⟩
            rcases List.mem_append.mp hmem with hmem | hmem
            · exact Or.inr ⟨e, hmem, rfl⟩
            · obtain rfl := List.mem_singleton.mp hmem
              exact Or.inl rfl
          · rintro (rfl | ⟨e, hmem, rfl⟩)
            · exact ⟨entry, List.mem_append_right _ List.mem_cons_self, rfl⟩
            · exact ⟨e, List.mem_append_left _ hmem, rfl⟩
        rw [hset]
        exact hindexes

/-- The loop takes all entries in when none of them collide, and stops at a collision otherwise. -/
theorem insertEach_spec {β : Type} {read : β → Except InvalidInput TreeEntry} {items : List β}
    {entries : List TreeEntry} (h : Holds seen done) (hclear : Clear done)
    (hread : List.Forall₂ (fun item entry ↦ read item = .ok entry) items entries) :
    (Clear (done ++ entries) ∧
      ∃ seen', insertEach unprintable read seen items = some (.ok seen') ∧
        Holds seen' (done ++ entries)) ∨
    (¬Clear (done ++ entries) ∧
      ∃ e, insertEach unprintable read seen items = some (.error e)) := by
  induction hread generalizing seen done with
  | nil =>
    left
    rw [List.append_nil]
    exact ⟨hclear, seen, rfl, h⟩
  | @cons item entry items entries hitem hitems ih =>
    rw [insertEach, hitem]
    have hsplit : done ++ entry :: entries = (done ++ [entry]) ++ entries := by simp
    have hstep := @insertEntry_spec unprintable _ _ h entry
    rcases hstep with
      ⟨hnot, seen', hinsert, hseen'⟩ | ⟨⟨old, hold, hcollides⟩, e, hinsert⟩
    · have hclear' : Clear (done ++ [entry]) := by
        refine List.pairwise_append.mpr ⟨hclear, List.pairwise_singleton _ _, fun a ha b hb ↦ ?_⟩
        obtain rfl := List.mem_singleton.mp hb
        exact hnot a ha
      simp only [hinsert, Option.bind_some, hsplit]
      exact ih hseen' hclear'
    · right
      refine ⟨fun hall ↦ ?_, e, by simp only [hinsert, Option.bind_some]⟩
      exact (List.pairwise_append.mp hall).2.2 old hold entry List.mem_cons_self hcollides

/-- The map has the entries in the order of their paths. -/
theorem Holds.intoSortedEntries (h : Holds seen done) (hclear : Clear done) :
    seen.intoSortedEntries = sortOn TreeEntry.path done := by
  have hkey : ∀ e ∈ seen.entries.entries, e.2.path = e.1 := fun e he ↦
    ((h.get e.1 e.2).mp (OrderedMap.get_eq_some.mpr he)).2
  have hvalues : seen.entries.values.Pairwise fun a b ↦ a.path < b.path := by
    refine List.pairwise_map.mpr (seen.entries.sorted.imp_of_mem fun {a b} ha hb hlt ↦ ?_)
    rw [hkey a ha, hkey b hb]
    exact hlt
  refine SortedMap.eq_of_mem_iff hvalues hclear.sortOn_lt fun entry ↦ ?_
  rw [EntryIndex.intoSortedEntries, OrderedMap.mem_values, (sortOn_perm _ _).mem_iff]
  constructor
  · rintro ⟨path, hget⟩
    exact ((h.get _ _).mp hget).1
  · intro hmem
    exact ⟨entry.path, (h.get _ _).mpr ⟨hmem, rfl⟩⟩

end Insert

/-! ## Lists of entries -/

/-- An entry whose path, reference and mode pass their checks. -/
structure Valid (unprintable : Char → Bool) (entry : TreeEntry) : Prop where
  path : validateRelativePath unprintable entry.path "entry" = .ok entry.path
  contentRef : contentRefFromHex unprintable entry.contentRef = .ok entry.contentRef
  mode : isMode entry.mode.toNat = true

section Validate

variable {unprintable : Char → Bool} {entry : TreeEntry} {entries : List TreeEntry}

theorem Valid.checkRef (h : Valid unprintable entry) :
    checkRef unprintable entry.path entry.contentRef = .ok () := by
  rw [Tree.checkRef, h.contentRef]

theorem Valid.checkMode (h : Valid unprintable entry) :
    checkMode unprintable entry.path entry.mode.toNat = .ok () := if_pos h.mode

theorem Valid.readEntry (h : Valid unprintable entry) :
    readEntry unprintable entry = .ok entry := by
  rw [Tree.readEntry, h.path]
  change (Tree.checkRef unprintable entry.path entry.contentRef >>= fun _ ↦ _) = _
  rw [h.checkRef]
  change (Tree.checkMode unprintable entry.path entry.mode.toNat >>= fun _ ↦ _) = _
  rw [h.checkMode]
  rfl

/-- The JSON form of an entry is read as the entry. -/
theorem Valid.readItem_toJson (h : Valid unprintable entry) :
    readItem unprintable entry.toJson = .ok entry := by
  have hpath : (member entry.toJson "path").bind asStr = some entry.path := rfl
  have href : (member entry.toJson "ref").bind asStr = some entry.contentRef := rfl
  have hmode : (member entry.toJson "mode").bind asU64 = some entry.mode.toUInt64 := rfl
  rw [readItem, hpath, href, hmode]
  change (validateRelativePath unprintable entry.path "entry" >>= fun _ ↦ _) = _
  rw [h.path]
  change (Tree.checkRef unprintable entry.path entry.contentRef >>= fun _ ↦ _) = _
  rw [h.checkRef]
  change (Tree.checkMode unprintable entry.path entry.mode.toUInt64.toNat >>= fun _ ↦ _) = _
  rw [UInt32.toNat_toUInt64, h.checkMode]
  change Except.ok (TreeEntry.mk entry.path entry.contentRef entry.mode.toUInt64.toUInt32) = _
  rw [UInt32.toUInt32_toUInt64]

/-- What the loop makes of items that are read as the entries. -/
theorem insertEach_entries {β : Type} {read : β → Except InvalidInput TreeEntry} {items : List β}
    (hread : List.Forall₂ (fun item entry ↦ read item = .ok entry) items entries) :
    ∃ outcome, (insertEach unprintable read .empty items).map
        (fun outcome ↦ outcome.map EntryIndex.intoSortedEntries) = some outcome ∧
      ∀ result, outcome = .ok result ↔ Clear entries ∧ result = sortOn TreeEntry.path entries := by
  have hrun := @insertEach_spec unprintable _ _ _ _ _ _ holds_empty List.Pairwise.nil hread
  rcases hrun with
    ⟨hclear, seen, hseen, hholds⟩ | ⟨hnot, e, he⟩
  · rw [List.nil_append] at hclear hholds
    refine ⟨.ok seen.intoSortedEntries, by rw [hseen]; rfl, fun result ↦ ?_⟩
    rw [Except.ok.injEq, hholds.intoSortedEntries hclear, eq_comm]
    exact (and_iff_right hclear).symm
  · rw [List.nil_append] at hnot
    exact ⟨.error e, by rw [he]; rfl, fun result ↦ iff_of_false nofun fun h ↦ hnot h.1⟩

theorem validateEntries_spec (h : ∀ entry ∈ entries, Valid unprintable entry) :
    ∃ outcome, validateEntries unprintable entries = some outcome ∧
      ∀ result, outcome = .ok result ↔
        Clear entries ∧ result = sortOn TreeEntry.path entries := by
  refine insertEach_entries ?_
  rw [List.forall₂_same]
  exact fun entry hmem ↦ (h entry hmem).readEntry

theorem parseEntries_spec (h : ∀ entry ∈ entries, Valid unprintable entry) :
    ∃ outcome, parseEntries unprintable (.array (entries.map TreeEntry.toJson)) = some outcome ∧
      ∀ result, outcome = .ok result ↔
        Clear entries ∧ result = sortOn TreeEntry.path entries := by
  refine insertEach_entries ?_
  rw [List.forall₂_map_left_iff, List.forall₂_same]
  exact fun entry hmem ↦ (h entry hmem).readItem_toJson

end Validate

/-- The prefix index is exact, and entries make a tree exactly when no two of them collide. -/
theorem prefixIndex_exact (unprintable : Char → Bool) :
    (∀ paths : List String, ∃ coverage, PathCoverage.new paths = some coverage ∧
      ∀ q, ∃ covered, coverage.covers q = some covered ∧
        (covered = true ↔ ∃ p ∈ paths, q = p ∨ (p ++ "/").toList <+: q.toList)) ∧
    (∀ ordered : List String, ∃ index, ordered.foldlM
        (fun prefixes path ↦ PrefixIndex.insert prefixes path.toList) PrefixIndex.empty =
          some index ∧
      ∀ q, ∃ covered, PathCoverage.covers ⟨index⟩ q = some covered ∧
        (covered = true ↔ ∃ p ∈ ordered, q = p ∨ (p ++ "/").toList <+: q.toList)) ∧
    ∀ entries : List TreeEntry, (∀ entry ∈ entries, Valid unprintable entry) →
      (∃ outcome, validateEntries unprintable entries = some outcome ∧
        ∀ result, outcome = .ok result ↔
          Clear entries ∧ result = sortOn TreeEntry.path entries) ∧
      (∃ outcome, parseEntries unprintable (.array (entries.map TreeEntry.toJson)) =
          some outcome ∧
        ∀ result, outcome = .ok result ↔
          Clear entries ∧ result = sortOn TreeEntry.path entries) ∧
      ∀ entries', entries.Perm entries' → ∀ result,
        validateEntries unprintable entries = some (.ok result) ↔
          validateEntries unprintable entries' = some (.ok result) := by
  refine ⟨PathCoverage.covers_new, PathCoverage.covers_foldlM_insert, fun entries h ↦
    ⟨validateEntries_spec h, parseEntries_spec h, fun entries' hperm result ↦ ?_⟩⟩
  have hresult : ∀ {entries : List TreeEntry}, (∀ entry ∈ entries, Valid unprintable entry) →
      (validateEntries unprintable entries = some (.ok result) ↔
        Clear entries ∧ result = sortOn TreeEntry.path entries) := by
    intro entries h
    obtain ⟨outcome, houtcome, hiff⟩ := validateEntries_spec h
    rw [houtcome, Option.some.injEq, hiff]
  rw [hresult h, hresult fun entry hmem ↦ h entry (hperm.mem_iff.mpr hmem)]
  constructor
  · rintro ⟨hclear, heq⟩
    exact ⟨(Clear.perm hperm).mp hclear, heq.trans (hclear.sortOn_perm hperm)⟩
  · rintro ⟨hclear, heq⟩
    exact ⟨(Clear.perm hperm).mpr hclear, heq.trans (hclear.sortOn_perm hperm.symm)⟩

/-- A file in a directory, and one whose name goes on where that of the directory ends. -/
theorem prefixIndex_exact_two :
    ∃ entries : List TreeEntry, entries.map TreeEntry.path = ["src/lib.rs", "src.md"] ∧
      ∃ outcome, validateEntries (fun _ ↦ false) entries = some outcome ∧
        ∀ result, outcome = .ok result ↔
          Clear entries ∧ result = sortOn TreeEntry.path entries := by
  obtain ⟨hex, hhex⟩ : ∃ hex, contentRefFromHex (fun _ ↦ false) hex = .ok hex :=
    ⟨"0123456789abcdef0123456789abcdef0123456789abcdef0123456789abcdef", by decide +kernel⟩
  have hpaths : validateRelativePath (fun _ ↦ false) "src/lib.rs" "entry" = .ok "src/lib.rs" ∧
      validateRelativePath (fun _ ↦ false) "src.md" "entry" = .ok "src.md" := by decide +kernel
  refine ⟨[⟨"src/lib.rs", hex, 644⟩, ⟨"src.md", hex, 755⟩], rfl,
    ((prefixIndex_exact fun _ ↦ false).2.2 _ fun entry hmem ↦ ?_).1⟩
  rcases List.mem_cons.mp hmem with rfl | hmem
  · exact ⟨hpaths.1, hhex, rfl⟩
  · obtain rfl := List.mem_singleton.mp hmem
    exact ⟨hpaths.2, hhex, rfl⟩

end Khive.Blob.Tree
