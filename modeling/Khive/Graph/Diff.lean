import Khive.Graph.State

/-!
# Differences between graph states

The difference of two states lists, for each substrate, the records that were added, the records
that were removed, and for the records in both the fields that differ. It is complete: carried out
on the old state it gives the new one. It is minimal, in that equal states have no difference. And
read backwards it is the difference the other way. Values compare by the program's own equality,
under which the two zeros are equal.

The comparison walks over the records of the old state and then over those of the new one. What it
collects is three filters of the two maps, `diffRecords_eq`, from which the rest follows record by
record.
-/

namespace Khive.Diff

/-- A complete added or removed record. -/
structure Record where
  id : Id128
  fields : Fields

/-- One changed top-level field; a side on which the field is missing is `none`. -/
structure FieldChange where
  field : String
  before : Option CanonicalValue
  after : Option CanonicalValue

/-- A record whose supplied fields changed, ordered by field. -/
structure ModifiedRecord where
  id : Id128
  changes : List FieldChange

/-- Additions, removals and changes, each ordered by identifier. -/
structure SubstrateDiff where
  added : List Record := []
  removed : List Record := []
  modified : List ModifiedRecord := []

/-- `SubstrateDiff::is_empty`. -/
def SubstrateDiff.isEmpty (d : SubstrateDiff) : Bool :=
  d.added.isEmpty && d.removed.isEmpty && d.modified.isEmpty

structure GraphDiff where
  entities : SubstrateDiff
  edges : SubstrateDiff
  notes : SubstrateDiff

/-- `GraphDiff::is_empty`. -/
def GraphDiff.isEmpty (d : GraphDiff) : Bool :=
  d.entities.isEmpty && d.edges.isEmpty && d.notes.isEmpty

/-! ## The comparison -/

/-- The changes of one record, over the fields of both its states. -/
def fieldChanges (fields next : Fields) : List FieldChange :=
  (OrderedMap.sortedSet (fields.keys ++ next.keys)).filterMap fun field ↦
    let old := fields.get field
    let new := next.get field
    if old != new then some ⟨field, old, new⟩ else none

/-- The step of the first loop of `diff_records`. -/
def compareOld (after : Records) (result : SubstrateDiff) (entry : Id128 × Fields) :
    SubstrateDiff :=
  match after.get entry.1 with
  | none => { result with removed := result.removed ++ [⟨entry.1, entry.2⟩] }
  | some next =>
    let changes := fieldChanges entry.2 next
    if changes.isEmpty then result
    else { result with modified := result.modified ++ [⟨entry.1, changes⟩] }

/-- The step of the second loop of `diff_records`. -/
def compareNew (before : Records) (result : SubstrateDiff) (entry : Id128 × Fields) :
    SubstrateDiff :=
  if before.containsKey entry.1 then result
  else { result with added := result.added ++ [⟨entry.1, entry.2⟩] }

/-- `diff_records`. -/
def diffRecords (before after : Records) : SubstrateDiff :=
  let result := before.entries.foldl (compareOld after) {}
  after.entries.foldl (compareNew before) result

/-- Compare validated graph states. -/
def diff (before after : GraphState) : GraphDiff where
  entities := diffRecords before.entities after.entities
  edges := diffRecords before.edges after.edges
  notes := diffRecords before.notes after.notes

/-! ## What a difference means -/

/-- Replace each listed field; where the new side is absent, the field goes. -/
def patchFields (changes : List FieldChange) (fields : Fields) : Fields :=
  changes.foldl
    (fun fields change ↦
      match change.after with
      | some value => fields.insert change.field value
      | none => fields.erase change.field)
    fields

/-- Patch a record that is there. -/
def patchRecord (records : Records) (m : ModifiedRecord) : Records :=
  match records.get m.id with
  | some fields => records.insert m.id (patchFields m.changes fields)
  | none => records

/-- Remove the removed records, insert the added ones and patch the modified ones. -/
def SubstrateDiff.apply (d : SubstrateDiff) (records : Records) : Records :=
  let kept := d.removed.foldl (fun records r ↦ records.erase r.id) records
  let grown := d.added.foldl (fun records r ↦ records.insert r.id r.fields) kept
  d.modified.foldl patchRecord grown

def GraphDiff.apply (d : GraphDiff) (state : GraphState) : GraphState where
  entities := d.entities.apply state.entities
  edges := d.edges.apply state.edges
  notes := d.notes.apply state.notes

/-- The change the other way. -/
def FieldChange.reverse (c : FieldChange) : FieldChange := ⟨c.field, c.after, c.before⟩

def ModifiedRecord.reverse (m : ModifiedRecord) : ModifiedRecord :=
  ⟨m.id, m.changes.map FieldChange.reverse⟩

/-- Added and removed records exchanged, and every change the other way. -/
def SubstrateDiff.reverse (d : SubstrateDiff) : SubstrateDiff where
  added := d.removed
  removed := d.added
  modified := d.modified.map ModifiedRecord.reverse

def GraphDiff.reverse (d : GraphDiff) : GraphDiff where
  entities := d.entities.reverse
  edges := d.edges.reverse
  notes := d.notes.reverse

/-! ## Fields -/

theorem mem_fieldChanges {fields next : Fields} {c : FieldChange} :
    c ∈ fieldChanges fields next ↔
      c.before = fields.get c.field ∧ c.after = next.get c.field ∧
        (fields.get c.field == next.get c.field) = false := by
  rw [fieldChanges, List.mem_filterMap]
  constructor
  · rintro ⟨field, -, heq⟩
    dsimp only at heq
    split_ifs at heq with hne
    obtain rfl := Option.some.inj heq
    exact ⟨rfl, rfl, Bool.not_eq_true' _ |>.mp hne⟩
  · obtain ⟨field, old, new⟩ := c
    dsimp only
    rintro ⟨rfl, rfl, hne⟩
    refine ⟨field, ?_, by rw [if_pos (by rw [bne, hne]; rfl)]⟩
    -- a field with neither an old nor a new value has not changed
    rw [OrderedMap.mem_sortedSet, List.mem_append, OrderedMap.mem_keys_iff,
      OrderedMap.mem_keys_iff]
    by_contra h
    rw [not_or, not_not, not_not] at h
    rw [h.1, h.2] at hne
    exact absurd hne (by decide)

theorem nodup_fieldChanges (fields next : Fields) :
    ((fieldChanges fields next).map FieldChange.field).Nodup := by
  rw [fieldChanges, List.nodup_iff_pairwise_ne, List.pairwise_map, List.pairwise_filterMap]
  refine (OrderedMap.sorted_sortedSet _).imp fun {f g} hlt b hb c hc ↦ ?_
  dsimp only at hb hc
  split_ifs at hb hc
  obtain rfl := Option.some.inj hb
  obtain rfl := Option.some.inj hc
  exact hlt.ne

theorem fieldChanges_eq_nil {fields next : Fields} :
    fieldChanges fields next = [] ↔ (fields == next) = true := by
  rw [OrderedMap.beq_iff_get, List.eq_nil_iff_forall_not_mem]
  constructor
  · intro h field
    by_contra hne
    rw [Bool.not_eq_true] at hne
    exact h ⟨field, fields.get field, next.get field⟩ (mem_fieldChanges.mpr ⟨rfl, rfl, hne⟩)
  · intro h c hc
    obtain ⟨-, -, hne⟩ := mem_fieldChanges.mp hc
    exact absurd (h c.field) (by rw [hne]; exact Bool.false_ne_true)

theorem fieldChanges_reverse (fields next : Fields) :
    fieldChanges next fields = (fieldChanges fields next).map FieldChange.reverse := by
  have hset : OrderedMap.sortedSet (next.keys ++ fields.keys) =
      OrderedMap.sortedSet (fields.keys ++ next.keys) :=
    OrderedMap.sortedSet_congr fun k ↦ by
      rw [List.mem_append, List.mem_append, or_comm]
  rw [fieldChanges, fieldChanges, hset, List.map_filterMap]
  refine List.filterMap_congr fun field _ ↦ ?_
  dsimp only
  have hcomm : (next.get field != fields.get field) = (fields.get field != next.get field) := by
    rw [bne, bne, BEq.comm]
  rw [hcomm]
  split_ifs
  · rfl
  · rfl

/-- Carried out on the old fields, the changes give the new ones. -/
theorem patchFields_fieldChanges (fields next : Fields) :
    (patchFields (fieldChanges fields next) fields == next) = true := by
  rw [OrderedMap.beq_iff_get]
  intro field
  have hget := OrderedMap.get_foldl (m := fields) (f := fun (fields : Fields) (c : FieldChange) ↦
      match c.after with
      | some value => fields.insert c.field value
      | none => fields.erase c.field)
    FieldChange.field (fun c _ ↦ c.after)
    (fun m c k ↦ by
      cases hafter : c.after with
      | some value => exact m.get_insert c.field k value
      | none => exact m.get_erase c.field k)
    (nodup_fieldChanges fields next)
  by_cases heq : (fields.get field == next.get field) = true
  · have hother : (patchFields (fieldChanges fields next) fields).get field = fields.get field := by
      refine hget.2 field fun hmem ↦ ?_
      obtain ⟨c, hc, rfl⟩ := List.mem_map.mp hmem
      obtain ⟨-, -, hne⟩ := mem_fieldChanges.mp hc
      exact absurd heq (by rw [hne]; exact Bool.false_ne_true)
    rw [hother]
    exact heq
  · rw [Bool.not_eq_true] at heq
    have hchanged := hget.1 ⟨field, fields.get field, next.get field⟩
      (mem_fieldChanges.mpr ⟨rfl, rfl, heq⟩)
    dsimp only at hchanged
    rw [patchFields, hchanged]
    exact BEq.refl _

/-! ## Records -/

/-- What is missing from the other map, as records. -/
def missing (records other : Records) : List Record :=
  records.entries.filterMap fun entry ↦
    if other.containsKey entry.1 then none else some ⟨entry.1, entry.2⟩

/-- The records in both maps that differ. -/
def modifications (before after : Records) : List ModifiedRecord :=
  before.entries.filterMap fun entry ↦
    match after.get entry.1 with
    | none => none
    | some next =>
      let changes := fieldChanges entry.2 next
      if changes.isEmpty then none else some ⟨entry.1, changes⟩

theorem foldl_compareOld (after : Records) (entries : List (Id128 × Fields)) (d : SubstrateDiff) :
    entries.foldl (compareOld after) d =
      { d with
        removed := d.removed ++ entries.filterMap fun entry ↦
          if after.containsKey entry.1 then none else some ⟨entry.1, entry.2⟩
        modified := d.modified ++ entries.filterMap fun entry ↦
          match after.get entry.1 with
          | none => none
          | some next =>
            let changes := fieldChanges entry.2 next
            if changes.isEmpty then none else some ⟨entry.1, changes⟩ } := by
  induction entries generalizing d with
  | nil => simp
  | cons entry entries ih =>
    rw [List.foldl_cons, ih, compareOld, List.filterMap_cons, List.filterMap_cons,
      OrderedMap.containsKey]
    cases hnext : after.get entry.1 with
    | none => simp
    | some next =>
      by_cases hempty : (fieldChanges entry.2 next).isEmpty
      · simp [hempty]
      · simp [hempty]

theorem foldl_compareNew (before : Records) (entries : List (Id128 × Fields))
    (d : SubstrateDiff) :
    entries.foldl (compareNew before) d =
      { d with
        added := d.added ++ entries.filterMap fun entry ↦
          if before.containsKey entry.1 then none else some ⟨entry.1, entry.2⟩ } := by
  induction entries generalizing d with
  | nil => simp
  | cons entry entries ih =>
    rw [List.foldl_cons, ih, compareNew, List.filterMap_cons]
    by_cases hkey : before.containsKey entry.1
    · simp [hkey]
    · simp [hkey]

/-- The two loops collect three filters of the maps. -/
theorem diffRecords_eq (before after : Records) :
    diffRecords before after =
      { added := missing after before
        removed := missing before after
        modified := modifications before after } := by
  rw [diffRecords, foldl_compareOld, foldl_compareNew, missing, missing, modifications]
  rfl

theorem mem_missing {records other : Records} {r : Record} :
    r ∈ missing records other ↔ records.get r.id = some r.fields ∧ other.get r.id = none := by
  rw [missing, List.mem_filterMap, OrderedMap.get_eq_some]
  constructor
  · rintro ⟨⟨id, fields⟩, hmem, heq⟩
    split_ifs at heq with hkey
    obtain rfl := Option.some.inj heq
    exact ⟨hmem, Option.not_isSome_iff_eq_none.mp hkey⟩
  · rintro ⟨hmem, hnone⟩
    refine ⟨(r.id, r.fields), hmem, ?_⟩
    rw [OrderedMap.containsKey, hnone]
    rfl

theorem mem_modifications {before after : Records} {m : ModifiedRecord} :
    m ∈ modifications before after ↔
      ∃ fields next, before.get m.id = some fields ∧ after.get m.id = some next ∧
        m.changes = fieldChanges fields next ∧ (fields == next) = false := by
  rw [modifications, List.mem_filterMap]
  constructor
  · rintro ⟨⟨id, fields⟩, hmem, heq⟩
    dsimp only at heq
    split at heq
    · cases heq
    · next next hnext =>
      split_ifs at heq with hempty
      obtain rfl := Option.some.inj heq
      refine ⟨fields, next, OrderedMap.get_eq_some.mpr hmem, hnext, rfl, ?_⟩
      rw [← Bool.not_eq_true, ← fieldChanges_eq_nil, ← List.isEmpty_iff]
      exact hempty
  · obtain ⟨id, changes⟩ := m
    dsimp only
    rintro ⟨fields, next, hfields, hnext, rfl, hne⟩
    refine ⟨(id, fields), OrderedMap.get_eq_some.mp hfields, ?_⟩
    have hchanges : ¬(fieldChanges fields next).isEmpty := by
      rw [List.isEmpty_iff, fieldChanges_eq_nil, hne]
      exact Bool.false_ne_true
    dsimp only
    rw [hnext]
    exact if_neg hchanges

theorem nodup_missing (records other : Records) :
    ((missing records other).map Record.id).Nodup :=
  SortedMap.nodup_of_sorted <| OrderedMap.sorted_filterMap Record.id fun e r heq ↦ by
    split_ifs at heq
    obtain rfl := Option.some.inj heq
    rfl

theorem sorted_modifications (before after : Records) :
    (modifications before after).Pairwise fun m n ↦ m.id < n.id :=
  OrderedMap.sorted_filterMap ModifiedRecord.id fun e m heq ↦ by
    dsimp only at heq
    split at heq
    · cases heq
    · split_ifs at heq
      obtain rfl := Option.some.inj heq
      rfl

theorem nodup_modifications (before after : Records) :
    ((modifications before after).map ModifiedRecord.id).Nodup :=
  SortedMap.nodup_of_sorted (sorted_modifications before after)

/-! ## Completeness -/

/-- Removing the removed records leaves what both maps have. -/
theorem get_removed (before after : Records) (id : Id128) :
    ((missing before after).foldl (fun records r ↦ records.erase r.id) before).get id =
      if after.get id = none then none else before.get id := by
  obtain ⟨hmem, hother⟩ := OrderedMap.get_foldl (m := before) Record.id (fun _ _ ↦ none)
    (fun m r k ↦ m.get_erase r.id k) (nodup_missing before after)
  by_cases hin : id ∈ (missing before after).map Record.id
  · obtain ⟨r, hr, rfl⟩ := List.mem_map.mp hin
    rw [hmem r hr, if_pos (mem_missing.mp hr).2]
  · rw [hother id hin]
    split_ifs with hafter
    · by_contra hbefore
      obtain ⟨fields, hfields⟩ := Option.ne_none_iff_exists'.mp hbefore
      exact hin (List.mem_map.mpr ⟨⟨id, fields⟩, mem_missing.mpr ⟨hfields, hafter⟩, rfl⟩)
    · rfl

/-- Inserting the added records gives what the new map has and the old one has not. -/
theorem get_added (before after records : Records) (id : Id128) :
    ((missing after before).foldl (fun records r ↦ records.insert r.id r.fields) records).get id =
      if before.get id = none then (after.get id).or (records.get id) else records.get id := by
  obtain ⟨hmem, hother⟩ := OrderedMap.get_foldl (m := records) Record.id
    (fun r _ ↦ some r.fields) (fun m r k ↦ m.get_insert r.id k r.fields)
    (nodup_missing after before)
  by_cases hin : id ∈ (missing after before).map Record.id
  · obtain ⟨r, hr, rfl⟩ := List.mem_map.mp hin
    obtain ⟨hafter, hbefore⟩ := mem_missing.mp hr
    rw [hmem r hr, if_pos hbefore, hafter]
    rfl
  · rw [hother id hin]
    split_ifs with hbefore
    · cases hafter : after.get id with
      | none => rfl
      | some fields =>
        exact absurd (List.mem_map.mpr ⟨⟨id, fields⟩, mem_missing.mpr ⟨hafter, hbefore⟩, rfl⟩) hin
    · rfl

theorem get_patchRecord (records : Records) (m : ModifiedRecord) (id : Id128) :
    (patchRecord records m).get id =
      if id = m.id then (records.get id).map (patchFields m.changes) else records.get id := by
  rw [patchRecord]
  split
  · next fields hfields =>
    rw [OrderedMap.get_insert]
    split_ifs with h
    · rw [h, hfields]
      rfl
    · rfl
  · next hnone =>
    split_ifs with h
    · rw [h, hnone]
      rfl
    · rfl

/-- Patching reaches the records that differ, and no others. -/
theorem get_modified (before after records : Records) (id : Id128) :
    (∀ fields next, before.get id = some fields → after.get id = some next →
      (fields == next) = false →
        ((modifications before after).foldl patchRecord records).get id =
          (records.get id).map (patchFields (fieldChanges fields next))) ∧
    ((∀ fields next, before.get id = some fields → after.get id = some next →
      (fields == next) = true) →
        ((modifications before after).foldl patchRecord records).get id = records.get id) := by
  obtain ⟨hmem, hother⟩ := OrderedMap.get_foldl (m := records) ModifiedRecord.id
    (fun m o ↦ o.map (patchFields m.changes))
    (fun m r k ↦ by
      rw [get_patchRecord])
    (nodup_modifications before after)
  constructor
  · intro fields next hfields hnext hne
    exact hmem ⟨id, fieldChanges fields next⟩
      (mem_modifications.mpr ⟨fields, next, hfields, hnext, rfl, hne⟩)
  · intro heq
    refine hother id fun hin ↦ ?_
    obtain ⟨m, hm, rfl⟩ := List.mem_map.mp hin
    obtain ⟨fields, next, hfields, hnext, -, hne⟩ := mem_modifications.mp hm
    exact absurd (heq fields next hfields hnext) (by rw [hne]; exact Bool.false_ne_true)

/-- Carried out on the old records, the difference gives the new ones. -/
theorem apply_diffRecords (before after : Records) :
    ((diffRecords before after).apply before == after) = true := by
  rw [OrderedMap.beq_iff_get, diffRecords_eq]
  intro id
  rw [SubstrateDiff.apply]
  dsimp only
  set kept := (missing before after).foldl (fun records r ↦ records.erase r.id) before
  set grown := (missing after before).foldl (fun records r ↦ records.insert r.id r.fields) kept
    with hgrown
  obtain ⟨hpatched, hsame⟩ := get_modified before after grown id
  have hkept : kept.get id = if after.get id = none then none else before.get id :=
    get_removed before after id
  have hadded := get_added before after kept id
  rw [← hgrown, hkept] at hadded
  -- where a side is missing there is nothing to patch
  have hone : before.get id = none ∨ after.get id = none →
      ((modifications before after).foldl patchRecord grown).get id = grown.get id := by
    rintro (h | h)
    · exact hsame fun fields next hfields _ ↦ absurd (h ▸ hfields) (Option.some_ne_none fields).symm
    · exact hsame fun fields next _ hnext ↦ absurd (h ▸ hnext) (Option.some_ne_none next).symm
  cases hbefore : before.get id with
  | none =>
    rw [hone (Or.inl hbefore), hadded, if_pos hbefore, hbefore, ite_self, Option.or_none]
    exact BEq.refl _
  | some fields =>
    have hne : ¬before.get id = none := by
      rw [hbefore]
      exact Option.some_ne_none fields
    rw [if_neg hne] at hadded
    cases hafter : after.get id with
    | none =>
      rw [hone (Or.inr hafter), hadded, if_pos hafter]
      rfl
    | some next =>
      have hne' : ¬after.get id = none := by
        rw [hafter]
        exact Option.some_ne_none next
      rw [if_neg hne', hbefore] at hadded
      by_cases heq : (fields == next) = true
      · rw [hsame fun f n hf hn ↦ ?_, hadded]
        · exact heq
        · obtain rfl := Option.some.inj (hbefore.symm.trans hf)
          obtain rfl := Option.some.inj (hafter.symm.trans hn)
          exact heq
      · rw [hpatched fields next hbefore hafter (Bool.not_eq_true _ ▸ heq), hadded]
        exact patchFields_fieldChanges fields next

/-! ## Minimality and reversal -/

theorem isEmpty_diffRecords (before after : Records) :
    (diffRecords before after).isEmpty = true ↔ (before == after) = true := by
  rw [diffRecords_eq, SubstrateDiff.isEmpty, Bool.and_eq_true, Bool.and_eq_true,
    List.isEmpty_iff, List.isEmpty_iff, List.isEmpty_iff, OrderedMap.beq_iff_get]
  simp only [List.eq_nil_iff_forall_not_mem, mem_missing, mem_modifications]
  constructor
  · rintro ⟨⟨hadded, hremoved⟩, hmodified⟩ id
    cases hbefore : before.get id with
    | none =>
      cases hafter : after.get id with
      | none => rfl
      | some next => exact absurd ⟨hafter, hbefore⟩ (hadded ⟨id, next⟩)
    | some fields =>
      cases hafter : after.get id with
      | none => exact absurd ⟨hbefore, hafter⟩ (hremoved ⟨id, fields⟩)
      | some next =>
        change (fields == next) = true
        by_contra hne
        rw [Bool.not_eq_true] at hne
        exact hmodified ⟨id, fieldChanges fields next⟩ ⟨fields, next, hbefore, hafter, rfl, hne⟩
  · intro h
    refine ⟨⟨?_, ?_⟩, ?_⟩
    · rintro ⟨id, next⟩ ⟨hafter, hbefore⟩
      have hid := h id
      rw [hbefore, hafter] at hid
      exact absurd hid Bool.false_ne_true
    · rintro ⟨id, fields⟩ ⟨hbefore, hafter⟩
      have hid := h id
      rw [hbefore, hafter] at hid
      exact absurd hid Bool.false_ne_true
    · rintro ⟨id, changes⟩ ⟨fields, next, hbefore, hafter, -, hne⟩
      have hid : (fields == next) = true := by
        have hid := h id
        rw [hbefore, hafter] at hid
        exact hid
      rw [hne] at hid
      exact absurd hid Bool.false_ne_true

theorem mem_reverse_modifications {before after : Records} {m : ModifiedRecord} :
    m ∈ (modifications before after).map ModifiedRecord.reverse ↔
      m ∈ modifications after before := by
  have hreverse : ∀ m : ModifiedRecord, m.reverse.reverse = m := fun m ↦ by
    rw [ModifiedRecord.reverse, ModifiedRecord.reverse, List.map_map]
    exact congrArg (ModifiedRecord.mk m.id) (List.map_id m.changes)
  have hback : ∀ {before after : Records} {m : ModifiedRecord}, m ∈ modifications before after →
      m.reverse ∈ modifications after before := by
    intro before after m hm
    obtain ⟨fields, next, hfields, hnext, hchanges, hne⟩ := mem_modifications.mp hm
    refine mem_modifications.mpr ⟨next, fields, hnext, hfields, ?_, ?_⟩
    · rw [fieldChanges_reverse, ← hchanges]
      rfl
    · rw [BEq.comm]
      exact hne
  rw [List.mem_map]
  constructor
  · rintro ⟨n, hn, rfl⟩
    exact hback hn
  · intro hm
    exact ⟨m.reverse, hback hm, hreverse m⟩

theorem diffRecords_reverse (before after : Records) :
    diffRecords after before = (diffRecords before after).reverse := by
  rw [diffRecords_eq, diffRecords_eq, SubstrateDiff.reverse]
  have hmodified : modifications after before =
      (modifications before after).map ModifiedRecord.reverse := by
    apply SortedMap.eq_of_mem_iff (sorted_modifications after before)
    · rw [List.pairwise_map]
      exact sorted_modifications before after
    · exact fun m ↦ mem_reverse_modifications.symm
  rw [hmodified]

/-! ## States -/

theorem apply_diff (before after : GraphState) :
    ((diff before after).apply before == after) = true := by
  change (_ && _ && _) = true
  rw [Bool.and_eq_true, Bool.and_eq_true]
  exact ⟨⟨apply_diffRecords _ _, apply_diffRecords _ _⟩, apply_diffRecords _ _⟩

theorem isEmpty_diff (before after : GraphState) :
    (diff before after).isEmpty = true ↔ (before == after) = true := by
  change _ ↔ (_ && _ && _) = true
  rw [GraphDiff.isEmpty, Bool.and_eq_true, Bool.and_eq_true, Bool.and_eq_true, Bool.and_eq_true]
  exact and_congr (and_congr (isEmpty_diffRecords _ _) (isEmpty_diffRecords _ _))
    (isEmpty_diffRecords _ _)

theorem diff_reverse (before after : GraphState) :
    diff after before = (diff before after).reverse := by
  rw [diff, diffRecords_reverse before.entities, diffRecords_reverse before.edges,
    diffRecords_reverse before.notes]
  rfl

/-- **A difference is the whole difference and nothing else.** Carried out on the old state it
gives the new one, it is empty exactly between equal states, and the difference the other way is the
same one read backwards. -/
theorem diff_complete_minimal_reversible (before after : GraphState) :
    ((diff before after).apply before == after) = true ∧
      ((diff before after).isEmpty = true ↔ (before == after) = true) ∧
      diff after before = (diff before after).reverse :=
  ⟨apply_diff before after, isEmpty_diff before after, diff_reverse before after⟩

end Khive.Diff
