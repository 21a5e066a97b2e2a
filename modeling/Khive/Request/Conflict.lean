import Khive.Foundation.OrderedEq
import Khive.Query.Ast
import Khive.Request.Types

/-!
# Static write conflicts

Units of a batch run side by side, so two units that write the same record must not both be
dispatched. What an operation writes is read off its arguments as a list of keys. One function finds
the units that share a key and the conflicts between them, another the leaves that take part.

The first walks over the units once and remembers for each key who claimed it first. Later claims
are reported against that claim only, in both directions. That is enough for every unit that shares
a key to have an entry, since the first claimant gets one with the first conflict. Hash maps are
iterated over in an order of their own, which is a parameter of the model.
-/

namespace Khive

/-! ## Write keys -/

/-- A string literal among the arguments. -/
def ParsedOp.stringArg (op : ParsedOp) (name : String) : Option String :=
  match op.args.lookup name with
  | some (.value (.string s)) => some s
  | _ => none

/-- The key `push_link_key` adds: a natural edge key, with the endpoints of known symmetric
relations in order. -/
def linkKey (source target relation : String) : String :=
  let parsed := EdgeRelation.fromStr relation
  let relationKey := parsed.elim relation EdgeRelation.asStr
  let endpoints := parsed.elim (source, target) fun r ↦ r.canonicalEndpoints source target
  "edge-natural:" ++ endpoints.1 ++ ":" ++ endpoints.2 ++ ":" ++ relationKey

/-- An argument of `link` that is a string literal. The alias is read only when the canonical name
is absent. -/
def ParsedOp.linkArg (op : ParsedOp) (canonical alternative : String) : Option String :=
  match (op.args.lookup canonical).or (op.args.lookup alternative) with
  | some (.value (.string s)) => some s
  | _ => none

/-- The key of one object of a bulk link. -/
def bulkLinkKey (link : JsonValue) : Option String := do
  let obj ← link.asObject
  let field := fun name ↦ (getMember obj name).bind fun
    | .string s => some s
    | _ => none
  let source ← field "source_id"
  let target ← field "target_id"
  let relation ← field "relation"
  some (linkKey source target relation)

/-- `write_keys_for_op_pub`. -/
def writeKeysForOpPub (op : ParsedOp) : List String :=
  match op.tool with
  | "update" | "delete" => (op.stringArg "id").toList.map ("entity:" ++ ·)
  | "merge" =>
    -- a dry run reads the pair and writes no record
    let previewsWithoutWriting := match op.args.lookup "dry_run" with
      | some (.value (.bool true)) => true
      | _ => false
    if previewsWithoutWriting then []
    else ["into_id", "from_id"].filterMap fun name ↦ (op.stringArg name).map ("entity:" ++ ·)
  | "link" =>
    let single := do
      let s ← op.linkArg "source_id" "source"
      let t ← op.linkArg "target_id" "target"
      let r ← op.linkArg "relation" "kind"
      some (linkKey s t r)
    let bulk := match op.args.lookup "links" with
      | some (.value (.array links)) => links.filterMap bulkLinkKey
      | _ => []
    single.toList ++ bulk
  | _ => []

/-! ## Participants -/

/-- `entry(key).or_default().push(index)`, over the keys of one operation. -/
def claimKeys (claims : OrderedMap String (List Nat)) (entry : ParsedOp × Nat) :
    OrderedMap String (List Nat) :=
  (writeKeysForOpPub entry.1).foldl
    (fun claims key ↦ claims.insert key ((claims.get key).getD [] ++ [entry.2])) claims

/-- `key_claims`. -/
def keyClaims (ops : List ParsedOp) : OrderedMap String (List Nat) :=
  ops.zipIdx.foldl claimKeys OrderedMap.empty

/-- `participants_for_keys`. -/
def participantsForKeys (count : Nat) (keys : List (List Nat)) : List (List Nat) :=
  keys.foldl
    (fun participants claims ↦
      let claims := OrderedMap.sortedSet claims
      claims.foldl
        (fun participants index ↦
          participants.modify index fun set ↦ OrderedMap.sortedSet (set ++ claims))
        participants)
    (List.replicate count [])

/-- The leaves of a range. -/
def OpRange.leaves (range : OpRange) : List Nat :=
  List.range' range.start (range.stop - range.start)

/-- The unit of every leaf. -/
def unitOf (count : Nat) (ranges : List OpRange) : List Nat :=
  ranges.zipIdx.foldl
    (fun unitOf entry ↦ entry.1.leaves.foldl (fun unitOf leaf ↦ unitOf.set leaf entry.2) unitOf)
    (List.replicate count 0)

/-- Some claim of a key is in another unit than the first. -/
def spansUnits (unitOf claims : List Nat) : Bool :=
  claims.any fun leaf ↦ unitOf.getD leaf 0 != unitOf.getD (claims.getD 0 0) 0

section Order

variable (order : List (List Nat) → List (List Nat))

/-- `write_key_conflict_ops`; `order` is the order of `into_values`. -/
def writeKeyConflictOps (ops : List ParsedOp) : List (List Nat) :=
  participantsForKeys ops.length
    ((order (keyClaims ops).values).filter fun claims ↦ decide (claims.length > 1))

/-- `unit_write_key_conflict_ops`; `order` is the order of `into_values`. -/
def unitWriteKeyConflictOps (ops : List ParsedOp) (ranges : List OpRange) : List (List Nat) :=
  participantsForKeys ops.length
    ((order (keyClaims ops).values).filter (spansUnits (unitOf ops.length ranges)))

end Order

/-! ## Conflicts between units -/

/-- One cross-unit static write-key conflict: `leaf` claims the same key as `otherLeaf` of the
unit `otherUnit`. -/
structure UnitKeyConflict where
  key : String
  leaf : Nat
  otherUnit : Nat
  otherLeaf : Nat
  deriving DecidableEq

/-- The keys of a unit, each with the leaf it occurs in first. -/
def unitKeys (ops : List ParsedOp) (range : OpRange) : OrderedMap String Nat :=
  range.leaves.foldl
    (fun keys leaf ↦
      ((ops[leaf]?).elim [] writeKeysForOpPub).foldl
        (fun keys key ↦ if keys.containsKey key then keys else keys.insert key leaf) keys)
    OrderedMap.empty

/-- Who claimed each key first, and the conflicts found so far. -/
structure ConflictScan where
  firstClaim : OrderedMap String (Nat × Nat)
  conflicts : OrderedMap Nat (List UnitKeyConflict)

/-- `entry(unit).or_default().push(conflict)`. -/
def pushConflict (conflicts : OrderedMap Nat (List UnitKeyConflict)) (unit : Nat)
    (conflict : UnitKeyConflict) : OrderedMap Nat (List UnitKeyConflict) :=
  conflicts.insert unit ((conflicts.get unit).getD [] ++ [conflict])

/-- The body of the inner loop, on the leaf in which a unit claims a key. -/
def claimKey (unit : Nat) (scan : ConflictScan) (entry : String × Nat) : ConflictScan :=
  match scan.firstClaim.get entry.1 with
  | some (otherUnit, otherLeaf) =>
    if otherUnit ≠ unit then
      { scan with
        conflicts := pushConflict
          (pushConflict scan.conflicts unit ⟨entry.1, entry.2, otherUnit, otherLeaf⟩)
          otherUnit ⟨entry.1, otherLeaf, unit, entry.2⟩ }
    else scan
  | none => { scan with firstClaim := scan.firstClaim.insert entry.1 (unit, entry.2) }

/-- `Vec::dedup`. -/
def dedupAdjacent {α : Type} [DecidableEq α] : List α → List α
  | [] => []
  | [a] => [a]
  | a :: b :: rest => if a = b then dedupAdjacent (b :: rest) else a :: dedupAdjacent (b :: rest)

/-- `sort_by_key` on the two leaves, then `dedup`. -/
def tidyConflicts (entries : List UnitKeyConflict) : List UnitKeyConflict :=
  dedupAdjacent (entries.mergeSort fun a b ↦
    decide (a.leaf < b.leaf) || (a.leaf == b.leaf && decide (a.otherLeaf ≤ b.otherLeaf)))

/-- `values_mut`, in place. -/
def mapValues {κ α β : Type} [LinearOrder κ] (f : α → β) (m : OrderedMap κ α) : OrderedMap κ β :=
  ⟨m.entries.map fun e ↦ (e.1, f e.2), by
    rw [SortedMap.Sorted, List.pairwise_map]
    exact m.sorted⟩

/-- `unit_write_key_conflicts`; `order` is the order in which the keys of a unit are iterated
over. -/
def unitWriteKeyConflicts (order : List (String × Nat) → List (String × Nat))
    (ops : List ParsedOp) (ranges : List OpRange) : OrderedMap Nat (List UnitKeyConflict) :=
  let perUnitKeys := ranges.map (unitKeys ops)
  let scan := perUnitKeys.zipIdx.foldl
    (fun scan entry ↦ (order entry.1.entries).foldl (claimKey entry.2) scan)
    ⟨OrderedMap.empty, OrderedMap.empty⟩
  mapValues tidyConflicts scan.conflicts

/-! ## What a leaf claims -/

/-- The leaf claims the key. -/
def Claims (ops : List ParsedOp) (leaf : Nat) (key : String) : Prop :=
  ∃ op, ops[leaf]? = some op ∧ key ∈ writeKeysForOpPub op

theorem mem_claimKeys {claims : OrderedMap String (List Nat)} {entry : ParsedOp × Nat}
    {key : String} {leaf : Nat} :
    leaf ∈ ((claimKeys claims entry).get key).getD [] ↔
      leaf ∈ (claims.get key).getD [] ∨ leaf = entry.2 ∧ key ∈ writeKeysForOpPub entry.1 := by
  rw [claimKeys]
  induction writeKeysForOpPub entry.1 generalizing claims with
  | nil => simp
  | cons k keys ih =>
    rw [List.foldl_cons, ih, OrderedMap.get_insert, List.mem_cons]
    by_cases hk : key = k
    · subst hk
      rw [if_pos rfl, Option.getD_some, List.mem_append, List.mem_singleton]
      tauto
    · rw [if_neg hk]
      tauto

theorem mem_keyClaims {ops : List ParsedOp} {key : String} {leaf : Nat} :
    leaf ∈ ((keyClaims ops).get key).getD [] ↔ Claims ops leaf key := by
  have hrun : ∀ entries : List (ParsedOp × Nat),
      leaf ∈ ((entries.foldl claimKeys OrderedMap.empty).get key).getD [] ↔
        ∃ op, (op, leaf) ∈ entries ∧ key ∈ writeKeysForOpPub op := by
    intro entries
    induction entries using List.reverseRecOn with
    | nil => simp
    | append_singleton entries entry ih =>
      rw [List.foldl_append, List.foldl_cons, List.foldl_nil, mem_claimKeys, ih]
      simp only [List.mem_append, List.mem_singleton]
      constructor
      · rintro (⟨op, hmem, hkey⟩ | ⟨rfl, hkey⟩)
        · exact ⟨op, Or.inl hmem, hkey⟩
        · exact ⟨entry.1, Or.inr rfl, hkey⟩
      · rintro ⟨op, hmem | rfl, hkey⟩
        · exact Or.inl ⟨op, hmem, hkey⟩
        · exact Or.inr ⟨rfl, hkey⟩
  rw [keyClaims, hrun]
  simp only [Claims, List.mem_zipIdx_iff_getElem?]

/-- The lists of claims are, for each key, the leaves that claim it. -/
theorem exists_values_keyClaims (ops : List ParsedOp) {P : List Nat → Prop}
    (hP : ∀ claims, P claims → claims ≠ []) :
    (∃ claims ∈ (keyClaims ops).values, P claims) ↔
      ∃ key, P (((keyClaims ops).get key).getD []) := by
  constructor
  · rintro ⟨claims, hmem, hclaims⟩
    obtain ⟨key, hkey⟩ := OrderedMap.mem_values.mp hmem
    exact ⟨key, by rw [hkey]; exact hclaims⟩
  · rintro ⟨key, hclaims⟩
    cases hkey : (keyClaims ops).get key with
    | none =>
      rw [hkey] at hclaims
      exact absurd rfl (hP _ hclaims)
    | some claims =>
      rw [hkey] at hclaims
      exact ⟨claims, OrderedMap.mem_values.mpr ⟨key, hkey⟩, hclaims⟩

/-! ## Participants -/

theorem foldl_modify {f : List Nat → List Nat} {indices : List Nat} (hnodup : indices.Nodup)
    (participants : List (List Nat)) (i : Nat) :
    (indices.foldl (fun ps index ↦ ps.modify index f) participants)[i]? =
      if i ∈ indices then participants[i]?.map f else participants[i]? := by
  induction indices generalizing participants with
  | nil => simp
  | cons index indices ih =>
    obtain ⟨hindex, hnodup⟩ := List.nodup_cons.mp hnodup
    rw [List.foldl_cons, ih hnodup]
    by_cases hi : i = index
    · subst hi
      rw [if_neg hindex, if_pos List.mem_cons_self, List.getElem?_modify_eq]
      rfl
    · rw [List.getElem?_modify_ne _ _ (Ne.symm hi)]
      simp only [List.mem_cons, hi, false_or]

/-- The participants of a leaf are the leaves it shares one of the lists with. -/
theorem participantsForKeys_spec (count : Nat) (keys : List (List Nat)) {i : Nat}
    (hi : i < count) :
    ∃ set, (participantsForKeys count keys)[i]? = some set ∧ set.Pairwise (· < ·) ∧
      ∀ j, j ∈ set ↔ ∃ claims ∈ keys, i ∈ claims ∧ j ∈ claims := by
  rw [participantsForKeys]
  induction keys using List.reverseRecOn with
  | nil =>
    refine ⟨[], ?_, List.Pairwise.nil, by simp⟩
    rw [List.foldl_nil, List.getElem?_replicate, if_pos hi]
  | append_singleton keys claims ih =>
    obtain ⟨set, hset, hsorted, hmem⟩ := ih
    have hnodup : (OrderedMap.sortedSet claims).Nodup :=
      (OrderedMap.sorted_sortedSet claims).imp fun h ↦ h.ne
    rw [List.foldl_append, List.foldl_cons, List.foldl_nil]
    dsimp only
    rw [foldl_modify hnodup, hset]
    by_cases hin : i ∈ OrderedMap.sortedSet claims
    · rw [if_pos hin]
      refine ⟨_, rfl, OrderedMap.sorted_sortedSet _, fun j ↦ ?_⟩
      rw [OrderedMap.mem_sortedSet, List.mem_append, OrderedMap.mem_sortedSet, hmem]
      rw [OrderedMap.mem_sortedSet] at hin
      constructor
      · rintro (⟨claims', hmem', hshared⟩ | hj)
        · exact ⟨claims', List.mem_append_left _ hmem', hshared⟩
        · exact ⟨claims, List.mem_append_right _ (List.mem_singleton_self _), hin, hj⟩
      · rintro ⟨claims', hmem', hshared⟩
        rcases List.mem_append.mp hmem' with hmem' | hmem'
        · exact Or.inl ⟨claims', hmem', hshared⟩
        · exact Or.inr (List.mem_singleton.mp hmem' ▸ hshared.2)
    · rw [if_neg hin]
      refine ⟨set, rfl, hsorted, fun j ↦ (hmem j).trans ?_⟩
      rw [OrderedMap.mem_sortedSet] at hin
      constructor
      · rintro ⟨claims', hmem', hshared⟩
        exact ⟨claims', List.mem_append_left _ hmem', hshared⟩
      · rintro ⟨claims', hmem', hshared⟩
        rcases List.mem_append.mp hmem' with hmem' | hmem'
        · exact ⟨claims', hmem', hshared⟩
        · exact absurd (List.mem_singleton.mp hmem' ▸ hshared.1) hin

/-! ## Units -/

/-- The leaf is in the range of the unit. -/
def InUnit (ranges : List OpRange) (unit leaf : Nat) : Prop :=
  ∃ range, ranges[unit]? = some range ∧ leaf ∈ range.leaves

/-- Every leaf is in one range, and the ranges hold nothing else. -/
structure Partitions (ranges : List OpRange) (count : Nat) : Prop where
  covers : ∀ leaf < count, ∃ unit, InUnit ranges unit leaf
  within : ∀ unit leaf, InUnit ranges unit leaf → leaf < count
  disjoint : ∀ unit unit' leaf, InUnit ranges unit leaf → InUnit ranges unit' leaf → unit = unit'

theorem OpRange.mem_leaves {range : OpRange} {leaf : Nat} :
    leaf ∈ range.leaves ↔ range.start ≤ leaf ∧ leaf < range.stop := by
  rw [OpRange.leaves, List.mem_range'_1]
  omega

theorem foldl_set {leaves : List Nat} {unit : Nat} (units : List Nat) (leaf : Nat) :
    (leaves.foldl (fun units leaf ↦ units.set leaf unit) units)[leaf]? =
      if leaf ∈ leaves then units[leaf]?.map fun _ ↦ unit else units[leaf]? := by
  induction leaves generalizing units with
  | nil => simp
  | cons first leaves ih =>
    rw [List.foldl_cons, ih]
    by_cases hfirst : leaf = first
    · subst hfirst
      rw [List.getElem?_set_self', if_pos List.mem_cons_self]
      split_ifs
      · cases units[leaf]? <;> rfl
      · rfl
    · rw [List.getElem?_set_ne (Ne.symm hfirst)]
      simp only [List.mem_cons, hfirst, false_or]

/-- A leaf is recorded under its unit. -/
theorem unitOf_eq {ranges : List OpRange} {count unit leaf : Nat}
    (hpart : Partitions ranges count) (hleaf : InUnit ranges unit leaf) :
    (unitOf count ranges).getD leaf 0 = unit := by
  have hcount := hpart.within unit leaf hleaf
  have hrun : ∀ entries : List (OpRange × Nat),
      (∀ entry ∈ entries, ranges[entry.2]? = some entry.1) →
        ∃ value, (entries.foldl
          (fun units entry ↦ entry.1.leaves.foldl (fun units leaf ↦ units.set leaf entry.2) units)
          (List.replicate count 0))[leaf]? = some value ∧
          ((∃ entry ∈ entries, leaf ∈ entry.1.leaves) → value = unit) := by
    intro entries hentries
    induction entries using List.reverseRecOn with
    | nil =>
      refine ⟨0, ?_, by simp⟩
      rw [List.foldl_nil, List.getElem?_replicate, if_pos hcount]
    | append_singleton entries entry ih =>
      obtain ⟨value, hvalue, hunit⟩ := ih fun e he ↦ hentries e (List.mem_append_left _ he)
      rw [List.foldl_append, List.foldl_cons, List.foldl_nil, foldl_set, hvalue]
      by_cases hin : leaf ∈ entry.1.leaves
      · rw [if_pos hin]
        -- the range has the leaf, so its unit is the one the leaf is in
        have hrange := hentries entry (List.mem_append_right _ (List.mem_singleton_self _))
        exact ⟨entry.2, rfl, fun _ ↦
          hpart.disjoint entry.2 unit leaf ⟨entry.1, hrange, hin⟩ hleaf⟩
      · rw [if_neg hin]
        refine ⟨value, rfl, fun ⟨e, he, hmem⟩ ↦ ?_⟩
        rcases List.mem_append.mp he with he | he
        · exact hunit ⟨e, he, hmem⟩
        · exact absurd (List.mem_singleton.mp he ▸ hmem) hin
  obtain ⟨value, hvalue, hunit⟩ := hrun ranges.zipIdx fun entry hentry ↦
    List.mem_zipIdx_iff_getElem?.mp hentry
  obtain ⟨range, hrange, hmem⟩ := hleaf
  rw [List.getD_eq_getElem?_getD, unitOf, hvalue, Option.getD_some]
  exact hunit ⟨(range, unit), List.mem_zipIdx_iff_getElem?.mpr hrange, hmem⟩

/-- The key is claimed in two units. -/
def SpansUnits (ops : List ParsedOp) (ranges : List OpRange) (key : String) : Prop :=
  ∃ unit leaf unit' leaf', InUnit ranges unit leaf ∧ InUnit ranges unit' leaf' ∧ unit ≠ unit' ∧
    Claims ops leaf key ∧ Claims ops leaf' key

theorem spansUnits_iff {units claims : List Nat} :
    spansUnits units claims = true ↔
      ∃ leaf ∈ claims, ∃ leaf' ∈ claims, units.getD leaf 0 ≠ units.getD leaf' 0 := by
  rw [spansUnits, List.any_eq_true]
  constructor
  · rintro ⟨leaf, hleaf, hne⟩
    refine ⟨leaf, hleaf, claims.getD 0 0, ?_, bne_iff_ne.mp hne⟩
    cases claims with
    | nil => exact absurd hleaf List.not_mem_nil
    | cons first claims => exact List.mem_cons_self
  · rintro ⟨leaf, hleaf, leaf', hleaf', hne⟩
    -- one of the two differs from the first claim
    by_cases hfirst : units.getD leaf 0 = units.getD (claims.getD 0 0) 0
    · exact ⟨leaf', hleaf', bne_iff_ne.mpr fun h ↦ hne (hfirst.trans h.symm)⟩
    · exact ⟨leaf, hleaf, bne_iff_ne.mpr hfirst⟩

theorem Claims.lt {ops : List ParsedOp} {leaf : Nat} {key : String} (h : Claims ops leaf key) :
    leaf < ops.length := by
  obtain ⟨op, hop, -⟩ := h
  exact (List.getElem?_eq_some_iff.mp hop).1

theorem spansUnits_keyClaims {ops : List ParsedOp} {ranges : List OpRange}
    (hpart : Partitions ranges ops.length) (key : String) :
    spansUnits (unitOf ops.length ranges) (((keyClaims ops).get key).getD []) = true ↔
      SpansUnits ops ranges key := by
  rw [spansUnits_iff]
  constructor
  · rintro ⟨leaf, hleaf, leaf', hleaf', hne⟩
    have hclaim := mem_keyClaims.mp hleaf
    have hclaim' := mem_keyClaims.mp hleaf'
    obtain ⟨unit, hunit⟩ := hpart.covers leaf hclaim.lt
    obtain ⟨unit', hunit'⟩ := hpart.covers leaf' hclaim'.lt
    rw [unitOf_eq hpart hunit, unitOf_eq hpart hunit'] at hne
    exact ⟨unit, leaf, unit', leaf', hunit, hunit', hne, hclaim, hclaim'⟩
  · rintro ⟨unit, leaf, unit', leaf', hunit, hunit', hne, hclaim, hclaim'⟩
    refine ⟨leaf, mem_keyClaims.mpr hclaim, leaf', mem_keyClaims.mpr hclaim', ?_⟩
    rw [unitOf_eq hpart hunit, unitOf_eq hpart hunit']
    exact hne

/-- A leaf is given the leaves that share a key with it that spans two units. -/
theorem unitWriteKeyConflictOps_spec {order : List (List Nat) → List (List Nat)}
    (horder : ∀ values, (order values).Perm values) {ops : List ParsedOp} {ranges : List OpRange}
    (hpart : Partitions ranges ops.length) {i : Nat} (hi : i < ops.length) :
    ∃ set, (unitWriteKeyConflictOps order ops ranges)[i]? = some set ∧ set.Pairwise (· < ·) ∧
      ∀ j, j ∈ set ↔
        ∃ key, SpansUnits ops ranges key ∧ Claims ops i key ∧ Claims ops j key := by
  obtain ⟨set, hset, hsorted, hmem⟩ := participantsForKeys_spec ops.length
    ((order (keyClaims ops).values).filter (spansUnits (unitOf ops.length ranges))) hi
  refine ⟨set, hset, hsorted, fun j ↦ (hmem j).trans ?_⟩
  simp only [List.mem_filter, (horder _).mem_iff, and_assoc]
  rw [exists_values_keyClaims ops
    (P := fun claims ↦
      spansUnits (unitOf ops.length ranges) claims = true ∧ i ∈ claims ∧ j ∈ claims)
    fun claims h ↦ List.ne_nil_of_mem h.2.1]
  refine exists_congr fun key ↦ ?_
  rw [spansUnits_keyClaims hpart, mem_keyClaims, mem_keyClaims]

end Khive
