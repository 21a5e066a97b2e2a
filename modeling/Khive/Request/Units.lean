import Khive.Request.Conflict
import Khive.Request.Shape

/-!
# Conflicts between units

The scan for conflicts is two loops, over the units and over the keys of each. Laid end to end they
read one list of claims, a leaf of a unit for every key the unit claims, and the invariant of the
scan is about the claims read so far: who claimed a key first, and which later claims of other units
were reported against it.

A unit that shares a key with another has an entry then. Either some other unit was first, and the
unit's own claim was reported, or the unit itself was first, and the other's claim was reported back
to it.
-/

namespace Khive

/-! ## Claims of units -/

/-- A key of a unit, with the leaf the unit first claims it in. -/
structure UnitClaim where
  unit : Nat
  key : String
  leaf : Nat

theorem get_foldl_keys {keys : List String} {leaf : Nat} (claimed : OrderedMap String Nat)
    (key : String) :
    (keys.foldl
      (fun claimed key ↦ if claimed.containsKey key then claimed else claimed.insert key leaf)
      claimed).get key =
      (claimed.get key).or (if key ∈ keys then some leaf else none) := by
  induction keys generalizing claimed with
  | nil => simp
  | cons k keys ih =>
    rw [List.foldl_cons, ih, OrderedMap.containsKey]
    by_cases hk : key = k
    · subst hk
      cases hget : claimed.get key with
      | none => simp [OrderedMap.get_insert]
      | some first => simp [hget]
    · have hsame : (if (claimed.get k).isSome = true then claimed
          else claimed.insert k leaf).get key = claimed.get key := by
        split_ifs
        · rfl
        · rw [OrderedMap.get_insert, if_neg hk]
      rw [hsame]
      simp only [List.mem_cons, hk, false_or]

/-- A unit holds a key with one of its leaves that claim it, and holds every key they claim. -/
theorem unitKeys_spec (ops : List ParsedOp) (range : OpRange) (key : String) :
    (∀ leaf, (unitKeys ops range).get key = some leaf → leaf ∈ range.leaves ∧ Claims ops leaf key) ∧
      (∀ leaf ∈ range.leaves, Claims ops leaf key →
        ∃ first, (unitKeys ops range).get key = some first) := by
  rw [unitKeys]
  induction range.leaves using List.reverseRecOn with
  | nil => simp
  | append_singleton leaves leaf ih =>
    obtain ⟨hfound, hcomplete⟩ := ih
    rw [List.foldl_append, List.foldl_cons, List.foldl_nil, get_foldl_keys]
    have hclaims : key ∈ (ops[leaf]?).elim [] writeKeysForOpPub ↔ Claims ops leaf key := by
      rw [Claims]
      cases ops[leaf]? <;> simp
    constructor
    · intro found h
      rcases Option.or_eq_some_iff.mp h with h | ⟨-, h⟩
      · obtain ⟨hmem, hclaim⟩ := hfound found h
        exact ⟨List.mem_append_left _ hmem, hclaim⟩
      · split_ifs at h with hclaim
        obtain rfl := Option.some.inj h
        exact ⟨List.mem_append_right _ (List.mem_singleton_self _), hclaims.mp hclaim⟩
    · intro claimant hmem hclaim
      rcases List.mem_append.mp hmem with hmem | hmem
      · obtain ⟨first, hfirst⟩ := hcomplete claimant hmem hclaim
        exact ⟨first, by rw [hfirst]; rfl⟩
      · obtain rfl := List.mem_singleton.mp hmem
        rw [if_pos (hclaims.mpr hclaim)]
        exact Option.isSome_iff_exists.mp (by simp)

/-- The claims in the order the two loops read them. -/
def unitClaims (order : List (String × Nat) → List (String × Nat)) (ops : List ParsedOp)
    (ranges : List OpRange) : List UnitClaim :=
  (ranges.map (unitKeys ops)).zipIdx.flatMap fun entry ↦
    (order entry.1.entries).map fun claim ↦ ⟨entry.2, claim.1, claim.2⟩

section Claimed

variable {order : List (String × Nat) → List (String × Nat)}
  (horder : ∀ keys, (order keys).Perm keys) {ops : List ParsedOp} {ranges : List OpRange}

include horder

theorem mem_unitClaims {c : UnitClaim} :
    c ∈ unitClaims order ops ranges ↔
      ∃ range, ranges[c.unit]? = some range ∧ (unitKeys ops range).get c.key = some c.leaf := by
  rw [unitClaims, List.mem_flatMap]
  simp only [List.mem_map, (horder _).mem_iff]
  constructor
  · rintro ⟨⟨keys, unit⟩, hentry, ⟨key, leaf⟩, hclaim, rfl⟩
    have hunit := List.mem_zipIdx_iff_getElem?.mp hentry
    rw [List.getElem?_map] at hunit
    obtain ⟨range, hrange, rfl⟩ := Option.map_eq_some_iff.mp hunit
    exact ⟨range, hrange, OrderedMap.get_eq_some.mpr hclaim⟩
  · rintro ⟨range, hrange, hclaim⟩
    refine ⟨(unitKeys ops range, c.unit), List.mem_zipIdx_iff_getElem?.mpr ?_, (c.key, c.leaf),
      OrderedMap.get_eq_some.mp hclaim, rfl⟩
    rw [List.getElem?_map, hrange]
    rfl

theorem claims_of_mem {c : UnitClaim} (hc : c ∈ unitClaims order ops ranges) :
    InUnit ranges c.unit c.leaf ∧ Claims ops c.leaf c.key := by
  obtain ⟨range, hrange, hget⟩ := (mem_unitClaims horder).mp hc
  obtain ⟨hmem, hclaim⟩ := (unitKeys_spec ops range c.key).1 c.leaf hget
  exact ⟨⟨range, hrange, hmem⟩, hclaim⟩

theorem exists_claim {unit leaf : Nat} {key : String} (hunit : InUnit ranges unit leaf)
    (hclaim : Claims ops leaf key) :
    ∃ first, (⟨unit, key, first⟩ : UnitClaim) ∈ unitClaims order ops ranges := by
  obtain ⟨range, hrange, hmem⟩ := hunit
  obtain ⟨first, hfirst⟩ := (unitKeys_spec ops range key).2 leaf hmem hclaim
  exact ⟨first, (mem_unitClaims horder).mpr ⟨range, hrange, hfirst⟩⟩

end Claimed

/-! ## The scan -/

/-- The claim of a key that is read first. -/
def firstOf (claims : List UnitClaim) (key : String) : Option UnitClaim :=
  claims.find? fun c ↦ c.key == key

/-- The conflict filed under the unit of the first claim. -/
def UnitClaim.against (c other : UnitClaim) : UnitKeyConflict :=
  ⟨c.key, c.leaf, other.unit, other.leaf⟩

/-- A later claim of another unit, reported against the first one and back. -/
def Reported (claims : List UnitClaim) (unit : Nat) (conflict : UnitKeyConflict) : Prop :=
  ∃ later ∈ claims, ∃ first, firstOf claims later.key = some first ∧ first.unit ≠ later.unit ∧
    (unit = later.unit ∧ conflict = later.against first ∨
      unit = first.unit ∧ conflict = first.against later)

/-- What the scan knows after some claims. -/
structure Scanned (claims : List UnitClaim) (scan : ConflictScan) : Prop where
  first : ∀ key, scan.firstClaim.get key = (firstOf claims key).map fun c ↦ (c.unit, c.leaf)
  reported : ∀ unit conflict,
    conflict ∈ (scan.conflicts.get unit).getD [] ↔ Reported claims unit conflict
  nonempty : ∀ unit, scan.conflicts.get unit ≠ some []

theorem firstOf_append {claims : List UnitClaim} {c : UnitClaim} {key : String} :
    firstOf (claims ++ [c]) key =
      (firstOf claims key).or (if c.key = key then some c else none) := by
  rw [firstOf, List.find?_append, List.find?_singleton, firstOf]
  by_cases h : c.key = key <;> simp [h]

theorem key_of_firstOf {claims : List UnitClaim} {key : String} {c : UnitClaim}
    (h : firstOf claims key = some c) : c ∈ claims ∧ c.key = key := by
  have hkey : (c.key == key) = true := List.find?_some (p := fun c : UnitClaim ↦ c.key == key) h
  exact ⟨List.mem_of_find?_eq_some h, beq_iff_eq.mp hkey⟩

theorem firstOf_ne_none {claims : List UnitClaim} {c : UnitClaim} (h : c ∈ claims) :
    firstOf claims c.key ≠ none := by
  rw [firstOf, ne_eq, List.find?_eq_none, not_forall]
  exact ⟨c, fun h' ↦ h' h (beq_self_eq_true _)⟩

/-- What one more claim adds to the reports. -/
theorem reported_append {claims : List UnitClaim} {c : UnitClaim} {unit : Nat}
    {conflict : UnitKeyConflict} :
    Reported (claims ++ [c]) unit conflict ↔
      Reported claims unit conflict ∨
        ∃ first, firstOf claims c.key = some first ∧ first.unit ≠ c.unit ∧
          (unit = c.unit ∧ conflict = c.against first ∨
            unit = first.unit ∧ conflict = first.against c) := by
  have hkept : ∀ later ∈ claims, firstOf (claims ++ [c]) later.key = firstOf claims later.key := by
    intro later hlater
    obtain ⟨first, hfirst⟩ := Option.ne_none_iff_exists'.mp (firstOf_ne_none hlater)
    rw [firstOf_append, hfirst]
    rfl
  constructor
  · rintro ⟨later, hlater, first, hfirst, hne, hfiled⟩
    rcases List.mem_append.mp hlater with hlater | hlater
    · rw [hkept later hlater] at hfirst
      exact Or.inl ⟨later, hlater, first, hfirst, hne, hfiled⟩
    · obtain rfl := List.mem_singleton.mp hlater
      rw [firstOf_append] at hfirst
      rcases Option.or_eq_some_iff.mp hfirst with hfirst | ⟨-, hself⟩
      · exact Or.inr ⟨first, hfirst, hne, hfiled⟩
      · -- the first claim of a key is not reported against itself
        rw [if_pos rfl] at hself
        exact absurd (congrArg UnitClaim.unit (Option.some.inj hself)).symm hne
  · rintro (⟨later, hlater, first, hfirst, hne, hfiled⟩ | ⟨first, hfirst, hne, hfiled⟩)
    · rw [← hkept later hlater] at hfirst
      exact ⟨later, List.mem_append_left _ hlater, first, hfirst, hne, hfiled⟩
    · refine ⟨c, List.mem_append_right _ (List.mem_singleton_self _), first, ?_, hne, hfiled⟩
      rw [firstOf_append, hfirst]
      rfl

theorem mem_pushConflict {conflicts : OrderedMap Nat (List UnitKeyConflict)} {unit unit' : Nat}
    {conflict conflict' : UnitKeyConflict} :
    conflict' ∈ ((pushConflict conflicts unit conflict).get unit').getD [] ↔
      conflict' ∈ (conflicts.get unit').getD [] ∨ unit' = unit ∧ conflict' = conflict := by
  rw [pushConflict, OrderedMap.get_insert]
  split_ifs with h
  · rw [h, Option.getD_some, List.mem_append, List.mem_singleton]
    simp
  · simp [h]

theorem pushConflict_ne_nil {conflicts : OrderedMap Nat (List UnitKeyConflict)} {unit : Nat}
    {conflict : UnitKeyConflict} (h : ∀ unit, conflicts.get unit ≠ some []) (unit' : Nat) :
    (pushConflict conflicts unit conflict).get unit' ≠ some [] := by
  rw [pushConflict, OrderedMap.get_insert]
  split_ifs
  · simp
  · exact h unit'

/-- One claim read. -/
theorem Scanned.claimKey {claims : List UnitClaim} {scan : ConflictScan}
    (h : Scanned claims scan) (c : UnitClaim) :
    Scanned (claims ++ [c]) (Khive.claimKey c.unit scan (c.key, c.leaf)) := by
  rw [Khive.claimKey]
  dsimp only
  rw [h.first]
  cases hfirst : firstOf claims c.key with
  | none =>
    -- the first claim of its key conflicts with nothing yet
    refine ⟨fun key ↦ ?_, fun unit conflict ↦ ?_, h.nonempty⟩
    · change (scan.firstClaim.insert c.key (c.unit, c.leaf)).get key = _
      rw [OrderedMap.get_insert, firstOf_append]
      by_cases hkey : key = c.key
      · rw [if_pos hkey, hkey, hfirst, if_pos rfl]
        rfl
      · rw [if_neg hkey, if_neg (Ne.symm hkey), Option.or_none]
        exact h.first key
    · rw [reported_append]
      refine (h.reported unit conflict).trans ⟨Or.inl, fun hor ↦ hor.elim id ?_⟩
      rintro ⟨first, heq, -⟩
      rw [hfirst] at heq
      cases heq
  | some first =>
    have hkeys : ∀ key, scan.firstClaim.get key =
        (firstOf (claims ++ [c]) key).map fun c ↦ (c.unit, c.leaf) := by
      intro key
      rw [h.first, firstOf_append]
      by_cases hkey : c.key = key
      · rw [← hkey, hfirst]
        rfl
      · rw [if_neg hkey, Option.or_none]
    dsimp only [Option.map_some]
    -- a later claim is filed with both units, unless it is of the unit that claimed first
    by_cases hunit : first.unit ≠ c.unit
    · rw [if_pos hunit]
      refine ⟨hkeys, fun unit conflict ↦ ?_,
        pushConflict_ne_nil (pushConflict_ne_nil h.nonempty)⟩
      dsimp only
      rw [mem_pushConflict, mem_pushConflict, h.reported, reported_append, or_assoc]
      refine or_congr_right ?_
      have hkey := (key_of_firstOf hfirst).2
      constructor
      · rintro (⟨hu, hc⟩ | ⟨hu, hc⟩)
        · exact ⟨first, hfirst, hunit, Or.inl ⟨hu, hc⟩⟩
        · refine ⟨first, hfirst, hunit, Or.inr ⟨hu, ?_⟩⟩
          rw [hc, UnitClaim.against, hkey]
      · rintro ⟨first', hfirst', -, hfiled⟩
        obtain rfl := Option.some.inj (hfirst.symm.trans hfirst')
        rw [UnitClaim.against, UnitClaim.against, hkey] at hfiled
        exact hfiled
    · rw [if_neg hunit]
      refine ⟨hkeys, fun unit conflict ↦ ?_, h.nonempty⟩
      rw [reported_append]
      refine (h.reported unit conflict).trans ⟨Or.inl, fun hor ↦ hor.elim id ?_⟩
      rintro ⟨first', hfirst', hne, -⟩
      obtain rfl := Option.some.inj (hfirst.symm.trans hfirst')
      exact absurd hne hunit

/-- All claims read. -/
theorem scanned_foldl (claims : List UnitClaim) :
    Scanned claims (claims.foldl (fun scan c ↦ claimKey c.unit scan (c.key, c.leaf))
      ⟨OrderedMap.empty, OrderedMap.empty⟩) := by
  induction claims using List.reverseRecOn with
  | nil =>
    refine ⟨fun _ ↦ rfl, fun unit conflict ↦ ?_, fun _ ↦ by simp⟩
    simp [Reported]
  | append_singleton claims c ih =>
    rw [List.foldl_append, List.foldl_cons, List.foldl_nil]
    exact ih.claimKey c

/-! ## The conflict map -/

theorem mem_dedupAdjacent {α : Type} [DecidableEq α] {xs : List α} {x : α} :
    x ∈ dedupAdjacent xs ↔ x ∈ xs := by
  fun_induction dedupAdjacent xs with
  | case1 => rfl
  | case2 a => rfl
  | case3 b rest ih =>
    rw [ih, List.mem_cons, List.mem_cons]
    simp
  | case4 a b rest hne ih =>
    rw [List.mem_cons, ih]
    exact List.mem_cons.symm

theorem mem_tidyConflicts {entries : List UnitKeyConflict} {conflict : UnitKeyConflict} :
    conflict ∈ tidyConflicts entries ↔ conflict ∈ entries := by
  rw [tidyConflicts, mem_dedupAdjacent, List.mem_mergeSort]

theorem get_mapValues {κ α β : Type} [LinearOrder κ] (f : α → β) (m : OrderedMap κ α) (k : κ) :
    (mapValues f m).get k = (m.get k).map f := by
  apply Option.ext
  intro b
  rw [OrderedMap.get_eq_some, mapValues, List.mem_map, Option.map_eq_some_iff]
  simp only [OrderedMap.get_eq_some]
  constructor
  · rintro ⟨⟨k', a⟩, hmem, heq⟩
    obtain ⟨rfl, rfl⟩ := Prod.mk.inj heq
    exact ⟨a, hmem, rfl⟩
  · rintro ⟨a, hmem, rfl⟩
    exact ⟨(k, a), hmem, rfl⟩

section Conflicts

variable {order : List (String × Nat) → List (String × Nat)} {ops : List ParsedOp}
  {ranges : List OpRange}

/-- The map lists what the scan has reported. -/
theorem mem_unitWriteKeyConflicts {unit : Nat} {conflict : UnitKeyConflict} :
    conflict ∈ ((unitWriteKeyConflicts order ops ranges).get unit).getD [] ↔
      Reported (unitClaims order ops ranges) unit conflict := by
  have hscan := scanned_foldl (unitClaims order ops ranges)
  rw [unitClaims, List.foldl_flatMap] at hscan
  simp only [List.foldl_map] at hscan
  rw [unitWriteKeyConflicts, get_mapValues, unitClaims, ← hscan.reported]
  cases OrderedMap.get _ unit with
  | none => rfl
  | some entries => exact mem_tidyConflicts

/-- A unit has an entry exactly when something is listed under it. -/
theorem containsKey_unitWriteKeyConflicts {unit : Nat} :
    (unitWriteKeyConflicts order ops ranges).containsKey unit = true ↔
      ∃ conflict, Reported (unitClaims order ops ranges) unit conflict := by
  have hscan := scanned_foldl (unitClaims order ops ranges)
  rw [unitClaims, List.foldl_flatMap] at hscan
  simp only [List.foldl_map] at hscan
  rw [unitWriteKeyConflicts, OrderedMap.containsKey, get_mapValues, unitClaims, Option.isSome_map]
  simp only [← hscan.reported]
  have hnonempty := hscan.nonempty unit
  cases hentries : OrderedMap.get _ unit with
  | none => simp
  | some entries =>
    rw [hentries] at hnonempty
    refine iff_of_true rfl (List.exists_mem_of_ne_nil entries fun h ↦ hnonempty (by rw [h]))

/-- What is reported is reported from the other side, too. -/
theorem Reported.symm {claims : List UnitClaim} {unit : Nat} {conflict : UnitKeyConflict}
    (h : Reported claims unit conflict) :
    Reported claims conflict.otherUnit
      ⟨conflict.key, conflict.otherLeaf, unit, conflict.leaf⟩ := by
  obtain ⟨later, hlater, first, hfirst, hne, ⟨rfl, rfl⟩ | ⟨rfl, rfl⟩⟩ := h
  · refine ⟨later, hlater, first, hfirst, hne, Or.inr ⟨rfl, ?_⟩⟩
    rw [UnitClaim.against, UnitClaim.against, (key_of_firstOf hfirst).2]
  · refine ⟨later, hlater, first, hfirst, hne, Or.inl ⟨rfl, ?_⟩⟩
    rw [UnitClaim.against, UnitClaim.against, (key_of_firstOf hfirst).2]

theorem exists_reported_iff {claims : List UnitClaim} {unit : Nat} :
    (∃ conflict, Reported claims unit conflict) ↔
      ∃ c ∈ claims, ∃ other ∈ claims, c.unit = unit ∧ other.unit ≠ unit ∧ c.key = other.key := by
  constructor
  · rintro ⟨conflict, later, hlater, first, hfirst, hne, ⟨rfl, -⟩ | ⟨rfl, -⟩⟩
    · obtain ⟨hmem, hkey⟩ := key_of_firstOf hfirst
      exact ⟨later, hlater, first, hmem, rfl, hne, hkey.symm⟩
    · obtain ⟨hmem, hkey⟩ := key_of_firstOf hfirst
      exact ⟨first, hmem, later, hlater, rfl, Ne.symm hne, hkey⟩
  · rintro ⟨c, hc, other, hother, rfl, hne, hkey⟩
    obtain ⟨first, hfirst⟩ := Option.ne_none_iff_exists'.mp (firstOf_ne_none hc)
    by_cases hunit : first.unit = c.unit
    · -- the unit was first itself, and the other unit was reported back to it
      refine ⟨first.against other, other, hother, first, hkey ▸ hfirst, ?_,
        Or.inr ⟨hunit.symm, rfl⟩⟩
      rw [hunit]
      exact Ne.symm hne
    · exact ⟨c.against first, c, hc, first, hfirst, hunit, Or.inl ⟨rfl, rfl⟩⟩

variable (horder : ∀ keys, (order keys).Perm keys)

include horder

/-- A unit has an entry exactly when it shares a key with another unit. -/
theorem containsKey_iff {unit : Nat} :
    (unitWriteKeyConflicts order ops ranges).containsKey unit = true ↔
      ∃ key leaf other leaf', InUnit ranges unit leaf ∧ Claims ops leaf key ∧
        other ≠ unit ∧ InUnit ranges other leaf' ∧ Claims ops leaf' key := by
  rw [containsKey_unitWriteKeyConflicts, exists_reported_iff]
  constructor
  · rintro ⟨c, hc, other, hother, rfl, hne, hkey⟩
    obtain ⟨hunit, hclaim⟩ := claims_of_mem horder hc
    obtain ⟨hunit', hclaim'⟩ := claims_of_mem horder hother
    exact ⟨c.key, c.leaf, other.unit, other.leaf, hunit, hclaim, hne, hunit', hkey ▸ hclaim'⟩
  · rintro ⟨key, leaf, other, leaf', hunit, hclaim, hne, hunit', hclaim'⟩
    obtain ⟨first, hfirst⟩ := exists_claim horder hunit hclaim
    obtain ⟨first', hfirst'⟩ := exists_claim horder hunit' hclaim'
    exact ⟨_, hfirst, _, hfirst', rfl, hne, rfl⟩

/-- What is listed under a unit is a key that it shares with the other unit. -/
theorem conflict_spec {unit : Nat} {conflict : UnitKeyConflict}
    (h : conflict ∈ ((unitWriteKeyConflicts order ops ranges).get unit).getD []) :
    InUnit ranges unit conflict.leaf ∧ Claims ops conflict.leaf conflict.key ∧
      InUnit ranges conflict.otherUnit conflict.otherLeaf ∧
      Claims ops conflict.otherLeaf conflict.key ∧ conflict.otherUnit ≠ unit := by
  obtain ⟨later, hlater, first, hfirst, hne, hfiled⟩ := mem_unitWriteKeyConflicts.mp h
  obtain ⟨hmem, hkey⟩ := key_of_firstOf hfirst
  obtain ⟨hunit, hclaim⟩ := claims_of_mem horder hlater
  obtain ⟨hunit', hclaim'⟩ := claims_of_mem horder hmem
  rcases hfiled with ⟨rfl, rfl⟩ | ⟨rfl, rfl⟩
  · rw [hkey] at hclaim'
    exact ⟨hunit, hclaim, hunit', hclaim', hne⟩
  · rw [← hkey] at hclaim
    exact ⟨hunit', hclaim', hunit, hclaim, Ne.symm hne⟩

end Conflicts

/-! ## The ranges of a parsed request -/

theorem Tiles.le {start stop : Nat} {ranges : List OpRange} (h : Tiles start ranges stop) :
    start ≤ stop := by
  induction ranges generalizing start with
  | nil => exact le_of_eq h
  | cons range ranges ih =>
    obtain ⟨rfl, hlt, hrest⟩ := h
    exact hlt.le.trans (ih hrest)

/-- Tiles cover every number once. -/
theorem Tiles.inUnit {start stop : Nat} {ranges : List OpRange} (h : Tiles start ranges stop) :
    (∀ leaf, start ≤ leaf → leaf < stop → ∃ unit, InUnit ranges unit leaf) ∧
      (∀ unit leaf, InUnit ranges unit leaf → start ≤ leaf ∧ leaf < stop) ∧
      ∀ unit unit' leaf, InUnit ranges unit leaf → InUnit ranges unit' leaf → unit = unit' := by
  induction ranges generalizing start with
  | nil =>
    obtain rfl : start = stop := h
    refine ⟨fun leaf hle hlt ↦ absurd hlt (not_lt.mpr hle), ?_, ?_⟩
    · rintro unit leaf ⟨range, hrange, -⟩
      cases hrange
    · rintro unit unit' leaf ⟨range, hrange, -⟩
      cases hrange
  | cons range ranges ih =>
    obtain ⟨rfl, hlt, hrest⟩ := h
    obtain ⟨hcovers, hwithin, hdisjoint⟩ := ih hrest
    have hle := hrest.le
    -- the first unit has the first range, and the others are those of the rest
    have hzero : ∀ leaf, InUnit (range :: ranges) 0 leaf ↔
        range.start ≤ leaf ∧ leaf < range.stop := by
      intro leaf
      rw [InUnit, List.getElem?_cons_zero]
      simp [OpRange.mem_leaves]
    have hsucc : ∀ unit leaf, InUnit (range :: ranges) (unit + 1) leaf ↔ InUnit ranges unit leaf :=
      fun unit leaf ↦ by rw [InUnit, List.getElem?_cons_succ, InUnit]
    refine ⟨fun leaf hstart hstop ↦ ?_, fun unit leaf hunit ↦ ?_, fun unit unit' leaf hu hu' ↦ ?_⟩
    · by_cases hfirst : leaf < range.stop
      · exact ⟨0, (hzero leaf).mpr ⟨hstart, hfirst⟩⟩
      · obtain ⟨unit, hunit⟩ := hcovers leaf (not_lt.mp hfirst) hstop
        exact ⟨unit + 1, (hsucc unit leaf).mpr hunit⟩
    · cases unit with
      | zero =>
        obtain ⟨hstart, hstop⟩ := (hzero leaf).mp hunit
        exact ⟨hstart, hstop.trans_le hle⟩
      | succ unit =>
        obtain ⟨hstart, hstop⟩ := hwithin unit leaf ((hsucc unit leaf).mp hunit)
        exact ⟨hlt.le.trans hstart, hstop⟩
    · cases unit with
      | zero =>
        cases unit' with
        | zero => rfl
        | succ unit' =>
          have hfirst := (hzero leaf).mp hu
          have hlater := hwithin unit' leaf ((hsucc unit' leaf).mp hu')
          omega
      | succ unit =>
        have hlater := (hsucc unit leaf).mp hu
        cases unit' with
        | zero =>
          have hfirst := (hzero leaf).mp hu'
          have hafter := hwithin unit leaf hlater
          omega
        | succ unit' => rw [hdisjoint unit unit' leaf hlater ((hsucc unit' leaf).mp hu')]

theorem Tiles.partitions {count : Nat} {ranges : List OpRange} (h : Tiles 0 ranges count) :
    Partitions ranges count := by
  obtain ⟨hcovers, hwithin, hdisjoint⟩ := h.inUnit
  exact ⟨fun leaf hlt ↦ hcovers leaf (Nat.zero_le leaf) hlt,
    fun unit leaf hunit ↦ (hwithin unit leaf hunit).2, hdisjoint⟩

/-- The ranges of an accepted request partition its operations. -/
theorem ParsedRequest.WellShaped.partitions {req : ParsedRequest} (h : req.WellShaped) :
    Partitions req.ranges req.ops.length :=
  h.tiles.partitions

/-- **Conflicts between units.** Where the ranges partition the operations, in whatever order the
hash maps are iterated over: a unit has an entry exactly when it shares a key with another unit, the
listed pairs are mutual, and every leaf is given the leaves it shares a cross-unit key with. So two
units without an entry share no key. -/
theorem unit_conflicts_exact {order : List (String × Nat) → List (String × Nat)}
    (horder : ∀ keys, (order keys).Perm keys) {claimOrder : List (List Nat) → List (List Nat)}
    (hclaimOrder : ∀ claims, (claimOrder claims).Perm claims) {ops : List ParsedOp}
    {ranges : List OpRange} (hpart : Partitions ranges ops.length) :
    (∀ unit, (unitWriteKeyConflicts order ops ranges).containsKey unit = true ↔
      ∃ key leaf other leaf', InUnit ranges unit leaf ∧ Claims ops leaf key ∧
        other ≠ unit ∧ InUnit ranges other leaf' ∧ Claims ops leaf' key) ∧
    (∀ unit conflict,
      conflict ∈ ((unitWriteKeyConflicts order ops ranges).get unit).getD [] →
        ⟨conflict.key, conflict.otherLeaf, unit, conflict.leaf⟩ ∈
          ((unitWriteKeyConflicts order ops ranges).get conflict.otherUnit).getD [] ∧
        InUnit ranges unit conflict.leaf ∧ Claims ops conflict.leaf conflict.key ∧
        InUnit ranges conflict.otherUnit conflict.otherLeaf ∧
        Claims ops conflict.otherLeaf conflict.key ∧ conflict.otherUnit ≠ unit) ∧
    (∀ i < ops.length, ∃ set,
      (unitWriteKeyConflictOps claimOrder ops ranges)[i]? = some set ∧ set.Pairwise (· < ·) ∧
        (∀ j, j ∈ set ↔
          ∃ key, SpansUnits ops ranges key ∧ Claims ops i key ∧ Claims ops j key) ∧
        (set = [] ↔ ¬∃ key, SpansUnits ops ranges key ∧ Claims ops i key)) ∧
    ∀ unit unit', unit ≠ unit' →
      (unitWriteKeyConflicts order ops ranges).containsKey unit = false →
      (unitWriteKeyConflicts order ops ranges).containsKey unit' = false →
      ∀ key leaf leaf', InUnit ranges unit leaf → InUnit ranges unit' leaf' →
        Claims ops leaf key → ¬Claims ops leaf' key := by
  refine ⟨fun unit ↦ containsKey_iff horder, fun unit conflict h ↦ ?_, fun i hi ↦ ?_, ?_⟩
  · refine ⟨mem_unitWriteKeyConflicts.mpr (mem_unitWriteKeyConflicts.mp h).symm, ?_⟩
    exact conflict_spec horder h
  · obtain ⟨set, hset, hsorted, hmem⟩ := unitWriteKeyConflictOps_spec hclaimOrder hpart hi
    refine ⟨set, hset, hsorted, hmem, ?_⟩
    rw [List.eq_nil_iff_forall_not_mem]
    constructor
    · rintro hnone ⟨key, hspans, hclaim⟩
      exact hnone i ((hmem i).mpr ⟨key, hspans, hclaim, hclaim⟩)
    · intro hnone j hj
      obtain ⟨key, hspans, hclaim, -⟩ := (hmem j).mp hj
      exact hnone ⟨key, hspans, hclaim⟩
  · -- a shared key would have given the first unit an entry
    intro unit unit' hne hfree _ key leaf leaf' hunit hunit' hclaim hclaim'
    have hentry : (unitWriteKeyConflicts order ops ranges).containsKey unit = true :=
      (containsKey_iff horder).mpr
        ⟨key, leaf, unit', leaf', hunit, hclaim, Ne.symm hne, hunit', hclaim'⟩
    rw [hfree] at hentry
    cases hentry

/-- Two units that update one record. -/
private def sharingOps : List ParsedOp :=
  List.replicate 2 ⟨"update", [("id", .value (.string "a"))]⟩

/-- Both of them have an entry. -/
theorem sharing_units_conflict :
    (unitWriteKeyConflicts (fun keys ↦ keys) sharingOps (unitRanges 2)).containsKey 0 = true ∧
      (unitWriteKeyConflicts (fun keys ↦ keys) sharingOps (unitRanges 2)).containsKey 1 = true := by
  have hexact := @unit_conflicts_exact (fun keys ↦ keys) (fun _ ↦ List.Perm.refl _)
    (fun claims ↦ claims) (fun _ ↦ List.Perm.refl _) sharingOps (unitRanges 2)
    (tiles_unitRanges 2).partitions
  have hunit : ∀ unit < 2, InUnit (unitRanges 2) unit unit := by
    intro unit hlt
    refine ⟨⟨unit, unit + 1⟩, ?_, OpRange.mem_leaves.mpr ⟨le_rfl, Nat.lt_succ_self unit⟩⟩
    rw [unitRanges, List.getElem?_map, List.getElem?_range hlt]
    rfl
  have hclaim : ∀ leaf < 2, Claims sharingOps leaf "entity:a" := by
    intro leaf hleaf
    refine ⟨⟨"update", [("id", .value (.string "a"))]⟩, ?_, List.mem_singleton.mpr rfl⟩
    rw [sharingOps, List.getElem?_replicate, if_pos hleaf]
  exact ⟨(hexact.1 0).mpr ⟨_, 0, 1, 1, hunit 0 (by decide), hclaim 0 (by decide), by decide,
      hunit 1 (by decide), hclaim 1 (by decide)⟩,
    (hexact.1 1).mpr ⟨_, 1, 0, 0, hunit 1 (by decide), hclaim 1 (by decide), by decide,
      hunit 0 (by decide), hclaim 0 (by decide)⟩⟩

end Khive
