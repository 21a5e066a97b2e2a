import Khive.Request.Progress

/-!
# The shape of an accepted request

Every request that is accepted has between one operation and the maximum, cut into units that
tile the operations in order; no operation carries an argument that belongs to the envelope; and
outside plain chains the first operation of a unit holds no reference to a previous result. In a
plain chain the parser lets such a reference pass and leaves it to dispatch, which has nothing to
resolve it against.

Three routes count in three places: the chain and the batch before each operation, the JSON form
on the decoded array. The batch keeps its ranges as it goes, and the invariant of its loop is
that they tile what has been read so far.
-/

namespace Khive

/-! ## References -/

/-- A `$prev` reference stands somewhere in the value. -/
inductive ArgValue.HasPrev : ArgValue → Prop
  | ref (path : String) : HasPrev (.prevRef path)
  | element {x : ArgValue} {xs : List ArgValue} (hmem : x ∈ xs) (h : HasPrev x) :
      HasPrev (.array xs)
  | pair {m : String × ArgValue} {ms : List (String × ArgValue)} (hmem : m ∈ ms)
      (h : HasPrev m.2) : HasPrev (.object ms)

/-- A `$prev` reference stands somewhere in an argument. -/
def ParsedOp.HasPrev (op : ParsedOp) : Prop := ∃ arg ∈ op.args, arg.2.HasPrev

theorem anyElementHasPrevRef_eq_false {xs : List ArgValue} :
    anyElementHasPrevRef xs = false ↔ ∀ x ∈ xs, argValueHasPrevRef x = false := by
  induction xs with
  | nil => simp [anyElementHasPrevRef]
  | cons x xs ih => rw [anyElementHasPrevRef, Bool.or_eq_false_iff, ih, List.forall_mem_cons]

theorem anyPairHasPrevRef_eq_false {ms : List (String × ArgValue)} :
    anyPairHasPrevRef ms = false ↔ ∀ m ∈ ms, argValueHasPrevRef m.2 = false := by
  induction ms with
  | nil => simp [anyPairHasPrevRef]
  | cons m ms ih => rw [anyPairHasPrevRef, Bool.or_eq_false_iff, ih, List.forall_mem_cons]

/-- The search finds every reference, at any depth. -/
theorem ArgValue.HasPrev.found {v : ArgValue} (h : v.HasPrev) : argValueHasPrevRef v = true := by
  induction h with
  | ref path => rfl
  | element hmem _ ih =>
    rw [argValueHasPrevRef, ← Bool.not_eq_false, anyElementHasPrevRef_eq_false]
    intro hall
    rw [hall _ hmem] at ih
    exact Bool.false_ne_true ih
  | pair hmem _ ih =>
    rw [argValueHasPrevRef, ← Bool.not_eq_false, anyPairHasPrevRef_eq_false]
    intro hall
    rw [hall _ hmem] at ih
    exact Bool.false_ne_true ih

theorem not_hasPrev_of_rejectPrevRef {op : ParsedOp} (h : rejectPrevRef op = .ok ()) :
    ¬op.HasPrev := by
  rintro ⟨arg, harg, hprev⟩
  cases hfind : findPrevRefPos op with
  | some pos =>
    rw [rejectPrevRef, hfind] at h
    cases h
  | none =>
    have hnone := findPrevRefPos_eq_none.mp hfind arg harg
    rw [hprev.found] at hnone
    cases hnone

/-! ## Reserved arguments -/

/-- No argument has a name that belongs to the envelope. -/
def ParsedOp.Unreserved (op : ParsedOp) : Prop := ∀ arg ∈ op.args, arg.1 ∉ reservedEnvelopeArgs

theorem rejectReservedArgs_eq_ok {op : ParsedOp} :
    rejectReservedArgs op = .ok () ↔ op.Unreserved := by
  have hnone : (reservedEnvelopeArgs.find? fun r ↦ op.args.any fun arg ↦ arg.1 == r) = none ↔
      op.Unreserved := by
    simp only [List.find?_eq_none, List.any_eq_true, beq_iff_eq, not_exists, not_and]
    exact ⟨fun h arg harg hres ↦ h _ hres arg harg rfl,
      fun h r hr arg harg heq ↦ h arg harg (heq ▸ hr)⟩
  rw [← hnone, rejectReservedArgs]
  cases reservedEnvelopeArgs.find? fun r ↦ op.args.any fun arg ↦ arg.1 == r with
  | some reserved => simp
  | none => simp

/-! ## Ranges -/

/-- The ranges tile the numbers from `start` to `stop`: in order, without gap or overlap, none
of them empty. -/
def Tiles : Nat → List OpRange → Nat → Prop
  | start, [], stop => start = stop
  | start, range :: ranges, stop =>
    range.start = start ∧ range.start < range.stop ∧ Tiles range.stop ranges stop

theorem Tiles.append {a b c : Nat} {ranges : List OpRange} (h : Tiles a ranges b) (hlt : b < c) :
    Tiles a (ranges ++ [⟨b, c⟩]) c := by
  induction ranges generalizing a with
  | nil =>
    obtain rfl : a = b := h
    exact ⟨rfl, hlt, rfl⟩
  | cons range ranges ih => exact ⟨h.1, h.2.1, ih h.2.2⟩

theorem Tiles.ne_nil {a b : Nat} {ranges : List OpRange} (h : Tiles a ranges b) (hlt : a < b) :
    ranges ≠ [] := by
  rintro rfl
  exact absurd h hlt.ne

theorem tiles_unitRanges (n : Nat) : Tiles 0 (unitRanges n) n := by
  induction n with
  | zero => rfl
  | succ n ih =>
    rw [unitRanges, List.range_succ, List.map_append]
    exact ih.append (Nat.lt_succ_self n)

/-- What an accepted request looks like. -/
structure ParsedRequest.WellShaped (req : ParsedRequest) : Prop where
  nonempty : 1 ≤ req.ops.length
  bounded : req.ops.length ≤ maxOps
  ranges_ne_nil : req.ranges ≠ []
  tiles : Tiles 0 req.ranges req.ops.length
  whole : req.mode ≠ .parallel → req.ranges = [⟨0, req.ops.length⟩]
  noPrev : req.mode ≠ .chain →
    ∀ range ∈ req.ranges, ∀ op, req.ops[range.start]? = some op → ¬op.HasPrev
  unreserved : ∀ op ∈ req.ops, op.Unreserved

/-! ## Function-call form -/

section Loops

variable {α : Type} {parse : Parser → Except DslError (α × Parser)}

/-- A chain adds operations that pass its check, and stops at the maximum. -/
theorem pipeline_spec {check : α → Except DslError Unit} {fuel : Nat} {ops ops' : List α}
    {p q : Parser} (h : pipeline parse check fuel ops p = .ok (ops', q))
    (hle : ops.length ≤ maxOps) :
    ops'.length ≤ maxOps ∧ ∃ added, ops' = ops ++ added ∧ ∀ op ∈ added, check op = .ok () := by
  induction fuel generalizing ops p with
  | zero =>
    cases h
    exact ⟨hle, [], by simp⟩
  | succ fuel ih =>
    rcases pipeline_eq_ok.mp h with ⟨-, hlt, op, p₁, -, hcheck, h⟩ | ⟨-, rfl, -⟩
    · have hlength : (ops ++ [op]).length ≤ maxOps := by
        rw [List.length_append, List.length_singleton]
        exact hlt
      obtain ⟨hbound, added, rfl, hadded⟩ := ih h hlength
      refine ⟨hbound, op :: added, by simp, ?_⟩
      exact List.forall_mem_cons.mpr ⟨hcheck, hadded⟩
    · exact ⟨hle, [], by simp⟩

/-- A unit adds at least one operation. -/
theorem parseUnit_spec {ops ops' : List α} {p q : Parser}
    (h : parseUnit parse ops p = .ok (ops', q)) :
    ops.length < ops'.length ∧ ops'.length ≤ maxOps := by
  rw [parseUnit] at h
  split_ifs at h with hfull
  obtain ⟨⟨op, p₁⟩, -, h⟩ := bind_eq_ok.mp h
  have hlength : (ops ++ [op]).length = ops.length + 1 := by simp
  obtain ⟨hbound, added, rfl, -⟩ := pipeline_spec h (by omega)
  rw [List.length_append] at hbound ⊢
  omega

/-- The ranges of a batch tile its operations. -/
theorem batchUnits_spec {fuel : Nat} {ops ops' : List α} {ranges ranges' : List OpRange}
    {p q : Parser} (h : batchUnits parse fuel ops ranges p = .ok (ops', ranges', q))
    (htiles : Tiles 0 ranges ops.length) :
    Tiles 0 ranges' ops'.length ∧ 1 ≤ ops'.length ∧ ops'.length ≤ maxOps := by
  induction fuel generalizing ops ranges p with
  | zero => cases h
  | succ fuel ih =>
    obtain ⟨ops₁, p₁, hunit, hnext⟩ := batchUnits_eq_ok.mp h
    obtain ⟨hlt, hbound⟩ := parseUnit_spec hunit
    rcases hnext with ⟨p₂, -, h⟩ | ⟨-, rfl, rfl⟩
    · exact ih h (htiles.append hlt)
    · exact ⟨htiles.append hlt, by omega, hbound⟩

end Loops

section Forms

theorem one_le_maxOps : 1 ≤ maxOps := by decide

variable {lib : Libraries} {input : List Char} {req : ParsedRequest}

theorem parseChainTail_wellShaped {p : Parser} {firstOp : ParsedOp}
    (h : parseChainTail lib p firstOp = .ok req) : req.WellShaped := by
  obtain ⟨hfirst, h⟩ := seq_eq_ok.mp h
  obtain ⟨⟨ops, p₁⟩, hops, h⟩ := bind_eq_ok.mp h
  obtain ⟨-, h⟩ := seq_eq_ok.mp h
  cases h
  obtain ⟨hbound, added, rfl, hadded⟩ := pipeline_spec hops one_le_maxOps
  have hpos : 0 < ([firstOp] ++ added).length := by simp
  refine ⟨hpos, hbound, List.cons_ne_nil _ _, ⟨rfl, hpos, rfl⟩, fun _ ↦ rfl,
    fun hchain ↦ absurd rfl hchain, ?_⟩
  rintro op (hop : op ∈ firstOp :: added)
  rcases List.mem_cons.mp hop with rfl | hop
  · exact rejectReservedArgs_eq_ok.mp hfirst
  · exact rejectReservedArgs_eq_ok.mp (hadded op hop)

theorem parsePlain_wellShaped (h : parsePlain lib input = .ok req) : req.WellShaped := by
  obtain ⟨⟨firstOp, p⟩, -, h⟩ := bind_eq_ok.mp h
  dsimp only at h
  split at h
  · obtain ⟨hprev, h⟩ := seq_eq_ok.mp h
    obtain ⟨hreserved, h⟩ := seq_eq_ok.mp h
    cases h
    refine ⟨Nat.le_refl 1, one_le_maxOps, List.cons_ne_nil _ _, ⟨rfl, Nat.one_pos, rfl⟩,
      fun _ ↦ rfl, ?_, ?_⟩
    · intro _ range hrange op hop
      cases List.mem_singleton.mp hrange
      cases hop
      exact not_hasPrev_of_rejectPrevRef hprev
    · intro op hop
      cases List.mem_singleton.mp hop
      exact rejectReservedArgs_eq_ok.mp hreserved
  · split_ifs at h
    exact parseChainTail_wellShaped h

theorem parseFnBatch_wellShaped (h : parseFnBatch lib input = .ok req) : req.WellShaped := by
  obtain ⟨p, -, h⟩ := bind_eq_ok.mp h
  obtain ⟨⟨ops, ranges, p₁⟩, hunits, h⟩ := bind_eq_ok.mp h
  obtain ⟨-, h⟩ := seq_eq_ok.mp h
  obtain ⟨hprev, h⟩ := seq_eq_ok.mp h
  obtain ⟨hreserved, h⟩ := seq_eq_ok.mp h
  cases h
  obtain ⟨htiles, hpos, hbound⟩ := batchUnits_spec hunits rfl
  refine ⟨hpos, hbound, htiles.ne_nil hpos, htiles, fun hmode ↦ absurd rfl hmode, ?_, ?_⟩
  · intro _ range hrange op hop
    have hcheck := forM_eq_ok.mp hprev range hrange
    simp only [hop] at hcheck
    exact not_hasPrev_of_rejectPrevRef hcheck
  · intro op hop
    exact rejectReservedArgs_eq_ok.mp (forM_eq_ok.mp hreserved op hop)

end Forms

/-! ## JSON form -/

/-- The JSON arguments pass when none reads as a reference, and become values. -/
theorem jsonArgs_eq_ok {args : List (String × JsonValue)} {result : List (String × ArgValue)} :
    jsonArgs args = .ok result ↔ (∀ m ∈ args, jsonValueContainsPrevRef m.2 = false) ∧
      result = args.map fun m ↦ (m.1, .value m.2) := by
  induction args generalizing result with
  | nil =>
    rw [jsonArgs, Except.ok.injEq, List.map_nil, eq_comm]
    simp
  | cons m args ih =>
    rw [jsonArgs, List.forall_mem_cons, List.map_cons]
    split_ifs with hprev
    · rw [hprev]
      exact iff_of_false (fun h ↦ nomatch h) fun h ↦ nomatch h.1.1
    · rw [Bool.not_eq_true] at hprev
      rw [hprev]
      cases hrest : jsonArgs args with
      | error e =>
        refine iff_of_false (fun h ↦ nomatch h) fun h ↦ ?_
        have hok : jsonArgs args = .ok (args.map fun m ↦ (m.1, .value m.2)) :=
          ih.mpr ⟨h.1.2, rfl⟩
        rw [hrest] at hok
        cases hok
      | ok rest =>
        obtain ⟨hall, rfl⟩ := ih.mp hrest
        rw [Except.map, Except.ok.injEq, eq_comm]
        exact ⟨fun h ↦ ⟨⟨rfl, hall⟩, h⟩, fun h ↦ h.2⟩

/-- A JSON operation is accepted when no argument reads as a reference and none is reserved. -/
theorem jsonOp_eq_ok {tool : String} {args : List (String × JsonValue)} {op : ParsedOp} :
    jsonOp tool args = .ok op ↔ (∀ m ∈ args, jsonValueContainsPrevRef m.2 = false) ∧
      op = ⟨tool, SortedMap.collect (args.map fun m ↦ (m.1, .value m.2))⟩ ∧ op.Unreserved := by
  simp only [jsonOp, bind_eq_ok, jsonArgs_eq_ok, exists_check, rejectReservedArgs_eq_ok,
    Except.ok.injEq]
  constructor
  · rintro ⟨result, ⟨hprev, rfl⟩, hreserved, rfl⟩
    exact ⟨hprev, rfl, hreserved⟩
  · rintro ⟨hprev, rfl, hreserved⟩
    exact ⟨_, ⟨hprev, rfl⟩, hreserved, rfl⟩

/-- Every argument is a JSON value in which no string reads as a reference. -/
def ParsedOp.Literal (op : ParsedOp) : Prop :=
  ∀ arg ∈ op.args, ∃ v, arg.2 = .value v ∧ mentionsPrev v = false

theorem jsonOp_literal {tool : String} {args : List (String × JsonValue)} {op : ParsedOp}
    (h : jsonOp tool args = .ok op) : op.Literal := by
  obtain ⟨hprev, rfl, -⟩ := jsonOp_eq_ok.mp h
  intro arg harg
  obtain ⟨m, hm, rfl⟩ := List.mem_map.mp (SortedMap.mem_of_mem_collect harg)
  exact ⟨m.2, rfl, mentionsPrev_of_search (hprev m hm)⟩

theorem ParsedOp.Literal.not_hasPrev {op : ParsedOp} (h : op.Literal) : ¬op.HasPrev := by
  rintro ⟨arg, harg, hprev⟩
  obtain ⟨v, hv, -⟩ := h arg harg
  rw [hv] at hprev
  cases hprev

section JsonForm

variable {lib : Libraries} {input : List Char} {req : ParsedRequest}

theorem parseEntry_spec {entry : JsonValue} {op : ParsedOp} (h : parseEntry lib entry = .ok op) :
    ∃ tool args, jsonOp tool args = .ok op := by
  rw [parseEntry] at h
  split at h
  · cases h
  · obtain ⟨-, h⟩ := seq_eq_ok.mp h
    obtain ⟨tool, -, h⟩ := bind_eq_ok.mp h
    obtain ⟨args, -, h⟩ := bind_eq_ok.mp h
    exact ⟨tool, args, h⟩

/-- The JSON form accepted: the entries decoded, their number, and the operations read off. -/
theorem parseJsonForm_spec (h : parseJsonForm lib input = .ok req) :
    ∃ v arr isSingle, checkJsonNestingDepth input = .ok () ∧ lib.fromStr input = .ok v ∧
      jsonEntries lib v = .ok (arr, isSingle) ∧ (arr = [] → isSingle = true) ∧
      arr.length ≤ maxOps ∧ arr.mapM (parseEntry lib) = .ok req.ops ∧
      req = ⟨req.ops, if isSingle then .single else .parallel,
        if isSingle then [⟨0, 1⟩] else unitRanges req.ops.length⟩ := by
  obtain ⟨hcheck, h⟩ := seq_eq_ok.mp h
  obtain ⟨v, hv, h⟩ := bind_eq_ok.mp h
  obtain ⟨⟨arr, isSingle⟩, harr, h⟩ := bind_eq_ok.mp h
  obtain ⟨hempty, h⟩ := seq_eq_ok.mp h
  obtain ⟨hmax, h⟩ := seq_eq_ok.mp h
  obtain ⟨ops, hops, h⟩ := bind_eq_ok.mp h
  cases h
  refine ⟨v, arr, isSingle, hcheck, mapError_eq_ok.mp hv, harr, ?_, ?_, hops, rfl⟩
  · rintro rfl
    rw [guardOr_eq_ok] at hempty
    simpa using hempty
  · rw [guardOr_eq_ok] at hmax
    exact of_decide_eq_true hmax

theorem parseJsonForm_wellShaped (h : parseJsonForm lib input = .ok req) :
    req.WellShaped ∧ ∀ op ∈ req.ops, op.Literal := by
  obtain ⟨v, arr, isSingle, -, -, hentries, hempty, hmax, hops, hreq⟩ := parseJsonForm_spec h
  have hop : ∀ op ∈ req.ops, op.Literal ∧ op.Unreserved := by
    intro op hmem
    obtain ⟨entry, -, hentry⟩ := exists_of_mem_mapM hops hmem
    obtain ⟨tool, args, hjson⟩ := parseEntry_spec hentry
    exact ⟨jsonOp_literal hjson, (jsonOp_eq_ok.mp hjson).2.2⟩
  have hnoPrev : ∀ range ∈ req.ranges, ∀ op, req.ops[range.start]? = some op → ¬op.HasPrev :=
    fun range _ op hget ↦ (hop op (List.mem_of_getElem? hget)).1.not_hasPrev
  rw [length_of_mapM hops] at hmax
  -- one operation when single, and never none
  have hcount : 1 ≤ req.ops.length ∧ (isSingle = true → req.ops.length = 1) := by
    rw [← length_of_mapM hops]
    cases v with
    | array items =>
      cases hentries
      have hne : arr ≠ [] := fun hnil ↦ Bool.false_ne_true (hempty hnil)
      exact ⟨List.length_pos_iff.mpr hne, fun h ↦ nomatch h⟩
    | object members =>
      cases hentries
      exact ⟨Nat.le_refl 1, fun _ ↦ rfl⟩
    | null => cases hentries
    | bool b => cases hentries
    | number n => cases hentries
    | string s => cases hentries
  have htiles : Tiles 0 req.ranges req.ops.length := by
    rw [hreq]
    dsimp only
    split_ifs with hsingle
    · rw [hcount.2 hsingle]
      exact ⟨rfl, Nat.one_pos, rfl⟩
    · exact tiles_unitRanges _
  refine ⟨⟨hcount.1, hmax, htiles.ne_nil hcount.1, htiles, ?_, fun _ ↦ hnoPrev,
    fun op hmem ↦ (hop op hmem).2⟩, fun op hmem ↦ (hop op hmem).1⟩
  intro hmode
  rw [hreq] at hmode ⊢
  dsimp only at hmode ⊢
  split_ifs at hmode ⊢ with hsingle
  · rw [hcount.2 hsingle]
  · exact absurd rfl hmode

end JsonForm

/-! ## Every form -/

/-- The form of an accepted request, with the form's own acceptance. -/
theorem parseRequest_cases {lib : Libraries} {input : List Char} {req : ParsedRequest}
    (h : parseRequest lib input = .ok req) :
    (looksLikeJson (trim input) = true ∧ parseJsonForm lib (trim input) = .ok req) ∨
      (looksLikeJson (trim input) = false ∧ (trim input).head? = some '[' ∧
        parseFnBatch lib (trim input) = .ok req) ∨
      (looksLikeJson (trim input) = false ∧ (trim input).head? ≠ some '[' ∧
        parsePlain lib (trim input) = .ok req) := by
  obtain ⟨-, h⟩ := seq_eq_ok.mp h
  obtain ⟨-, h⟩ := seq_eq_ok.mp h
  split_ifs at h with hjson hbatch
  · exact Or.inl ⟨hjson, h⟩
  · exact Or.inr (Or.inl ⟨Bool.eq_false_iff.mpr hjson, hbatch, h⟩)
  · exact Or.inr (Or.inr ⟨Bool.eq_false_iff.mpr hjson, hbatch, h⟩)

/-- **Shape of a request**: whatever its form, an accepted request has a bounded number of
operations, ranges that tile them, no reference without a predecessor outside plain chains, and
no reserved argument; in JSON form no string of any argument reads as a reference. -/
theorem parseRequest_wellShaped (lib : Libraries) (input : List Char) (req : ParsedRequest)
    (h : parseRequest lib input = .ok req) :
    req.WellShaped ∧ (looksLikeJson (trim input) = true → ∀ op ∈ req.ops, op.Literal) := by
  rcases parseRequest_cases h with ⟨-, h⟩ | ⟨hjson, -, h⟩ | ⟨hjson, -, h⟩
  · obtain ⟨hshape, hliteral⟩ := parseJsonForm_wellShaped h
    exact ⟨hshape, fun _ ↦ hliteral⟩
  · exact ⟨parseFnBatch_wellShaped h, fun htrue ↦ by rw [hjson] at htrue; cases htrue⟩
  · exact ⟨parsePlain_wellShaped h, fun htrue ↦ by rw [hjson] at htrue; cases htrue⟩

/-! A plain chain with a reference in its first call. No scalar occurs in the text, so the
libraries are never asked. -/

private def noLibraries : Libraries where
  fromStr _ := .error ⟨"expected value at line 1 column 1", 1, 1⟩
  stringFromStr _ := .error ⟨"expected value at line 1 column 1", 1, 1⟩
  display _ := "null"
  unprintable _ := false

private def leadingPrev : ParsedRequest where
  ops := [⟨"f", [("x", .prevRef "")]⟩, ⟨"g", []⟩]
  mode := .chain
  ranges := [⟨0, 2⟩]

theorem parseRequest_leading_prev :
    parseRequest noLibraries "f(x=$prev) | g()".toList = .ok leadingPrev ∧
      ∃ range ∈ leadingPrev.ranges, ∃ op, leadingPrev.ops[range.start]? = some op ∧ op.HasPrev :=
  ⟨rfl, ⟨0, 2⟩, List.mem_cons_self, _, rfl, ("x", .prevRef ""), List.mem_cons_self, .ref ""⟩

theorem parseRequest_wellShaped_leading_prev : leadingPrev.WellShaped :=
  (parseRequest_wellShaped noLibraries "f(x=$prev) | g()".toList leadingPrev rfl).1

end Khive
