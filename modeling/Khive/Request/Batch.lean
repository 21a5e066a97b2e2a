import Khive.Request.Shape

/-!
# The typed batch and the JSON form agree

Operations that are already decoded skip the text, and with it the scan that bounds its nesting.
They are bounded by a walk over their arguments instead, to two levels less: the array of the
batch and the object of the operation stand around the arguments in the text. On the text that
`serde_json` writes for them the two routes accept the same batches and return the same request.
-/

namespace Khive

/-- A batch entry as JSON; the members are in key order. -/
def TypedJsonOp.toJson (op : TypedJsonOp) : JsonValue :=
  .object [("args", .object op.args), ("tool", .string op.tool)]

/-- A batch as JSON. -/
def batchJson (ops : List TypedJsonOp) : JsonValue := .array (ops.map TypedJsonOp.toJson)

section Text

variable (writeString : String → List Char) (writeNumber : JsonNumber → List Char)

/-- `serde_json::to_string` of a batch, given how strings and numbers are written. -/
def batchText (ops : List TypedJsonOp) : List Char :=
  Json.write writeString writeNumber (batchJson ops)

/-- What is written for the value is read back, as far as the recursion limit allows. -/
def Libraries.ReadsBack (lib : Libraries) (v : JsonValue) : Prop :=
  v.depth < serdeRecursionLimit → lib.fromStr (Json.write writeString writeNumber v) = .ok v

end Text

/-! ## Depth and order of a batch -/

theorem depth_toJson (op : TypedJsonOp) :
    op.toJson.depth = (Json.object op.args : JsonValue).depth + 1 := by
  simp [TypedJsonOp.toJson, Json.depth, Json.depthMembers]

/-- The batch fits under a limit when the arguments fit under two levels less. -/
theorem depth_batchJson_le {ops : List TypedJsonOp} {n : Nat} :
    (batchJson ops).depth ≤ n + 2 ↔
      ∀ op ∈ ops, (Json.object op.args : JsonValue).depth ≤ n := by
  have hitems : (batchJson ops).depth ≤ n + 2 ↔
      ∀ x ∈ ops.map TypedJsonOp.toJson, x.depth ≤ n + 1 := by
    rw [batchJson, Json.depth, ← Json.depthItems_le]
    omega
  rw [hitems, List.forall_mem_map]
  refine forall₂_congr fun op _ ↦ ?_
  rw [depth_toJson]
  omega

theorem wellFormed_batchJson (ops : List TypedJsonOp) : (batchJson ops).WellFormed := by
  rw [batchJson, Json.WellFormed, Json.wellFormedItems_iff, List.forall_mem_map]
  intro op _
  have hkeys : "args" < "tool" := by decide
  rw [TypedJsonOp.toJson, Json.WellFormed]
  refine ⟨?_, op.wellFormed, trivial, trivial⟩
  exact List.pairwise_pair.mpr hkeys

/-! ## The entries -/

/-- A typed operation within the depth limit is the same operation. -/
theorem parseTypedOp_eq_ok {op : TypedJsonOp} {parsed : ParsedOp} :
    parseTypedOp op = .ok parsed ↔
      (Json.object op.args : JsonValue).depth ≤ nestingDepthLimit - 2 ∧
        jsonOp op.tool op.args = .ok parsed := by
  rw [parseTypedOp, seq_eq_ok, guardOr_eq_ok, valueNestingWithinLimit_eq_true]

/-- The entries of the text and the typed operations give the same operations, where the typed
ones are shallow enough. -/
theorem mapM_parseTypedOp (lib : Libraries) {ops : List TypedJsonOp} {parsed : List ParsedOp} :
    ops.mapM parseTypedOp = .ok parsed ↔
      (∀ op ∈ ops, (Json.object op.args : JsonValue).depth ≤ nestingDepthLimit - 2) ∧
        (ops.map TypedJsonOp.toJson).mapM (parseEntry lib) = .ok parsed := by
  rw [mapM_eq_ok, mapM_eq_ok, List.forall₂_map_left_iff]
  constructor
  · intro h
    induction h with
    | nil => exact ⟨fun op hop ↦ absurd hop List.not_mem_nil, .nil⟩
    | cons hop _ ih =>
      obtain ⟨hdepth, hparsed⟩ := parseTypedOp_eq_ok.mp hop
      exact ⟨List.forall_mem_cons.mpr ⟨hdepth, ih.1⟩, .cons hparsed ih.2⟩
  · rintro ⟨hdepth, h⟩
    induction h with
    | nil => exact .nil
    | cons hop _ ih =>
      obtain ⟨hhead, hrest⟩ := List.forall_mem_cons.mp hdepth
      exact .cons (parseTypedOp_eq_ok.mpr ⟨hhead, hop⟩) (ih hrest)

/-! ## The text -/

theorem trim_of_ends {c d : Char} {s : List Char} (hc : isWhitespace c = false)
    (hd : isWhitespace d = false) : trim (c :: (s ++ [d])) = c :: (s ++ [d]) := by
  have hend : (c :: (s ++ [d])).reverse = d :: (c :: s).reverse := by simp
  rw [trim, List.dropWhile_cons_of_neg (by simp [hc]), hend,
    List.dropWhile_cons_of_neg (by simp [hd]), ← hend, List.reverse_reverse]

section Text

variable {writeString : String → List Char} {writeNumber : JsonNumber → List Char}

theorem batchText_eq (ops : List TypedJsonOp) : batchText writeString writeNumber ops
    = '[' :: (Json.writeItems writeString writeNumber (ops.map TypedJsonOp.toJson) ++ [']']) := by
  rw [batchText, batchJson, Json.write]

theorem trim_batchText (ops : List TypedJsonOp) :
    trim (batchText writeString writeNumber ops) = batchText writeString writeNumber ops := by
  rw [batchText_eq]
  exact trim_of_ends rfl rfl

/-- The first entry opens with a brace. -/
theorem looksLikeJson_batchText (op : TypedJsonOp) (ops : List TypedJsonOp) :
    looksLikeJson (batchText writeString writeNumber (op :: ops)) = true := by
  have hitems : ∃ s, Json.writeItems writeString writeNumber ((op :: ops).map TypedJsonOp.toJson)
      = '{' :: s := by
    cases ops with
    | nil => exact ⟨_, rfl⟩
    | cons op' ops => exact ⟨_, rfl⟩
  obtain ⟨s, hs⟩ := hitems
  rw [batchText_eq, hs]
  rfl

/-- An empty batch is refused, as a batch of calls. -/
theorem parseRequest_emptyBatch (lib : Libraries) (req : ParsedRequest) :
    parseRequest lib (batchText writeString writeNumber []) ≠ .ok req := by
  have herror : parseRequest lib (batchText writeString writeNumber []) = .error .emptyBatch := rfl
  rw [herror]
  exact fun h ↦ nomatch h

variable {lib : Libraries} {req : ParsedRequest}

/-- The JSON form of a batch text: the depth bound is that of the typed route. -/
theorem parseJsonForm_batchText (hs : Json.WritesStrings writeString)
    (hn : Json.WritesNumbers writeNumber) {ops : List TypedJsonOp}
    (hread : lib.ReadsBack writeString writeNumber (batchJson ops)) (hne : ops ≠ []) :
    parseJsonForm lib (batchText writeString writeNumber ops) = .ok req ↔
      parseTypedJsonBatch ops = .ok req := by
  have hspells := Json.spells_write hs hn (wellFormed_batchJson ops)
  -- the two brackets around the arguments are the batch's and the operation's
  have hcheck : checkJsonNestingDepth (batchText writeString writeNumber ops) = .ok () ↔
      ∀ op ∈ ops, (Json.object op.args : JsonValue).depth ≤ nestingDepthLimit - 2 := by
    rw [batchText, checkJsonNestingDepth_eq_ok hspells]
    exact depth_batchJson_le
  -- the depth bound is checked before the parser of `serde_json` runs, whose own is larger
  have hfromStr : (∀ op ∈ ops, (Json.object op.args : JsonValue).depth ≤ nestingDepthLimit - 2) →
      lib.fromStr (batchText writeString writeNumber ops) = .ok (batchJson ops) := by
    intro hdepth
    have hle : (batchJson ops).depth ≤ nestingDepthLimit := depth_batchJson_le.mpr hdepth
    exact hread (Nat.lt_of_le_of_lt hle (by decide))
  have hguard : guardOr DslError.emptyBatch (!ops.isEmpty) = .ok () := by
    rw [guardOr_eq_ok]
    simpa using hne
  constructor
  · intro h
    obtain ⟨v, arr, isSingle, htext, hv, hentries, -, hmax, hops, hreq⟩ := parseJsonForm_spec h
    rw [hcheck] at htext
    rw [hfromStr htext] at hv
    cases hv
    cases hentries
    rw [List.length_map] at hmax
    refine seq_eq_ok.mpr ⟨hguard, seq_eq_ok.mpr ⟨guardOr_eq_ok.mpr (decide_eq_true hmax), ?_⟩⟩
    refine bind_eq_ok.mpr ⟨req.ops, (mapM_parseTypedOp lib).mpr ⟨htext, hops⟩, ?_⟩
    have hlength : ops.length = req.ops.length := by
      rw [← length_of_mapM hops, List.length_map]
    rw [hlength]
    exact congrArg Except.ok hreq.symm
  · intro h
    obtain ⟨-, h⟩ := seq_eq_ok.mp h
    obtain ⟨hmax, h⟩ := seq_eq_ok.mp h
    obtain ⟨parsed, hparsed, h⟩ := bind_eq_ok.mp h
    obtain ⟨hdepth, hops⟩ := (mapM_parseTypedOp lib).mp hparsed
    have hlength : ops.length = parsed.length := length_of_mapM hparsed
    refine seq_eq_ok.mpr ⟨hcheck.mpr hdepth, bind_eq_ok.mpr
      ⟨batchJson ops, mapError_eq_ok.mpr (hfromStr hdepth), ?_⟩⟩
    refine bind_eq_ok.mpr ⟨(ops.map TypedJsonOp.toJson, false), rfl, seq_eq_ok.mpr ⟨?_, ?_⟩⟩
    · rw [guardOr_eq_ok]
      simpa using hne
    · refine seq_eq_ok.mpr ⟨?_, bind_eq_ok.mpr ⟨parsed, hops, ?_⟩⟩
      · rw [guardOr_eq_ok, List.length_map]
        exact guardOr_eq_ok.mp hmax
      · rw [← hlength]
        exact h

end Text

/-- **Typed batch and JSON form agree**: on the JSON text of a batch, within the size limit,
`parse_request` accepts exactly when `parse_typed_json_batch` accepts the batch, and the two
requests are the same. -/
theorem parseRequest_batchText (lib : Libraries) (writeString : String → List Char)
    (writeNumber : JsonNumber → List Char) (hs : Json.WritesStrings writeString)
    (hn : Json.WritesNumbers writeNumber) (ops : List TypedJsonOp)
    (hread : lib.ReadsBack writeString writeNumber (batchJson ops))
    (hsize : utf8Len (batchText writeString writeNumber ops) ≤ maxOpsInputLen)
    (req : ParsedRequest) :
    parseRequest lib (batchText writeString writeNumber ops) = .ok req ↔
      parseTypedJsonBatch ops = .ok req := by
  cases ops with
  | nil => exact iff_of_false (parseRequest_emptyBatch lib req) fun h ↦ nomatch h
  | cons op ops =>
    rw [parseRequest, trim_batchText, seq_eq_ok, seq_eq_ok,
      if_pos (looksLikeJson_batchText op ops), guardOr_eq_ok, guardOr_eq_ok,
      parseJsonForm_batchText hs hn hread (List.cons_ne_nil _ _), decide_eq_true_iff,
      and_iff_right hsize]
    exact and_iff_right (by rw [batchText_eq]; rfl)

/-! A batch of three operations, with a list, an escaped string and numbers. -/

private def quoteString (s : String) : List Char :=
  '"' :: ((s.toList.flatMap fun c ↦ if c = '"' ∨ c = '\\' then ['\\', c] else [c]) ++ ['"'])

private theorem writesStrings_quoteString : Json.WritesStrings quoteString := by
  intro s
  refine ⟨_, ?_, rfl⟩
  induction s.toList with
  | nil => exact .nil
  | cons c cs ih =>
    rw [List.flatMap_cons]
    split_ifs with hc
    · exact .escape c ih
    · rw [not_or] at hc
      exact .char hc.1 hc.2 ih

private def writeZero : JsonNumber → List Char := fun _ ↦ ['0']

private theorem writesNumbers_writeZero : Json.WritesNumbers writeZero := by
  intro n
  exact ⟨by simp [writeZero, Json.Plain, Json.isStructural], List.cons_ne_nil _ _⟩

private def sampleBatch : List TypedJsonOp :=
  [⟨"f", [("x", .number (.posInt 0))], List.pairwise_singleton _ _, trivial, trivial⟩,
    ⟨"g", [("ids", .array [.string "a\"b", .null]), ("limit", .number (.posInt 0))],
      List.pairwise_pair.mpr (by decide), ⟨trivial, trivial, trivial⟩, trivial, trivial⟩,
    ⟨"h", [], List.Pairwise.nil, trivial⟩]

private def sampleLibraries : Libraries where
  fromStr s := if s = batchText quoteString writeZero sampleBatch then .ok (batchJson sampleBatch)
    else .error ⟨"expected value at line 1 column 1", 1, 1⟩
  stringFromStr _ := .error ⟨"expected value at line 1 column 1", 1, 1⟩
  display _ := "null"
  unprintable _ := false

private def sampleRequest : ParsedRequest where
  ops := [⟨"f", [("x", .value (.number (.posInt 0)))]⟩,
    ⟨"g", [("ids", .value (.array [.string "a\"b", .null])), ("limit", .value (.number (.posInt 0)))]⟩,
    ⟨"h", []⟩]
  mode := .parallel
  ranges := [⟨0, 1⟩, ⟨1, 2⟩, ⟨2, 3⟩]

theorem parseRequest_batchText_three_ops :
    parseTypedJsonBatch sampleBatch = .ok sampleRequest ∧
      parseRequest sampleLibraries (batchText quoteString writeZero sampleBatch)
        = .ok sampleRequest := by
  have htyped : parseTypedJsonBatch sampleBatch = .ok sampleRequest :=
    seq_eq_ok.mpr ⟨rfl, seq_eq_ok.mpr ⟨rfl, bind_eq_ok.mpr ⟨sampleRequest.ops,
      mapM_eq_ok.mpr (.cons (parseTypedOp_eq_ok.mpr ⟨by decide, rfl⟩)
        (.cons (parseTypedOp_eq_ok.mpr ⟨by decide, rfl⟩)
          (.cons (parseTypedOp_eq_ok.mpr ⟨by decide, rfl⟩) .nil))), rfl⟩⟩⟩
  have hread : sampleLibraries.ReadsBack quoteString writeZero (batchJson sampleBatch) := by
    intro _
    simp only [sampleLibraries, batchText, if_true]
  exact ⟨htyped, (parseRequest_batchText sampleLibraries quoteString writeZero
    writesStrings_quoteString writesNumbers_writeZero sampleBatch hread (by decide +kernel)
    sampleRequest).mpr htyped⟩

end Khive
