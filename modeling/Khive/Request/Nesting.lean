import Khive.Request.Cursors
import Khive.Request.Shape

/-!
# How deep arguments nest

The JSON form bounds the nesting of its text before it is parsed, and the function-call form
counts the array and object literals it enters. A scalar is handed to `serde_json`, which reads
arrays and objects too, up to a limit of its own. That they do not reach it this way rests on the
parser looking at the first character: a scalar starts with neither a bracket nor a brace.

The parser looks behind ASCII whitespace, though, and trims scalars of any whitespace. Behind a
vertical tab or a no-break space a bracket is not seen, and the container behind it goes to
`serde_json` uncounted. `RequestFits` says that no such scalar nests too deep for the room left
by the literals around it, and that is exactly when the bound holds.
-/

namespace Khive

/-- `serde_json` reads JSON texts, within its own recursion limit. -/
def Libraries.Sound (lib : Libraries) : Prop :=
  ∀ s v, lib.fromStr s = .ok v → ∃ n < serdeRecursionLimit, Json.Spells (.value v) s n

/-! ## The condition -/

/-- A scalar that starts with whitespace nests no deeper than the room there is. -/
def scalarFits (lib : Libraries) (room : Nat) (p : Parser) : Prop :=
  p.peek.any isWhitespace = true → ∀ span v, scanValueEnd p = .ok span →
    lib.fromStr (trim (p.rest.take span)) = .ok v → v.depth ≤ room

/-- By the first character: nothing to ask of a reference, then what to ask of an array, of an
object and of a scalar. -/
def fitsAt (lib : Libraries) (array object : Parser → Prop) (room : Nat) (p : Parser) : Prop :=
  let p := p.skipWs
  if p.peek = some '$' then True
  else if p.peek = some '[' then array p
  else if p.peek = some '{' then object p
  else scalarFits lib room p

section Cursors

variable (lib : Libraries)
  (value : Option String → Parser → Except DslError (ArgValue × Parser))

/-- The elements of an array literal, where they are read. -/
def elementCursors (p : Parser) : List (Parser × ArgValue) :=
  let p := (p.advance 1).skipWs
  if p.peek = some ']' then []
  else okList (Parser.separated ']' "',' or ']'" (.unexpectedEof "']'")
    (located fun _ p ↦ value none p) (p.rest.length + 1) [] p)

/-- The members of an object literal, where they are read. -/
def memberCursors (p : Parser) : List (Parser × String × ArgValue) :=
  let p := (p.advance 1).skipWs
  if p.peek = some '}' then []
  else okList (Parser.separated '}' "',' or '\x7d'" (.unexpectedEof "'\x7d'")
    (located fun _ p ↦ parseMember lib value p) (p.rest.length + 1) [] p)

end Cursors

/-- The member reaches the value of its literal: where the literal folds to a JSON object, no
later member has its name. -/
def Kept (members : List (Parser × String × ArgValue)) (e : Parser × String × ArgValue) : Prop :=
  e ∈ members ∧ ((∀ m ∈ members, m.2.2.asValue.isSome = true) →
    ∃ before after, members = before ++ e :: after ∧ e.2.1 ∉ after.map fun m ↦ m.2.1)

/-- The scalars of the value at the cursor fit, with room for so many more containers. -/
def ScalarsFit (lib : Libraries) : Nat → Parser → Prop
  | 0, p => fitsAt lib (fun _ ↦ True) (fun _ ↦ True) 0 p
  | room + 1, p =>
    fitsAt lib
      (fun p ↦ ∀ e ∈ elementCursors (parseArgValueWithHint lib room) p, ScalarsFit lib room e.1)
      (fun p ↦ ∀ e, Kept (memberCursors lib (parseArgValueWithHint lib room) p) e →
        ∀ key q, parseKey lib e.1 = .ok (key, q) → ScalarsFit lib room q)
      (room + 1) p

/-- The arguments of a call, where they are read. -/
def argCursors (lib : Libraries) (callStart : Nat) (p : Parser) :
    List (Parser × String × ArgValue) :=
  let p := p.skipWs
  if p.peek = some ')' then []
  else okList (Parser.separated ')' "',' or ')'" (.unclosedCall callStart)
    (located (parseArg lib)) (p.rest.length + 1) [] p)

/-- The scalars of the call at the cursor fit. -/
def CallFits (lib : Libraries) (p : Parser) : Prop :=
  ∀ tool callStart q, parseCallHead p = .ok (tool, callStart, q) →
    ∀ e ∈ argCursors lib callStart q, ∀ name r, parseArgName e.1 = .ok (name, r) →
      ScalarsFit lib nestingDepthLimit r

/-- The operations of a request in function-call form, where they are read. -/
def opCursors (lib : Libraries) (text : List Char) : List (Parser × ParsedOp) :=
  if text.head? = some '[' then
    match openBatch text with
    | .ok p => okList (batchUnits (locatedOp (parseOp lib)) (p.rest.length + 1) [] [] p)
    | .error _ => []
  else
    match parseOp lib (Parser.new text) with
    | .ok (op, p) => okList (pipeline (locatedOp (parseOp lib)) (fun e ↦ rejectReservedArgs e.2)
        p.skipWs.rest.length [(Parser.new text, op)] p.skipWs)
    | .error _ => []

/-- The request is in JSON form, or the scalars of its calls fit. -/
def RequestFits (lib : Libraries) (input : List Char) : Prop :=
  looksLikeJson (trim input) = true ∨ ∀ e ∈ opCursors lib (trim input), CallFits lib e.1

/-! ## Scalars -/

private theorem takeWhile_drop {f : Char → Bool} (s : List Char) :
    (s.drop (s.takeWhile f).length).takeWhile f = [] := by
  induction s with
  | nil => rfl
  | cons c s ih =>
    by_cases hc : f c = true
    · rw [List.takeWhile_cons_of_pos hc, List.length_cons, List.drop_succ_cons, ih]
    · rw [List.takeWhile_cons_of_neg hc, List.length_nil, List.drop_zero,
        List.takeWhile_cons_of_neg hc]

theorem Parser.skipWs_skipWs (p : Parser) : p.skipWs.skipWs = p.skipWs := by
  have hnil : p.skipWs.rest.takeWhile isAsciiWhitespace = [] := takeWhile_drop p.rest
  rw [Parser.skipWs, hnil]
  rfl

/-- Trimming keeps a first character that is no whitespace. -/
theorem head_trim {c : Char} {cs : List Char} (hc : isWhitespace c = false) :
    (trim (c :: cs)).head? = some c := by
  rw [trim, List.dropWhile_cons_of_neg (by simp [hc]), List.reverse_cons, List.dropWhile_append]
  split_ifs
  · simp [List.dropWhile, hc]
  · rw [List.reverse_append]
    rfl

theorem isBlank_eq_false {c : Char} (hc : isWhitespace c = false) : Json.isBlank c = false := by
  rw [← Bool.not_eq_true]
  intro hblank
  simp only [Json.isBlank, Bool.or_eq_true, beq_iff_eq] at hblank
  rcases hblank with ((rfl | rfl) | rfl) | rfl <;> cases hc

theorem depth_stringAsPrevRef {s : String} {v : ArgValue} (h : stringAsPrevRef s = some v) :
    v.depth = 0 := by
  rw [stringAsPrevRef] at h
  split at h
  · split_ifs at h
    cases h
    rfl
  · split_ifs at h
    · cases h
      rfl
    · split at h
      · split_ifs at h
        cases h
        rfl
      · obtain ⟨after, -, h⟩ := Option.bind_eq_some_iff.mp h
        rw [indexedPrevRef] at h
        split_ifs at h
        cases h
        rfl

/-- A string is as shallow as what it may be promoted to. -/
theorem depth_promote (v : JsonValue) : (promote v).depth = v.depth := by
  cases v with
  | string s =>
    rw [promote]
    cases href : stringAsPrevRef s with
    | none => rfl
    | some w => exact depth_stringAsPrevRef href
  | null => rfl
  | bool b => rfl
  | number n => rfl
  | array xs => rfl
  | object ms => rfl

section Scalars

variable {lib : Libraries} (hlib : lib.Sound)
include hlib

/-- A text that starts with none of the two brackets, nor with whitespace, is no container. -/
theorem depth_fromStr_eq_zero {s : List Char} {v : JsonValue} (h : lib.fromStr s = .ok v)
    (hhead : ∀ c ∈ s.head?, c ≠ '[' ∧ c ≠ '{' ∧ isWhitespace c = false) : v.depth = 0 := by
  obtain ⟨n, -, hspells⟩ := hlib s v h
  refine (hspells.depth_eq_zero fun c hc ↦ ?_).1
  obtain ⟨hbrack, hbrace, hspace⟩ := hhead c hc
  exact ⟨hbrack, hbrace, isBlank_eq_false hspace⟩

omit hlib in
/-- A text cut at the cursor and trimmed starts with the cursor's character, unless that is
whitespace. -/
theorem head_trim_take {p : Parser} {span : Nat} {c : Char}
    (hspace : ¬p.peek.any isWhitespace = true) (hc : c ∈ (trim (p.rest.take span)).head?) :
    p.peek = some c ∧ isWhitespace c = false := by
  cases hrest : p.rest with
  | nil =>
    rw [hrest, List.take_nil] at hc
    cases hc
  | cons d ds =>
    have hpeek : p.peek = some d := by rw [Parser.peek, hrest, List.head?_cons]
    have hd : isWhitespace d = false := by
      rw [hpeek, Option.any_some, Bool.not_eq_true] at hspace
      exact hspace
    cases span with
    | zero =>
      rw [List.take_zero] at hc
      cases hc
    | succ span =>
      rw [hrest, List.take_succ_cons, head_trim hd] at hc
      cases hc
      exact ⟨hpeek, hd⟩

/-- A scalar fits exactly when its value does. -/
theorem parseValue_depth_le {hint : Option String} {p q : Parser} {v : JsonValue} {room : Nat}
    (h : parseValue lib hint p.skipWs = .ok (v, q)) (hbrack : p.skipWs.peek ≠ some '[')
    (hbrace : p.skipWs.peek ≠ some '{') :
    v.depth ≤ room ↔ scalarFits lib room p.skipWs := by
  obtain ⟨span, hspan, h⟩ := bind_eq_ok.mp h
  obtain ⟨w, hdecode, h⟩ := bind_eq_ok.mp h
  cases h
  rw [p.skipWs_skipWs] at hspan hdecode
  rw [decodeScalar] at hdecode
  by_cases hquote : (trim (p.skipWs.rest.take span)).head? = some '"'
  · -- a quoted string, and no reading of its text as JSON makes it a container
    rw [if_pos hquote] at hdecode
    obtain ⟨s, -, rfl⟩ := map_eq_ok.mp hdecode
    refine iff_of_true (Nat.zero_le _) fun _ span' v hspan' hv ↦ ?_
    rw [hspan] at hspan'
    cases hspan'
    have hzero : v.depth = 0 := by
      refine depth_fromStr_eq_zero hlib hv fun c hc ↦ ?_
      rw [hquote] at hc
      cases hc
      decide
    omega
  · rw [if_neg hquote, mapError_eq_ok] at hdecode
    constructor
    · intro hle _ span' v' hspan' hv'
      rw [hspan] at hspan'
      cases hspan'
      rw [hdecode] at hv'
      cases hv'
      exact hle
    · intro hfits
      by_cases hspace : p.skipWs.peek.any isWhitespace = true
      · exact hfits hspace span v hspan hdecode
      · have hzero : v.depth = 0 := by
          refine depth_fromStr_eq_zero hlib hdecode fun c hc ↦ ?_
          obtain ⟨hpeek, hc⟩ := head_trim_take hspace hc
          rw [hpeek] at hbrack hbrace
          exact ⟨fun h ↦ hbrack (congrArg some h), fun h ↦ hbrace (congrArg some h), hc⟩
        omega

end Scalars

/-! ## Literals -/

private theorem asValue_eq_some {x : ArgValue} {v : JsonValue} :
    x.asValue = some v ↔ x = .value v := by
  cases x <;> simp [ArgValue.asValue]

/-- A literal's parts fold, or one of them does not. -/
private theorem mapM_cases {α β : Type} (f : α → Option β) (as : List α) :
    (∃ bs, as.mapM f = some bs ∧ List.Forall₂ (fun a b ↦ f a = some b) as bs) ∨
      (as.mapM f = none ∧ ∃ a ∈ as, f a = none) := by
  induction as with
  | nil => exact Or.inl ⟨[], rfl, .nil⟩
  | cons a as ih =>
    rw [List.mapM_cons]
    cases ha : f a with
    | none => exact Or.inr ⟨rfl, a, List.mem_cons_self, ha⟩
    | some b =>
      rcases ih with ⟨bs, hbs, hall⟩ | ⟨hnone, a', ha', hf⟩
      · exact Or.inl ⟨b :: bs, by rw [hbs]; rfl, .cons ha hall⟩
      · exact Or.inr ⟨by rw [hnone]; rfl, a', List.mem_cons_of_mem _ ha', hf⟩

theorem depth_foldArray_le {elements : List ArgValue} {n : Nat} :
    (foldArray elements).depth ≤ n + 1 ↔ ∀ x ∈ elements, x.depth ≤ n := by
  rw [foldArray]
  rcases mapM_cases ArgValue.asValue elements with ⟨vs, hvs, hall⟩ | ⟨hnone, -⟩
  · rw [hvs]
    change Json.depthItems vs + 1 ≤ n + 1 ↔ _
    rw [Nat.add_le_add_iff_right, Json.depthItems_le]
    clear hvs
    induction hall with
    | nil => simp
    | cons hx _ ih => rw [List.forall_mem_cons, List.forall_mem_cons, ih, asValue_eq_some.mp hx,
        ArgValue.depth]
  · rw [hnone]
    change ArgValue.depthElements elements + 1 ≤ n + 1 ↔ _
    rw [Nat.add_le_add_iff_right, ArgValue.depthElements_le]

private theorem map_value_of_fold {pairs : List (String × ArgValue)}
    {ms : List (String × JsonValue)}
    (h : List.Forall₂ (fun m b ↦ (m.2.asValue.map fun v ↦ (m.1, v)) = some b) pairs ms) :
    pairs = ms.map fun m ↦ (m.1, .value m.2) := by
  induction h with
  | nil => rfl
  | cons hx _ ih =>
    obtain ⟨v, hv, rfl⟩ := Option.map_eq_some_iff.mp hx
    rw [List.map_cons, ← ih, ← asValue_eq_some.mp hv]

/-- A folded object keeps the last member of each name, any other object literal all. -/
theorem depth_foldObject_le {members : List (Parser × String × ArgValue)} {n : Nat} :
    (foldObject (members.map Prod.snd)).depth ≤ n + 1 ↔
      ∀ e, Kept members e → e.2.2.depth ≤ n := by
  rw [foldObject]
  rcases mapM_cases (fun m : String × ArgValue ↦ m.2.asValue.map fun v ↦ (m.1, v))
    (members.map Prod.snd) with ⟨ms, hms, hall⟩ | ⟨hnone, m, hm, hstuck⟩
  · rw [hms]
    -- every member is a value, and the folded members are those values
    have hmembers := map_value_of_fold hall
    have hvalues : ∀ e ∈ members, e.2.2.asValue.isSome = true := by
      intro e he
      have hmem : e.2 ∈ ms.map fun m ↦ (m.1, ArgValue.value m.2) :=
        hmembers ▸ List.mem_map_of_mem he
      obtain ⟨m, -, hm⟩ := List.mem_map.mp hmem
      rw [← hm]
      rfl
    change Json.depthMembers (SortedMap.collect ms) + 1 ≤ n + 1 ↔ _
    rw [Nat.add_le_add_iff_right, Json.depthMembers_le]
    simp only [SortedMap.mem_collect]
    constructor
    · rintro h e ⟨-, hkept⟩
      obtain ⟨before, after, rfl, hlast⟩ := hkept hvalues
      rw [List.map_append, List.map_cons, eq_comm, List.map_eq_append_iff] at hmembers
      obtain ⟨ms₁, ms₂, rfl, -, hms₂⟩ := hmembers
      obtain ⟨m, ms₂, rfl, hm, hafter⟩ := List.map_eq_cons_iff.mp hms₂
      have hkeys : (ms₂.map Prod.fst) = after.map fun m ↦ m.2.1 := by
        have hfst := congrArg (List.map Prod.fst) hafter
        rwa [List.map_map, List.map_map] at hfst
      rw [← hm]
      refine h m ⟨ms₁, ms₂, rfl, ?_⟩
      rw [hkeys]
      rwa [← hm] at hlast
    · rintro h m ⟨ms₁, ms₂, rfl, hlast⟩
      rw [List.map_append, List.map_cons, List.map_eq_append_iff] at hmembers
      obtain ⟨before, rest, rfl, -, hrest⟩ := hmembers
      obtain ⟨e, after, rfl, he, hafter⟩ := List.map_eq_cons_iff.mp hrest
      have hkeys : (after.map fun m ↦ m.2.1) = ms₂.map Prod.fst := by
        have hfst := congrArg (List.map Prod.fst) hafter
        rwa [List.map_map, List.map_map] at hfst
      have hle := h e ⟨List.mem_append_right _ List.mem_cons_self, fun _ ↦
        ⟨before, after, rfl, by rw [hkeys, he]; exact hlast⟩⟩
      rw [he] at hle
      exact hle
  · rw [hnone]
    change ArgValue.depthPairs (members.map Prod.snd) + 1 ≤ n + 1 ↔ _
    rw [Nat.add_le_add_iff_right, ArgValue.depthPairs_le, List.forall_mem_map]
    have hdynamic : ¬∀ e ∈ members, e.2.2.asValue.isSome = true := by
      intro hvalues
      obtain ⟨e, he, rfl⟩ := List.mem_map.mp hm
      rw [Option.map_eq_none_iff] at hstuck
      have hsome := hvalues e he
      rw [hstuck] at hsome
      cases hsome
    exact ⟨fun h e he ↦ h e he.1, fun h e he ↦ h e ⟨he, fun hvalues ↦ absurd hvalues hdynamic⟩⟩

/-! ## Values -/

section Values

variable {lib : Libraries}
  {value : Option String → Parser → Except DslError (ArgValue × Parser)} {room : Nat}

/-- An array literal fits when its elements do. -/
theorem parseArrayArgBody_depth_le {p q : Parser} {v : ArgValue}
    (h : parseArrayArgBody value p = .ok (v, q)) :
    (v.depth ≤ room + 1 ↔ ∀ e ∈ elementCursors value p, e.2.depth ≤ room) ∧
      ∀ e ∈ elementCursors value p, ∃ r, value none e.1 = .ok (e.2, r) := by
  rw [parseArrayArgBody] at h
  rw [elementCursors]
  dsimp only at h ⊢
  split_ifs at h ⊢ with hempty
  · cases h
    simp [ArgValue.depth, Json.depth, Json.depthItems]
  · obtain ⟨⟨elements, p₁⟩, hrun, h⟩ := bind_eq_ok.mp h
    cases h
    obtain ⟨cursors, hrun', hmap, hread⟩ := separated_cursors hrun
    rw [hrun', okList]
    dsimp only at hmap ⊢
    refine ⟨?_, fun e he ↦ ?_⟩
    · rw [depth_foldArray_le, ← hmap, List.forall_mem_map]
    · obtain ⟨before, r, h⟩ := hread e he
      exact ⟨r, h⟩

/-- An object literal fits when the members it keeps do. -/
theorem parseObjectArgBody_depth_le {p q : Parser} {v : ArgValue}
    (h : parseObjectArgBody lib value p = .ok (v, q)) :
    (v.depth ≤ room + 1 ↔ ∀ e, Kept (memberCursors lib value p) e → e.2.2.depth ≤ room) ∧
      ∀ e ∈ memberCursors lib value p, ∃ r, parseMember lib value e.1 = .ok (e.2, r) := by
  rw [parseObjectArgBody] at h
  rw [memberCursors]
  dsimp only at h ⊢
  split_ifs at h ⊢ with hempty
  · cases h
    simp [Kept, ArgValue.depth, Json.depth, Json.depthMembers]
  · obtain ⟨⟨pairs, p₁⟩, hrun, h⟩ := bind_eq_ok.mp h
    cases h
    obtain ⟨cursors, hrun', hmap, hread⟩ := separated_cursors hrun
    rw [hrun', okList]
    dsimp only at hmap ⊢
    refine ⟨?_, fun e he ↦ ?_⟩
    · rw [← hmap, depth_foldObject_le]
    · obtain ⟨before, r, h⟩ := hread e he
      exact ⟨r, h⟩

end Values

theorem parsePrevRef_depth_le {p q : Parser} {v : ArgValue} {room : Nat}
    (h : p.parsePrevRef = .ok (v, q)) : v.depth ≤ room := by
  obtain ⟨⟨ident, p₁⟩, -, h⟩ := bind_eq_ok.mp h
  dsimp only at h
  split_ifs at h
  obtain ⟨⟨path, p₂⟩, -, h⟩ := bind_eq_ok.mp h
  cases h
  exact Nat.zero_le _

/-- **Depth of a value**: what is read at the cursor stays within the room exactly when the
scalars in it fit. -/
theorem parseArgValueWithHint_depth_le {lib : Libraries} (hlib : lib.Sound) (room : Nat)
    {hint : Option String} {p q : Parser} {v : ArgValue}
    (h : parseArgValueWithHint lib room hint p = .ok (v, q)) :
    v.depth ≤ room ↔ ScalarsFit lib room p := by
  induction room generalizing hint p q v with
  | zero =>
    rw [parseArgValueWithHint, parseArgValueAt] at h
    rw [ScalarsFit, fitsAt]
    dsimp only at h ⊢
    split_ifs at h ⊢ with hdollar hbrack hbrace
    · exact iff_of_true (parsePrevRef_depth_le h) trivial
    · cases h
    · cases h
    · obtain ⟨⟨w, p₁⟩, hw, h⟩ := bind_eq_ok.mp h
      cases h
      rw [depth_promote]
      exact parseValue_depth_le hlib hw hbrack hbrace
  | succ room ih =>
    rw [parseArgValueWithHint, parseArgValueAt] at h
    rw [ScalarsFit, fitsAt]
    dsimp only at h ⊢
    split_ifs at h ⊢ with hdollar hbrack hbrace
    · exact iff_of_true (parsePrevRef_depth_le h) trivial
    · -- an array takes one level, and each element is read with one less
      obtain ⟨hdepth, hread⟩ := parseArrayArgBody_depth_le h
      rw [hdepth]
      refine forall₂_congr fun e he ↦ ?_
      obtain ⟨r, hr⟩ := hread e he
      exact ih hr
    · obtain ⟨hdepth, hread⟩ := parseObjectArgBody_depth_le h
      rw [hdepth]
      refine forall₂_congr fun e he ↦ ?_
      obtain ⟨r, hr⟩ := hread e he.1
      obtain ⟨⟨key, p₁⟩, hkey, hr⟩ := bind_eq_ok.mp hr
      obtain ⟨⟨w, p₂⟩, hw, hr⟩ := bind_eq_ok.mp hr
      obtain ⟨heq, -⟩ := Prod.mk.inj (Except.ok.inj hr)
      rw [← heq, ih hw]
      -- the parser reads one key at a cursor
      refine ⟨fun hfits key' q' hkey' ↦ ?_, fun hfits ↦ hfits key p₁ hkey⟩
      rw [hkey] at hkey'
      cases hkey'
      exact hfits
    · obtain ⟨⟨w, p₁⟩, hw, h⟩ := bind_eq_ok.mp h
      cases h
      rw [depth_promote]
      exact parseValue_depth_le hlib hw hbrack hbrace

/-! ## Calls -/

/-- No two arguments of a call have one name. -/
theorem parseArg_nodup {lib : Libraries} {args : List (String × ArgValue)} {p q : Parser}
    {arg : String × ArgValue} (hargs : (args.map Prod.fst).Nodup)
    (h : parseArg lib args p = .ok (arg, q)) : ((args ++ [arg]).map Prod.fst).Nodup := by
  obtain ⟨⟨name, p₁⟩, -, h⟩ := bind_eq_ok.mp h
  obtain ⟨⟨v, p₂⟩, -, h⟩ := bind_eq_ok.mp h
  dsimp only at h
  split_ifs at h with hduplicate
  cases h
  rw [List.map_append, List.map_cons, List.map_nil, List.nodup_append]
  refine ⟨hargs, List.nodup_singleton _, fun a ha b hb ↦ ?_⟩
  rintro rfl
  cases List.mem_singleton.mp hb
  obtain ⟨m, hm, heq⟩ := List.mem_map.mp ha
  exact hduplicate (List.any_eq_true.mpr ⟨m, hm, beq_iff_eq.mpr heq⟩)

/-- The arguments of a call, each read at its cursor. -/
theorem parseArgs_cursors {lib : Libraries} {callStart : Nat} {p q : Parser}
    {args : List (String × ArgValue)} (h : parseArgs lib callStart p = .ok (args, q)) :
    (args.map Prod.fst).Nodup ∧ (argCursors lib callStart p).map Prod.snd = args ∧
      ∀ e ∈ argCursors lib callStart p, ∃ before r, parseArg lib before e.1 = .ok (e.2, r) := by
  rw [parseArgs] at h
  rw [argCursors]
  split_ifs at h ⊢ with hclose heof
  · cases h
    simp
  · obtain ⟨cursors, hrun, hmap, hread⟩ := separated_cursors h
    rw [hrun]
    have hnil : (([] : List (String × ArgValue)).map Prod.fst).Nodup := List.nodup_nil
    exact ⟨separated_invariant (motive := fun args ↦ (args.map Prod.fst).Nodup)
      parseArg_nodup hnil h, hmap, hread⟩

/-- The arguments of a call stay within the limit exactly when its scalars fit. -/
theorem parseOp_depth_le {lib : Libraries} (hlib : lib.Sound) {p q : Parser} {op : ParsedOp}
    (h : parseOp lib p = .ok (op, q)) :
    (∀ arg ∈ op.args, arg.2.depth ≤ nestingDepthLimit) ↔ CallFits lib p := by
  obtain ⟨⟨tool, callStart, p₁⟩, hhead, h⟩ := bind_eq_ok.mp h
  obtain ⟨⟨args, p₂⟩, hargs, h⟩ := bind_eq_ok.mp h
  cases h
  obtain ⟨hnodup, hmap, hread⟩ := parseArgs_cursors hargs
  have hall : (∀ arg ∈ SortedMap.collect args, arg.2.depth ≤ nestingDepthLimit) ↔
      ∀ e ∈ argCursors lib callStart p₁, e.2.2.depth ≤ nestingDepthLimit := by
    rw [← List.forall_mem_map (f := Prod.snd)
      (P := fun arg : String × ArgValue ↦ arg.2.depth ≤ nestingDepthLimit), hmap]
    exact forall_congr' fun arg ↦ imp_congr_left (SortedMap.mem_collect_of_nodup hnodup)
  have hfits : CallFits lib p ↔ ∀ e ∈ argCursors lib callStart p₁, ∀ name r,
      parseArgName e.1 = .ok (name, r) → ScalarsFit lib nestingDepthLimit r := by
    refine ⟨fun h ↦ h tool callStart p₁ hhead, fun h tool' callStart' q hq ↦ ?_⟩
    rw [hhead] at hq
    cases hq
    exact h
  rw [hall, hfits]
  refine forall₂_congr fun e he ↦ ?_
  obtain ⟨before, r, hr⟩ := hread e he
  obtain ⟨⟨name, q₁⟩, hname, hr⟩ := bind_eq_ok.mp hr
  obtain ⟨⟨v, q₂⟩, hv, hr⟩ := bind_eq_ok.mp hr
  dsimp only at hr
  split_ifs at hr
  obtain ⟨heq, -⟩ := Prod.mk.inj (Except.ok.inj hr)
  rw [← heq, parseArgValueWithHint_depth_le hlib _ hv]
  refine ⟨fun hfits name' r' hname' ↦ ?_, fun hfits ↦ hfits name q₁ hname⟩
  rw [hname] at hname'
  cases hname'
  exact hfits

/-! ## JSON form -/

theorem depth_getMember_le {members : List (String × JsonValue)} {key : String} {v : JsonValue}
    (h : getMember members key = some v) : v.depth ≤ Json.depthMembers members := by
  obtain ⟨m, hm, rfl⟩ := Option.map_eq_some_iff.mp h
  exact Json.depthMembers_le.mp (Nat.le_refl _) m (List.mem_of_find?_eq_some hm)

/-- The arguments of a batch entry are shallower than the entry. -/
theorem parseEntry_depth_le {lib : Libraries} {entry : JsonValue} {op : ParsedOp}
    (h : parseEntry lib entry = .ok op) : ∀ arg ∈ op.args, arg.2.depth ≤ entry.depth := by
  rw [parseEntry] at h
  cases entry with
  | object members =>
    obtain ⟨-, h⟩ := seq_eq_ok.mp h
    obtain ⟨tool, -, h⟩ := bind_eq_ok.mp h
    obtain ⟨args, hargs, h⟩ := bind_eq_ok.mp h
    obtain ⟨-, rfl, -⟩ := jsonOp_eq_ok.mp h
    have hdepth : Json.depthMembers args ≤ Json.depthMembers members := by
      rw [entryArgs] at hargs
      cases hmember : getMember members "args" with
      | none =>
        rw [hmember] at hargs
        cases hargs
        exact Nat.zero_le _
      | some v =>
        rw [hmember, Option.getD_some] at hargs
        cases v with
        | object args' =>
          cases hargs
          exact Nat.le_of_succ_le (depth_getMember_le hmember)
        | null => cases hargs
        | bool b => cases hargs
        | number n => cases hargs
        | string s => cases hargs
        | array xs => cases hargs
    intro arg harg
    obtain ⟨m, hm, rfl⟩ := List.mem_map.mp (SortedMap.mem_of_mem_collect harg)
    have hle := Json.depthMembers_le.mp hdepth m hm
    exact Nat.le_succ_of_le hle
  | null => cases h
  | bool b => cases h
  | number n => cases h
  | string s => cases h
  | array xs => cases h

theorem parseJsonForm_depth_le {lib : Libraries} (hlib : lib.Sound) {input : List Char}
    {req : ParsedRequest} (h : parseJsonForm lib input = .ok req) :
    ∀ op ∈ req.ops, ∀ arg ∈ op.args, arg.2.depth ≤ nestingDepthLimit := by
  obtain ⟨v, arr, isSingle, hcheck, hv, hentries, -, -, hops, -⟩ := parseJsonForm_spec h
  obtain ⟨n, -, hspells⟩ := hlib input v hv
  have hdepth : v.depth ≤ nestingDepthLimit :=
    hspells.depth_le.trans ((checkJsonNestingDepth_eq_ok hspells).mp hcheck)
  have hentry : ∀ entry ∈ arr, entry.depth ≤ v.depth := by
    cases v with
    | array items =>
      cases hentries
      intro entry hmem
      exact Nat.le_succ_of_le (Json.depthItems_le.mp (Nat.le_refl _) entry hmem)
    | object members =>
      cases hentries
      intro entry hmem
      cases List.mem_singleton.mp hmem
      exact Nat.le_refl _
    | null => cases hentries
    | bool b => cases hentries
    | number n => cases hentries
    | string s => cases hentries
  intro op hop arg harg
  obtain ⟨entry, hmem, hparsed⟩ := exists_of_mem_mapM hops hop
  exact (parseEntry_depth_le hparsed arg harg).trans ((hentry entry hmem).trans hdepth)

/-! ## Requests -/

section Requests

variable {lib : Libraries} {text : List Char} {req : ParsedRequest}

theorem parsePlain_cursors (hhead : text.head? ≠ some '[') (h : parsePlain lib text = .ok req) :
    (opCursors lib text).map Prod.snd = req.ops ∧
      ∀ e ∈ opCursors lib text, ∃ r, parseOp lib e.1 = .ok (e.2, r) := by
  obtain ⟨⟨firstOp, p⟩, hfirst, h⟩ := bind_eq_ok.mp h
  rw [opCursors, if_neg hhead, hfirst]
  dsimp only at h ⊢
  split at h
  · rename_i hpeek
    have hempty : p.skipWs.rest = [] := List.head?_eq_none_iff.mp hpeek
    obtain ⟨-, h⟩ := seq_eq_ok.mp h
    obtain ⟨-, h⟩ := seq_eq_ok.mp h
    cases h
    rw [hempty]
    refine ⟨rfl, fun e he ↦ ?_⟩
    cases List.mem_singleton.mp he
    exact ⟨p, hfirst⟩
  · split_ifs at h
    obtain ⟨-, h⟩ := seq_eq_ok.mp h
    obtain ⟨⟨ops, p₁⟩, hops, h⟩ := bind_eq_ok.mp h
    obtain ⟨-, h⟩ := seq_eq_ok.mp h
    cases h
    have hone : pipeline (parseOp lib) rejectReservedArgs p.skipWs.rest.length
        ([(Parser.new text, firstOp)].map Prod.snd) p.skipWs = .ok (ops, p₁) := hops
    obtain ⟨cursors, hrun, hmap, hread⟩ := pipeline_located hone
    rw [hrun]
    refine ⟨hmap, fun e he ↦ ?_⟩
    rcases hread e he with hmem | hmem
    · cases List.mem_singleton.mp hmem
      exact ⟨p, hfirst⟩
    · exact hmem

theorem parseFnBatch_cursors (hhead : text.head? = some '[')
    (h : parseFnBatch lib text = .ok req) :
    (opCursors lib text).map Prod.snd = req.ops ∧
      ∀ e ∈ opCursors lib text, ∃ r, parseOp lib e.1 = .ok (e.2, r) := by
  obtain ⟨p, hopen, h⟩ := bind_eq_ok.mp h
  obtain ⟨⟨ops, ranges, p₁⟩, hunits, h⟩ := bind_eq_ok.mp h
  obtain ⟨-, h⟩ := seq_eq_ok.mp h
  obtain ⟨-, h⟩ := seq_eq_ok.mp h
  obtain ⟨-, h⟩ := seq_eq_ok.mp h
  cases h
  obtain ⟨cursors, hrun, hmap, hread⟩ := batchUnits_cursors hunits
  rw [opCursors, if_pos hhead, hopen]
  dsimp only
  rw [hrun]
  exact ⟨hmap, hread⟩

end Requests

/-- **Nesting of arguments**: the arguments of an accepted request all nest within the limit
exactly when the request is in JSON form or no scalar that starts with whitespace, of the kind
the parser does not skip, is too deep for the literals around it. -/
theorem parseRequest_depth_iff (lib : Libraries) (hlib : lib.Sound) (input : List Char)
    (req : ParsedRequest) (h : parseRequest lib input = .ok req) :
    (∀ op ∈ req.ops, ∀ arg ∈ op.args, arg.2.depth ≤ nestingDepthLimit) ↔
      RequestFits lib input := by
  have hcalls : looksLikeJson (trim input) = false →
      (opCursors lib (trim input)).map Prod.snd = req.ops →
      (∀ e ∈ opCursors lib (trim input), ∃ r, parseOp lib e.1 = .ok (e.2, r)) →
      ((∀ op ∈ req.ops, ∀ arg ∈ op.args, arg.2.depth ≤ nestingDepthLimit) ↔
        RequestFits lib input) := by
    intro hjson hmap hread
    rw [RequestFits, hjson, ← hmap, List.forall_mem_map]
    simp only [Bool.false_eq_true, false_or]
    refine forall₂_congr fun e he ↦ ?_
    obtain ⟨r, hr⟩ := hread e he
    exact parseOp_depth_le hlib hr
  rcases parseRequest_cases h with ⟨hjson, h⟩ | ⟨hjson, hhead, h⟩ | ⟨hjson, hhead, h⟩
  · exact iff_of_true (parseJsonForm_depth_le hlib h) (Or.inl hjson)
  · obtain ⟨hmap, hread⟩ := parseFnBatch_cursors hhead h
    exact hcalls hjson hmap hread
  · obtain ⟨hmap, hread⟩ := parsePlain_cursors hhead h
    exact hcalls hjson hmap hread

/-! A vertical tab in front of sixty-five brackets. -/

private def nestedText (n : Nat) : List Char := List.replicate n '[' ++ List.replicate n ']'

private def nestedValue : Nat → JsonValue
  | 0 => .array []
  | n + 1 => .array [nestedValue n]

private def nestedLibraries : Libraries where
  fromStr s := if s = nestedText 65 then .ok (nestedValue 64)
    else .error ⟨"expected value at line 1 column 1", 1, 1⟩
  stringFromStr _ := .error ⟨"expected value at line 1 column 1", 1, 1⟩
  display _ := "null"
  unprintable _ := false

private theorem spells_nested (n : Nat) :
    Json.Spells (.value (nestedValue n)) (nestedText (n + 1)) (n + 1) := by
  induction n with
  | zero => exact .array (.noItems (by simp))
  | succ n ih =>
    have htext : nestedText (n + 2) = '[' :: (nestedText (n + 1) ++ [']']) := by
      rw [nestedText, nestedText, List.replicate_succ, List.cons_append, List.append_assoc,
        ← List.replicate_succ']
    rw [htext]
    exact .array (.lastItem ih)

private theorem sound_nestedLibraries : nestedLibraries.Sound := by
  intro s v h
  simp only [nestedLibraries] at h
  split_ifs at h with hs
  cases h
  subst hs
  exact ⟨65, by decide, spells_nested 64⟩

private def verticalTabCall : List Char :=
  ['f', '(', 'x', '=', '\x0B'] ++ nestedText 65 ++ [')']

private theorem depth_nestedValue (n : Nat) : (nestedValue n).depth = n + 1 := by
  induction n with
  | zero => rfl
  | succ n ih => simp [nestedValue, Json.depth, Json.depthItems, ih]

private def verticalTabRequest : ParsedRequest where
  ops := [⟨"f", [("x", .value (nestedValue 64))]⟩]
  mode := .single
  ranges := [⟨0, 1⟩]

set_option maxRecDepth 20000 in
private theorem parseRequest_verticalTabCall :
    parseRequest nestedLibraries verticalTabCall = .ok verticalTabRequest := by rfl

theorem parseRequest_vertical_tab :
    nestedLibraries.Sound ∧
      parseRequest nestedLibraries verticalTabCall = .ok verticalTabRequest ∧
      ∃ op ∈ verticalTabRequest.ops, ∃ arg ∈ op.args, ¬arg.2.depth ≤ nestingDepthLimit := by
  refine ⟨sound_nestedLibraries, parseRequest_verticalTabCall, _, List.mem_cons_self,
    _, List.mem_cons_self, ?_⟩
  rw [ArgValue.depth, depth_nestedValue]
  decide

theorem parseRequest_depth_iff_vertical_tab :
    nestedLibraries.Sound ∧ ¬RequestFits nestedLibraries verticalTabCall := by
  refine ⟨sound_nestedLibraries, fun hfits ↦ ?_⟩
  have hdepth := (parseRequest_depth_iff nestedLibraries sound_nestedLibraries verticalTabCall
    verticalTabRequest parseRequest_verticalTabCall).mpr hfits
  have hle := hdepth _ List.mem_cons_self _ List.mem_cons_self
  rw [ArgValue.depth, depth_nestedValue] at hle
  exact absurd hle (by decide)

end Khive
