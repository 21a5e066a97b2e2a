import Khive.Foundation.JsonString
import Khive.Foundation.Utf8
import Khive.Request.Types

/-!
# Scanning request text

The scanners of the request parser work on bytes. Every character they compare with is ASCII, and
a byte of a longer character never is, so the text is kept here as the list of its characters and
only positions are counted in bytes. A scanner that jumps forward, over a string literal, is a
recursion over the text that skips as many characters.

The nesting check reads nothing but brackets outside strings. On a JSON text it comes back to the
depth it started from, and fails exactly when the text nests beyond the limit.
-/

namespace Khive

/-! ## Characters -/

/-- `str::trim`. -/
def trim (s : List Char) : List Char :=
  ((s.dropWhile isWhitespace).reverse.dropWhile isWhitespace).reverse

/-- `byte as char`, for the first byte of a character. -/
def leadByte (c : Char) : Char :=
  if c.toNat < 0x80 then c
  else if c.toNat < 0x800 then Char.ofNat (0xC0 + c.toNat / 0x40)
  else if c.toNat < 0x10000 then Char.ofNat (0xE0 + c.toNat / 0x1000)
  else Char.ofNat (0xF0 + c.toNat / 0x40000)

/-- `char_label`. -/
def charLabel : Char → String
  | '(' => "'('"
  | ')' => "')'"
  | '[' => "'['"
  | ']' => "']'"
  | '=' => "'='"
  | ',' => "','"
  | _ => "expected char"

/-! ## String literals -/

/-- How many characters of the text behind an opening quote belong to the literal. -/
def stringSpan : List Char → Option Nat
  | [] => none
  | '\\' :: _ :: cs => (stringSpan cs).map (· + 2)
  | ['\\'] => none
  | '"' :: _ => some 1
  | _ :: cs => (stringSpan cs).map (· + 1)

/-- `scan_string_end`, for the text behind the opening quote at byte `start`. -/
def scanStringEnd (cs : List Char) (start : Nat) : Except DslError Nat :=
  match stringSpan cs with
  | some span => .ok span
  | none => .error (.unclosedString start)

/-- The scan ends at the closing quote. -/
theorem stringSpan_body {b rest : List Char} (hb : Json.StringBody b) :
    stringSpan (b ++ '"' :: rest) = some (b ++ ['"']).length := by
  induction hb with
  | nil => rfl
  | @char c cs hquote hescape _ ih =>
    rw [List.cons_append, stringSpan]
    · rw [ih]
      rfl
    · exact fun _ _ h _ ↦ hescape h
    · exact fun h _ ↦ hescape h
    · exact hquote
  | escape c _ ih =>
    rw [List.cons_append, List.cons_append, stringSpan, ih]
    rfl

/-- A control character that reaches the JSON parser as it stands. -/
structure ControlByteHit where
  normalizedPos : Nat
  rawPos : Nat
  byte : Char
  precededByBackslash : Bool

structure NormalizedQuotedString where
  text : List Char
  firstControlByte : Option ControlByteHit

/-- The variables of the loop in `normalize_quoted_string`. The output is kept even while it
equals the input. -/
structure Normalizer where
  out : List Char
  firstControlByte : Option ControlByteHit
  hexSlotsRemaining : Nat
  hexAcc : Nat
  hexValid : Bool
  afterHighSurrogate : Bool

namespace Normalizer

def isControl (c : Char) : Bool := c.toNat < 0x20

/-- Note a control character unless one has been noted. -/
def note (st : Normalizer) (rawPos : Nat) (c : Char) (precededByBackslash : Bool) : Normalizer :=
  if st.firstControlByte.isNone then
    { st with firstControlByte := some ⟨utf8Len st.out, rawPos, c, precededByBackslash⟩ }
  else st

/-- One of the four characters behind `\u`. -/
def hexSlot (st : Normalizer) (c : Char) : Normalizer :=
  let slots := st.hexSlotsRemaining - 1
  let acc := match hexDigit c with
    | some d => st.hexAcc * 16 + d
    | none => st.hexAcc
  let valid := st.hexValid && (hexDigit c).isSome
  { st with
    out := st.out ++ [c]
    hexSlotsRemaining := slots
    hexAcc := acc
    hexValid := valid
    afterHighSurrogate :=
      if slots = 0 then valid && (0xD800 ≤ acc && acc ≤ 0xDBFF) else st.afterHighSurrogate }

/-- The character behind a backslash. -/
def escaped (st : Normalizer) (nextPos : Nat) (next : Char) : Normalizer :=
  let high := st.afterHighSurrogate
  let st := { st with out := st.out ++ ['\\'], afterHighSurrogate := false }
  if next = 'u' then
    { st with out := st.out ++ [next], hexSlotsRemaining := 4, hexAcc := 0, hexValid := true }
  else
    let st := if isControl next && !high then st.note nextPos next true else st
    { st with out := st.out ++ [next] }

/-- A character outside escapes. -/
def plain (st : Normalizer) (pos : Nat) (c : Char) : Normalizer :=
  let st := { st with afterHighSurrogate := false }
  if c = '\n' then { st with out := st.out ++ ['\\', 'n'] }
  else if c = '\r' then { st with out := st.out ++ ['\\', 'r'] }
  else if c = '\t' then { st with out := st.out ++ ['\\', 't'] }
  else
    let st := if isControl c then st.note pos c false else st
    { st with out := st.out ++ [c] }

/-- The loop of `normalize_quoted_string`. -/
def run : List Char → Nat → Normalizer → Normalizer
  | [], _, st => st
  | c :: cs, pos, st =>
    if st.hexSlotsRemaining > 0 then run cs (pos + c.utf8Size) (st.hexSlot c)
    else if c = '\\' then
      match cs with
      | [] => { st with out := st.out ++ [c] }
      | next :: cs => run cs (pos + 1 + next.utf8Size) (st.escaped (pos + 1) next)
    else run cs (pos + c.utf8Size) (st.plain pos c)

end Normalizer

/-- `normalize_quoted_string`: raw line feeds, carriage returns and tabs become escapes. -/
def normalizeQuotedString (raw : List Char) : NormalizedQuotedString :=
  let st := Normalizer.run raw 0 ⟨[], none, 0, 0, true, false⟩
  ⟨st.out, st.firstControlByte⟩

/-! ## `$prev` references -/

/-- `is_prev_ref_string`. -/
def isPrevRefString (s : String) : Bool :=
  s == "$prev" || "$prev.".toList.isPrefixOf s.toList || "$prev[".toList.isPrefixOf s.toList

mutual

/-- `json_value_contains_prev_ref_at`. -/
def jsonValueContainsPrevRefAt : JsonValue → Nat → Bool
  | .string s, depth => nestingDepthLimit < depth || isPrevRefString s
  | .array items, depth => nestingDepthLimit < depth || anyItemContainsPrevRef items (depth + 1)
  | .object members, depth =>
    nestingDepthLimit < depth || anyMemberContainsPrevRef members (depth + 1)
  | _, depth => nestingDepthLimit < depth

def anyItemContainsPrevRef : List JsonValue → Nat → Bool
  | [], _ => false
  | x :: xs, depth => jsonValueContainsPrevRefAt x depth || anyItemContainsPrevRef xs depth

def anyMemberContainsPrevRef : List (String × JsonValue) → Nat → Bool
  | [], _ => false
  | m :: ms, depth => jsonValueContainsPrevRefAt m.2 depth || anyMemberContainsPrevRef ms depth

end

/-- `json_value_contains_prev_ref`. -/
def jsonValueContainsPrevRef (v : JsonValue) : Bool := jsonValueContainsPrevRefAt v 0

mutual

/-- `arg_value_has_prev_ref`. -/
def argValueHasPrevRef : ArgValue → Bool
  | .prevRef _ => true
  | .array elements => anyElementHasPrevRef elements
  | .object pairs => anyPairHasPrevRef pairs
  | .value _ => false

def anyElementHasPrevRef : List ArgValue → Bool
  | [] => false
  | x :: xs => argValueHasPrevRef x || anyElementHasPrevRef xs

def anyPairHasPrevRef : List (String × ArgValue) → Bool
  | [] => false
  | m :: ms => argValueHasPrevRef m.2 || anyPairHasPrevRef ms

end

/-- `find_prev_ref_pos`; the position is always reported as `0`. -/
def findPrevRefPos (op : ParsedOp) : Option Nat :=
  if op.args.any fun arg ↦ argValueHasPrevRef arg.2 then some 0 else none

theorem findPrevRefPos_eq_none {op : ParsedOp} :
    findPrevRefPos op = none ↔ ∀ arg ∈ op.args, argValueHasPrevRef arg.2 = false := by
  rw [findPrevRefPos, ite_eq_right_iff]
  simp

/-! ## The nesting check -/

/-- The loop of `check_json_nesting_depth`: the text still to read, its byte position, the
characters to skip and the depth. -/
def checkNestingFrom : List Char → Nat → Nat → Nat → Except DslError Unit
  | [], _, _, _ => .ok ()
  | c :: cs, pos, skip + 1, depth => checkNestingFrom cs (pos + c.utf8Size) skip depth
  | c :: cs, pos, 0, depth =>
    if c = '"' then do
      let span ← scanStringEnd cs pos
      checkNestingFrom cs (pos + c.utf8Size) span depth
    else if c = '[' ∨ c = '{' then
      if depth + 1 > nestingDepthLimit then
        .error (.nestingTooDeep pos (depth + 1) nestingDepthLimit)
      else checkNestingFrom cs (pos + c.utf8Size) 0 (depth + 1)
    else if c = ']' ∨ c = '}' then checkNestingFrom cs (pos + c.utf8Size) 0 (depth - 1)
    else checkNestingFrom cs (pos + c.utf8Size) 0 depth

/-- `check_json_nesting_depth`. -/
def checkJsonNestingDepth (input : List Char) : Except DslError Unit :=
  checkNestingFrom input 0 0 0

/-- Where the check stands decides nothing but its error. -/
theorem checkNestingFrom_pos (cs : List Char) (pos pos' skip depth : Nat) :
    checkNestingFrom cs pos skip depth = .ok () ↔ checkNestingFrom cs pos' skip depth = .ok () := by
  induction cs generalizing pos pos' skip depth with
  | nil => exact Iff.rfl
  | cons c cs ih =>
    cases skip with
    | succ skip => exact ih _ _ _ _
    | zero =>
      rw [checkNestingFrom, checkNestingFrom]
      split_ifs
      · simp only [scanStringEnd]
        cases stringSpan cs with
        | none => exact iff_of_false (fun h ↦ nomatch h) (fun h ↦ nomatch h)
        | some span => exact ih _ _ _ _
      · exact iff_of_false (fun h ↦ nomatch h) (fun h ↦ nomatch h)
      · exact ih _ _ _ _
      · exact ih _ _ _ _
      · exact ih _ _ _ _

/-- The check passes over the text, starting at this depth. -/
def Nests (depth : Nat) (text : List Char) : Prop := checkNestingFrom text 0 0 depth = .ok ()

namespace Nests

variable {depth : Nat} {c : Char} {rest : List Char}

theorem skip (s : List Char) (pos : Nat) :
    checkNestingFrom (s ++ rest) pos s.length depth = .ok () ↔ Nests depth rest := by
  induction s generalizing pos with
  | nil => exact checkNestingFrom_pos _ _ _ _ _
  | cons c s ih => exact ih _

/-- A character without structure is passed over. -/
theorem plain (hc : Json.isStructural c = false) : Nests depth (c :: rest) ↔ Nests depth rest := by
  simp only [Json.isStructural, Bool.or_eq_false_iff, beq_eq_false_iff_ne, and_assoc] at hc
  obtain ⟨hquote, hopen, hclose, hopen', hclose'⟩ := hc
  rw [Nests, checkNestingFrom, if_neg hquote, if_neg (not_or.mpr ⟨hopen, hopen'⟩),
    if_neg (not_or.mpr ⟨hclose, hclose'⟩)]
  exact checkNestingFrom_pos _ _ _ _ _

theorem plains {s : List Char} (hs : Json.Plain s) :
    Nests depth (s ++ rest) ↔ Nests depth rest := by
  induction s with
  | nil => exact Iff.rfl
  | cons c s ih =>
    rw [List.cons_append, plain (hs c List.mem_cons_self)]
    exact ih fun d hd ↦ hs d (List.mem_cons_of_mem _ hd)

theorem blanks {s : List Char} (hs : ∀ c ∈ s, Json.isBlank c = true) :
    Nests depth (s ++ rest) ↔ Nests depth rest :=
  plains (Json.plain_of_blank hs)

theorem opening (hc : c = '[' ∨ c = '{') :
    Nests depth (c :: rest) ↔ depth + 1 ≤ nestingDepthLimit ∧ Nests (depth + 1) rest := by
  have hquote : c ≠ '"' := by rcases hc with rfl | rfl <;> decide
  rw [Nests, checkNestingFrom, if_neg hquote, if_pos hc]
  split_ifs with hgt
  · exact iff_of_false (fun h ↦ nomatch h) fun h ↦ absurd h.1 (Nat.not_le.mpr hgt)
  · rw [and_iff_right (Nat.not_lt.mp hgt)]
    exact checkNestingFrom_pos _ _ _ _ _

theorem closing (hc : c = ']' ∨ c = '}') :
    Nests (depth + 1) (c :: rest) ↔ Nests depth rest := by
  have hquote : c ≠ '"' := by rcases hc with rfl | rfl <;> decide
  have hopen : ¬(c = '[' ∨ c = '{') := by rcases hc with rfl | rfl <;> decide
  rw [Nests, checkNestingFrom, if_neg hquote, if_neg hopen, if_pos hc]
  exact checkNestingFrom_pos _ _ _ _ _

/-- A string literal is passed over, whatever it holds. -/
theorem literal {b : List Char} (hb : Json.StringBody b) :
    Nests depth ('"' :: (b ++ '"' :: rest)) ↔ Nests depth rest := by
  rw [Nests, checkNestingFrom, if_pos rfl, scanStringEnd, stringSpan_body hb]
  have happend : b ++ '"' :: rest = (b ++ ['"']) ++ rest := by simp
  rw [happend]
  exact skip _ _

/-- **A JSON text under the check**: the check passes over the text to what follows it, at the
depth it came with, exactly when the text nests within the limit. -/
theorem spells {φ : Json.Phrase JsonNumber} {s : List Char} {n : Nat} (h : Json.Spells φ s n)
    (hdepth : depth ≤ nestingDepthLimit) :
    Nests depth (s ++ rest) ↔ depth + n ≤ nestingDepthLimit ∧ Nests depth rest := by
  induction h generalizing depth rest with
  | atom _ hs =>
    rw [plains hs, Nat.add_zero, and_iff_right hdepth]
  | string _ hb =>
    rw [List.cons_append, List.append_assoc, List.singleton_append, literal hb,
      Nat.add_zero, and_iff_right hdepth]
  | array _ ih =>
    rw [List.cons_append, opening (Or.inl rfl), List.append_assoc, List.singleton_append]
    by_cases hle : depth + 1 ≤ nestingDepthLimit
    · rw [ih hle, closing (Or.inl rfl), Nat.add_assoc, Nat.add_comm 1, and_iff_right hle]
    · exact iff_of_false (fun h ↦ hle h.1) fun h ↦ hle (by omega)
  | object _ ih =>
    rw [List.cons_append, opening (Or.inr rfl), List.append_assoc, List.singleton_append]
    by_cases hle : depth + 1 ≤ nestingDepthLimit
    · rw [ih hle, closing (Or.inr rfl), Nat.add_assoc, Nat.add_comm 1, and_iff_right hle]
    · exact iff_of_false (fun h ↦ hle h.1) fun h ↦ hle (by omega)
  | spaced hbefore _ hafter ih =>
    rw [List.append_assoc, List.append_assoc, blanks hbefore, ih hdepth, blanks hafter]
  | noItems hs => rw [blanks hs, Nat.add_zero, and_iff_right hdepth]
  | lastItem _ ih => exact ih hdepth
  | @nextItem v vs s t n m _ _ ih ihs =>
    rw [List.append_assoc, List.cons_append, ih hdepth, plain rfl, ihs hdepth, ← and_assoc]
    refine and_congr_left fun _ ↦ ?_
    omega
  | member _ hbefore hb hmid _ ih =>
    rw [List.append_assoc, blanks hbefore, List.cons_append, List.append_assoc, List.cons_append,
      literal hb, List.append_assoc, blanks hmid, List.cons_append, plain rfl, ih hdepth]
  | noMembers hs => rw [blanks hs, Nat.add_zero, and_iff_right hdepth]
  | lastMember _ ih => exact ih hdepth
  | @nextMember m ms s t n k _ _ ih ihs =>
    rw [List.append_assoc, List.cons_append, ih hdepth, plain rfl, ihs hdepth, ← and_assoc]
    refine and_congr_left fun _ ↦ ?_
    omega

end Nests

/-- The check accepts a JSON text exactly when it nests within the limit. -/
theorem checkJsonNestingDepth_eq_ok {φ : Json.Phrase JsonNumber} {s : List Char} {n : Nat}
    (h : Json.Spells φ s n) : checkJsonNestingDepth s = .ok () ↔ n ≤ nestingDepthLimit := by
  have hspells : Nests 0 (s ++ []) ↔ 0 + n ≤ nestingDepthLimit ∧ Nests 0 [] :=
    Nests.spells h (Nat.zero_le _)
  rw [List.append_nil, Nat.zero_add] at hspells
  exact hspells.trans (and_iff_left rfl)

/-! ## `$prev` strings within the limit -/

mutual

/-- Some string in the value reads as a reference. -/
def mentionsPrev : JsonValue → Bool
  | .string s => isPrevRefString s
  | .array items => itemsMentionPrev items
  | .object members => membersMentionPrev members
  | _ => false

def itemsMentionPrev : List JsonValue → Bool
  | [] => false
  | x :: xs => mentionsPrev x || itemsMentionPrev xs

def membersMentionPrev : List (String × JsonValue) → Bool
  | [] => false
  | m :: ms => mentionsPrev m.2 || membersMentionPrev ms

end

mutual

/-- The search misses no reference; beyond the limit it reports one where there need be none. -/
theorem mentionsPrev_of_search : ∀ {v : JsonValue} {depth : Nat},
    jsonValueContainsPrevRefAt v depth = false → mentionsPrev v = false
  | .null, _, _ => rfl
  | .bool _, _, _ => rfl
  | .number _, _, _ => rfl
  | .string _, _, h => (Bool.or_eq_false_iff.mp h).2
  | .array _, _, h => itemsMentionPrev_of_search (Bool.or_eq_false_iff.mp h).2
  | .object _, _, h => membersMentionPrev_of_search (Bool.or_eq_false_iff.mp h).2

theorem itemsMentionPrev_of_search : ∀ {xs : List JsonValue} {depth : Nat},
    anyItemContainsPrevRef xs depth = false → itemsMentionPrev xs = false
  | [], _, _ => rfl
  | x :: xs, _, h => by
    obtain ⟨hx, hxs⟩ := Bool.or_eq_false_iff.mp h
    rw [itemsMentionPrev, mentionsPrev_of_search hx, itemsMentionPrev_of_search hxs]
    rfl

theorem membersMentionPrev_of_search : ∀ {ms : List (String × JsonValue)} {depth : Nat},
    anyMemberContainsPrevRef ms depth = false → membersMentionPrev ms = false
  | [], _, _ => rfl
  | m :: ms, _, h => by
    obtain ⟨hm, hms⟩ := Bool.or_eq_false_iff.mp h
    rw [membersMentionPrev, mentionsPrev_of_search hm, membersMentionPrev_of_search hms]
    rfl

end

end Khive
