import Khive.Request.Parser

/-!
# Quoted values

Before a quoted value goes to the JSON parser, its raw line feeds, carriage returns and tabs are
written as escapes. The rewriter has to keep in step with that parser: a backslash takes the next
character with it, and the four characters behind `\u` are taken as they come, whatever they are.
So a raw tab inside an escape stays, and the parser refuses it.

What the rewriter makes of a text is a function of the text and of how many of those four
characters are still to come. Element by element it leaves the JSON grammar alone and turns a raw
break into the escape that stands for it; the other way round, an element in what it wrote comes
from one element of what it read.
-/

namespace Khive

open Json (Element Elements Literal)

/-! ## What the rewriter writes -/

/-- A raw break as an escape, any other character as it is. -/
def breakEscape (c : Char) : List Char :=
  if c = '\n' then ['\\', 'n']
  else if c = '\r' then ['\\', 'r']
  else if c = '\t' then ['\\', 't']
  else [c]

/-- What the loop writes for the text that is left, when so many characters of a `\u` escape are
still to come. -/
def rewritten : List Char → Nat → List Char
  | [], _ => []
  | c :: cs, slots + 1 => c :: rewritten cs slots
  | ['\\'], 0 => ['\\']
  | '\\' :: next :: cs, 0 => '\\' :: next :: rewritten cs (if next = 'u' then 4 else 0)
  | c :: cs, 0 => breakEscape c ++ rewritten cs 0

theorem rewritten_unescaped {c : Char} (h : c ≠ '\\') (rest : List Char) :
    rewritten (c :: rest) 0 = breakEscape c ++ rewritten rest 0 := by
  rw [rewritten]
  · exact fun hc _ ↦ h hc
  · exact fun _ _ hc _ ↦ h hc

theorem rewritten_escaped (c : Char) (rest : List Char) :
    rewritten ('\\' :: c :: rest) 0 = '\\' :: c :: rewritten rest (if c = 'u' then 4 else 0) :=
  rfl

namespace Normalizer

theorem out_note (st : Normalizer) (rawPos : Nat) (c : Char) (precededByBackslash : Bool) :
    (st.note rawPos c precededByBackslash).out = st.out ∧
      (st.note rawPos c precededByBackslash).hexSlotsRemaining = st.hexSlotsRemaining := by
  rw [note]
  split_ifs <;> exact ⟨rfl, rfl⟩

theorem out_escaped (st : Normalizer) (nextPos : Nat) (next : Char)
    (hslots : st.hexSlotsRemaining = 0) :
    (st.escaped nextPos next).out = st.out ++ ['\\', next] ∧
      (st.escaped nextPos next).hexSlotsRemaining = if next = 'u' then 4 else 0 := by
  rw [escaped]
  split_ifs with hu hnote
  · exact ⟨by simp, rfl⟩
  · simp [out_note, hslots]
  · simp [hslots]

theorem out_plain (st : Normalizer) (pos : Nat) (c : Char) :
    (st.plain pos c).out = st.out ++ breakEscape c ∧
      (st.plain pos c).hexSlotsRemaining = st.hexSlotsRemaining := by
  rw [plain, breakEscape]
  split_ifs <;> simp [out_note]

/-- The loop appends what is written for the text that is left. -/
theorem out_run (cs : List Char) (pos : Nat) (st : Normalizer) :
    (run cs pos st).out = st.out ++ rewritten cs st.hexSlotsRemaining := by
  fun_induction run cs pos st with
  | case1 pos st => rw [rewritten, List.append_nil]
  | case2 c cs pos st hslots ih =>
    obtain ⟨slots, hslots⟩ := Nat.exists_eq_add_of_lt hslots
    rw [ih, hexSlot]
    rw [Nat.zero_add] at hslots
    rw [hslots, rewritten]
    simp
  | case3 pos st hslots =>
    rw [Nat.eq_zero_of_not_pos hslots]
    rfl
  | case4 pos st hslots next cs ih =>
    have hzero := Nat.eq_zero_of_not_pos hslots
    rw [ih, (out_escaped st _ next hzero).1, (out_escaped st _ next hzero).2, hzero,
      rewritten_escaped]
    simp
  | case5 c cs pos st hslots hescape ih =>
    have hzero := Nat.eq_zero_of_not_pos hslots
    rw [ih, (out_plain st pos c).1, (out_plain st pos c).2, hzero,
      rewritten_unescaped hescape]
    simp

end Normalizer

theorem text_normalizeQuotedString (raw : List Char) :
    (normalizeQuotedString raw).text = rewritten raw 0 := by
  rw [normalizeQuotedString, Normalizer.out_run, List.nil_append]

/-! ## From the text read to the text written -/

theorem breakEscape_of_not_break {c : Char} (h : Json.isBreak c = false) : breakEscape c = [c] := by
  simp only [Json.isBreak, Bool.or_eq_false_iff, beq_eq_false_iff_ne] at h
  rw [breakEscape, if_neg h.1.1, if_neg h.1.2, if_neg h.2]

/-- The escape written for a raw break stands for it. -/
theorem element_breakEscape {c : Char} (h : Json.isBreak c = true) :
    Element false (breakEscape c) c := by
  simp only [Json.isBreak, Bool.or_eq_true, beq_iff_eq] at h
  rcases h with (rfl | rfl) | rfl <;> exact .short rfl

theorem isBreak_of_control {c : Char} (h : 0x20 ≤ c.toNat) : Json.isBreak c = false := by
  simp only [Json.isBreak, Bool.or_eq_false_iff, beq_eq_false_iff_ne]
  refine ⟨⟨?_, ?_⟩, ?_⟩ <;> (rintro rfl; exact absurd h (by decide))

/-- An element of JSON is written as it stands. -/
theorem rewritten_element {e : List Char} {d : Char} (h : Element false e d) (rest : List Char) :
    rewritten (e ++ rest) 0 = e ++ rewritten rest 0 := by
  cases h with
  | plain _ hescape hcontrol =>
    rw [List.singleton_append, rewritten_unescaped hescape,
      breakEscape_of_not_break (isBreak_of_control hcontrol)]
  | raw hbreaks => exact nomatch hbreaks
  | @short c d h =>
    have hu : c ≠ 'u' := by
      rintro rfl
      exact nomatch h
    rw [List.cons_append, List.singleton_append, rewritten_escaped, if_neg hu]
    rfl
  | unit | pair => rfl

/-- Any element is written as one of JSON that stands for the same character. -/
theorem exists_rewritten_element {e : List Char} {d : Char} (h : Element true e d) :
    ∃ e', Element false e' d ∧ ∀ rest, rewritten (e ++ rest) 0 = e' ++ rewritten rest 0 := by
  cases h with
  | raw _ hc =>
    have hescape : d ≠ '\\' := by
      rintro rfl
      exact absurd hc (by decide)
    exact ⟨_, element_breakEscape hc, rewritten_unescaped hescape⟩
  | plain hquote hescape hcontrol =>
    exact ⟨_, .plain hquote hescape hcontrol, rewritten_element (.plain hquote hescape hcontrol)⟩
  | short h => exact ⟨_, .short h, rewritten_element (.short h)⟩
  | unit h hhigh hlow => exact ⟨_, .unit h hhigh hlow, rewritten_element (.unit h hhigh hlow)⟩
  | pair hh hhigh hl hlow =>
    exact ⟨_, .pair hh hhigh hl hlow, rewritten_element (.pair hh hhigh hl hlow)⟩

theorem exists_rewritten_elements {s value : List Char} (h : Elements true s value) :
    ∃ s', Elements false s' value ∧
      ∀ rest, rewritten (s ++ rest) 0 = s' ++ rewritten rest 0 := by
  induction h with
  | nil => exact ⟨[], .nil, fun _ ↦ rfl⟩
  | cons he _ ih =>
    obtain ⟨s', hs', hs⟩ := ih
    obtain ⟨e', he', heq⟩ := exists_rewritten_element he
    refine ⟨e' ++ s', .cons he' hs', fun rest ↦ ?_⟩
    rw [List.append_assoc, heq, hs, List.append_assoc]

theorem rewritten_elements {s value : List Char} (h : Elements false s value) (rest : List Char) :
    rewritten (s ++ rest) 0 = s ++ rewritten rest 0 := by
  induction h with
  | nil => rfl
  | cons he _ ih => rw [List.append_assoc, rewritten_element he, ih, List.append_assoc]

/-! ## From the text written back to the text read -/

/-- A raw break is written as a backslash and a letter that stands for it. -/
theorem breakEscape_of_break {c : Char} (h : Json.isBreak c = true) :
    ∃ x, breakEscape c = ['\\', x] ∧ x ≠ 'u' ∧ Json.shortEscape x = some c := by
  simp only [Json.isBreak, Bool.or_eq_true, beq_iff_eq] at h
  rcases h with (rfl | rfl) | rfl
  · exact ⟨'n', rfl, by decide, rfl⟩
  · exact ⟨'r', rfl, by decide, rfl⟩
  · exact ⟨'t', rfl, by decide, rfl⟩

/-- **Where the first character written comes from**: the end of the text, a backslash with or
without a next character, a raw break, or the character itself. -/
theorem rewritten_cases (cs : List Char) :
    (cs = [] ∧ rewritten cs 0 = []) ∨ (cs = ['\\'] ∧ rewritten cs 0 = ['\\']) ∨
      (∃ next rest, cs = '\\' :: next :: rest ∧
        rewritten cs 0 = '\\' :: next :: rewritten rest (if next = 'u' then 4 else 0)) ∨
      (∃ c x rest, cs = c :: rest ∧ Json.isBreak c = true ∧ x ≠ 'u' ∧
        Json.shortEscape x = some c ∧ rewritten cs 0 = '\\' :: x :: rewritten rest 0) ∨
      ∃ c rest, cs = c :: rest ∧ c ≠ '\\' ∧ rewritten cs 0 = c :: rewritten rest 0 := by
  rcases cs with _ | ⟨c, cs⟩
  · exact .inl ⟨rfl, rfl⟩
  by_cases hescape : c = '\\'
  · subst hescape
    rcases cs with _ | ⟨next, rest⟩
    · exact .inr (.inl ⟨rfl, rfl⟩)
    · exact .inr (.inr (.inl ⟨next, rest, rfl, rfl⟩))
  rw [rewritten_unescaped hescape]
  by_cases hbreak : Json.isBreak c = true
  · obtain ⟨x, hx, hu, hshort⟩ := breakEscape_of_break hbreak
    rw [hx]
    exact .inr (.inr (.inr (.inl ⟨c, x, cs, rfl, hbreak, hu, hshort, rfl⟩)))
  · rw [breakEscape_of_not_break (Bool.eq_false_iff.mpr hbreak)]
    exact .inr (.inr (.inr (.inr ⟨c, cs, rfl, hescape, rfl⟩)))

theorem rewritten_eq_nil {cs : List Char} (h : rewritten cs 0 = []) : cs = [] := by
  rcases rewritten_cases cs with ⟨hcs, -⟩ | ⟨-, heq⟩ | ⟨_, _, -, heq⟩ | ⟨_, _, _, -, -, -, -, heq⟩ |
    ⟨_, _, -, -, heq⟩
  · exact hcs
  all_goals exact nomatch heq.symm.trans h

/-- A character that is no backslash is written for itself alone. -/
theorem of_rewritten_plain {cs t : List Char} {c : Char} (hescape : c ≠ '\\')
    (h : rewritten cs 0 = c :: t) : ∃ rest, cs = c :: rest ∧ rewritten rest 0 = t := by
  rcases rewritten_cases cs with ⟨-, heq⟩ | ⟨-, heq⟩ | ⟨_, _, -, heq⟩ | ⟨_, _, _, -, -, -, -, heq⟩ |
    ⟨d, rest, hcs, -, heq⟩
  · exact nomatch heq.symm.trans h
  · exact absurd (List.cons_eq_cons.mp (heq.symm.trans h)).1.symm hescape
  · exact absurd (List.cons_eq_cons.mp (heq.symm.trans h)).1.symm hescape
  · exact absurd (List.cons_eq_cons.mp (heq.symm.trans h)).1.symm hescape
  · obtain ⟨rfl, ht⟩ := List.cons_eq_cons.mp (heq.symm.trans h)
    exact ⟨rest, hcs, ht⟩

/-- A backslash is written for a backslash, or in the escape of a raw break. -/
theorem of_rewritten_escape {cs t : List Char} {x : Char} (h : rewritten cs 0 = '\\' :: x :: t) :
    (∃ rest, cs = '\\' :: x :: rest ∧ rewritten rest (if x = 'u' then 4 else 0) = t) ∨
      ∃ c rest, cs = c :: rest ∧ Json.isBreak c = true ∧ x ≠ 'u' ∧
        Json.shortEscape x = some c ∧ rewritten rest 0 = t := by
  rcases rewritten_cases cs with ⟨-, heq⟩ | ⟨-, heq⟩ | ⟨next, rest, hcs, heq⟩ |
    ⟨c, y, rest, hcs, hbreak, hu, hshort, heq⟩ | ⟨c, rest, -, hescape, heq⟩
  · exact nomatch heq.symm.trans h
  · exact nomatch heq.symm.trans h
  · obtain ⟨-, htail⟩ := List.cons_eq_cons.mp (heq.symm.trans h)
    obtain ⟨rfl, ht⟩ := List.cons_eq_cons.mp htail
    exact .inl ⟨rest, hcs, ht⟩
  · obtain ⟨-, htail⟩ := List.cons_eq_cons.mp (heq.symm.trans h)
    obtain ⟨rfl, ht⟩ := List.cons_eq_cons.mp htail
    exact .inr ⟨c, rest, hcs, hbreak, hu, hshort, ht⟩
  · exact absurd (List.cons_eq_cons.mp (heq.symm.trans h)).1 hescape

theorem of_rewritten_slot {cs t : List Char} {c : Char} {slots : Nat}
    (h : rewritten cs (slots + 1) = c :: t) :
    ∃ rest, cs = c :: rest ∧ rewritten rest slots = t := by
  cases cs with
  | nil => exact nomatch h
  | cons d cs =>
    obtain ⟨rfl, ht⟩ := List.cons_eq_cons.mp h
    exact ⟨cs, rfl, ht⟩

/-- A code unit is written for itself. -/
theorem of_rewritten_unit {cs t : List Char} {a b c d : Char}
    (h : rewritten cs 0 = '\\' :: 'u' :: a :: b :: c :: d :: t) :
    ∃ rest, cs = '\\' :: 'u' :: a :: b :: c :: d :: rest ∧ rewritten rest 0 = t := by
  rcases of_rewritten_escape h with ⟨s₄, hcs, h₄⟩ | ⟨_, _, -, -, hu, -⟩
  · rw [if_pos rfl] at h₄
    obtain ⟨s₃, rfl, h₃⟩ := of_rewritten_slot h₄
    obtain ⟨s₂, rfl, h₂⟩ := of_rewritten_slot h₃
    obtain ⟨s₁, rfl, h₁⟩ := of_rewritten_slot h₂
    obtain ⟨rest, rfl, hrest⟩ := of_rewritten_slot h₁
    exact ⟨rest, hcs, hrest⟩
  · exact absurd rfl hu

/-- **An element written comes from one element read**, and what follows it from what follows. -/
theorem exists_element_of_rewritten {cs e t : List Char} {d : Char} (he : Element false e d)
    (h : rewritten cs 0 = e ++ t) :
    ∃ e' rest, Element true e' d ∧ cs = e' ++ rest ∧ rewritten rest 0 = t := by
  cases he with
  | plain hquote hescape hcontrol =>
    obtain ⟨rest, hcs, hrest⟩ := of_rewritten_plain hescape h
    exact ⟨[d], rest, .plain hquote hescape hcontrol, hcs, hrest⟩
  | raw hbreaks => exact nomatch hbreaks
  | @short x d hshort =>
    have hu : x ≠ 'u' := by
      rintro rfl
      exact nomatch hshort
    rcases of_rewritten_escape h with ⟨rest, hcs, hrest⟩ | ⟨c, rest, hcs, hbreak, -, hc, hrest⟩
    · rw [if_neg hu] at hrest
      exact ⟨['\\', x], rest, .short hshort, hcs, hrest⟩
    · obtain rfl : c = d := Option.some.inj (hc.symm.trans hshort)
      exact ⟨[c], rest, .raw rfl hbreak, hcs, hrest⟩
  | unit hunit hhigh hlow =>
    obtain ⟨rest, hcs, hrest⟩ := of_rewritten_unit h
    exact ⟨_, rest, .unit hunit hhigh hlow, hcs, hrest⟩
  | pair hh hhigh hl hlow =>
    obtain ⟨mid, rfl, hmid⟩ := of_rewritten_unit h
    obtain ⟨rest, rfl, hrest⟩ := of_rewritten_unit hmid
    exact ⟨_, rest, .pair hh hhigh hl hlow, rfl, hrest⟩

theorem exists_elements_of_rewritten {cs s value t : List Char} (hs : Elements false s value)
    (h : rewritten cs 0 = s ++ t) :
    ∃ s' rest, Elements true s' value ∧ cs = s' ++ rest ∧ rewritten rest 0 = t := by
  induction hs generalizing cs with
  | nil => exact ⟨[], cs, .nil, rfl, h⟩
  | cons he _ ih =>
    rw [List.append_assoc] at h
    obtain ⟨e', mid, he', rfl, hmid⟩ := exists_element_of_rewritten he h
    obtain ⟨s', rest, hs', rfl, hrest⟩ := ih hmid
    exact ⟨e' ++ s', rest, .cons he' hs', (List.append_assoc _ _ _).symm, hrest⟩

/-- **The rewriter against the two grammars**: what it writes is a literal of JSON exactly when
what it reads is one with raw breaks allowed, and the two stand for the same characters. -/
theorem literal_rewritten {raw value : List Char} :
    Literal false (rewritten raw 0) value ↔ Literal true raw value := by
  have hquote : '"' ≠ '\\' := by decide
  constructor
  · rintro ⟨s, hs, h⟩
    obtain ⟨cs, rfl, hcs⟩ := of_rewritten_plain hquote h
    obtain ⟨s', closing, hs', rfl, hclosing⟩ := exists_elements_of_rewritten hs hcs
    obtain ⟨rest, rfl, hrest⟩ := of_rewritten_plain hquote hclosing
    rw [rewritten_eq_nil hrest]
    exact ⟨s', hs', rfl⟩
  · rintro ⟨s, hs, rfl⟩
    obtain ⟨s', hs', h⟩ := exists_rewritten_elements hs
    refine ⟨s', hs', ?_⟩
    rw [rewritten_unescaped hquote, h]
    rfl

/-- A literal of JSON is passed through. -/
theorem rewritten_literal {raw value : List Char} (h : Literal false raw value) :
    rewritten raw 0 = raw := by
  obtain ⟨s, hs, rfl⟩ := h
  rw [rewritten_unescaped (by decide), rewritten_elements hs]
  rfl

/-! ## Quoted spans -/

/-- A closing quote stays the last character. -/
theorem exists_rewritten_closing (cs : List Char) (slots : Nat) :
    ∃ t, rewritten (cs ++ ['"']) slots = t ++ ['"'] := by
  fun_induction rewritten cs slots with
  | case1 slots => exact ⟨[], by cases slots <;> rfl⟩
  | case2 c cs slots ih =>
    obtain ⟨t, ht⟩ := ih
    exact ⟨c :: t, by rw [List.cons_append, rewritten, ht, List.cons_append]⟩
  | case3 => exact ⟨['\\'], rfl⟩
  | case4 next cs ih =>
    obtain ⟨t, ht⟩ := ih
    refine ⟨'\\' :: next :: t, ?_⟩
    rw [List.cons_append, List.cons_append, rewritten_escaped, ht]
    rfl
  | case5 c cs hend hmid ih =>
    obtain ⟨t, ht⟩ := ih
    refine ⟨breakEscape c ++ t, ?_⟩
    have hescape : c ≠ '\\' := by
      rintro rfl
      cases cs with
      | nil => exact hend rfl rfl
      | cons next cs => exact hmid next cs rfl rfl
    rw [List.cons_append, rewritten_unescaped hescape, ht, List.append_assoc]

/-- The span ends with its closing quote. -/
theorem take_stringSpan {cs : List Char} {span : Nat} (h : stringSpan cs = some span) :
    ∃ b, cs.take span = b ++ ['"'] := by
  fun_induction stringSpan cs generalizing span with
  | case1 => exact nomatch h
  | case2 c cs ih =>
    obtain ⟨n, hn, rfl⟩ := Option.map_eq_some_iff.mp h
    obtain ⟨b, hb⟩ := ih hn
    exact ⟨'\\' :: c :: b, by rw [List.take_succ_cons, List.take_succ_cons, hb]; rfl⟩
  | case3 => exact nomatch h
  | case4 =>
    obtain rfl := Option.some.inj h
    exact ⟨[], rfl⟩
  | case5 c cs _ _ _ ih =>
    obtain ⟨n, hn, rfl⟩ := Option.map_eq_some_iff.mp h
    obtain ⟨b, hb⟩ := ih hn
    exact ⟨c :: b, by rw [List.take_succ_cons, hb]; rfl⟩

/-- `serde_json::from_str::<String>` reads the JSON texts that hold one string. -/
def ReadsStrings (stringFromStr : List Char → Except SerdeError String) : Prop :=
  ∀ text value, stringFromStr text = .ok value ↔ Json.StringText text value.toList

/-- **Decoding a quoted value**: for every quoted span the scanner delimits, the value is decoded
exactly when the span is a string literal in which raw line feeds, carriage returns and tabs may
stand for themselves, and it is the value of that literal. A literal of JSON reaches the decoder
as it is. -/
theorem decodeQuotedJsonString_exact {lib : Libraries} (hlib : ReadsStrings lib.stringFromStr)
    {cs : List Char} {start span : Nat} (hspan : scanStringEnd cs start = .ok span) (pos : Nat) :
    (∀ value, decodeQuotedJsonString lib ('"' :: cs.take span) pos = .ok value ↔
      Literal true ('"' :: cs.take span) value.toList) ∧
    (∀ value, Literal false ('"' :: cs.take span) value →
      (normalizeQuotedString ('"' :: cs.take span)).text = '"' :: cs.take span) := by
  have hspan : stringSpan cs = some span := by
    rw [scanStringEnd] at hspan
    split at hspan
    · rename_i n hn
      rw [hn, Except.ok.inj hspan]
    · exact nomatch hspan
  obtain ⟨b, hb⟩ := take_stringSpan hspan
  obtain ⟨t, ht⟩ := exists_rewritten_closing b 0
  have hquoted : rewritten ('"' :: cs.take span) 0 = '"' :: (t ++ ['"']) := by
    rw [hb, rewritten_unescaped (by decide), ht]
    rfl
  constructor
  · intro value
    have hmap : decodeQuotedJsonString lib ('"' :: cs.take span) pos = .ok value ↔
        lib.stringFromStr (rewritten ('"' :: cs.take span) 0) = .ok value := by
      rw [← text_normalizeQuotedString, decodeQuotedJsonString]
      cases lib.stringFromStr (normalizeQuotedString ('"' :: cs.take span)).text with
      | ok s => rw [Except.mapError, Except.ok.injEq, Except.ok.injEq]
      | error e => exact iff_of_false (fun h ↦ nomatch h) fun h ↦ nomatch h
    rw [hmap, hlib, ← literal_rewritten, hquoted, Json.stringText_quoted]
  · intro value hliteral
    rw [text_normalizeQuotedString, rewritten_literal hliteral]

/-- A reader of JSON strings, with its own error. -/
def readStringOr (e : SerdeError) (text : List Char) : Except SerdeError String :=
  match Json.readString text with
  | some value => .ok (String.ofList value)
  | none => .error e

theorem readsStrings_readStringOr (e : SerdeError) : ReadsStrings (readStringOr e) := by
  intro text value
  rw [← Json.readString_eq_some, readStringOr]
  cases Json.readString text with
  | none => exact iff_of_false (fun h ↦ nomatch h) fun h ↦ nomatch h
  | some s =>
    rw [Except.ok.injEq, Option.some.injEq]
    constructor
    · rintro rfl
      exact String.toList_ofList.symm
    · rintro rfl
      exact String.ofList_toList

/-- A library that reads strings and nothing else. -/
def stringsOnly : Libraries where
  fromStr _ := .error ⟨"expected value", 1, 1⟩
  stringFromStr := readStringOr ⟨"expected string", 1, 1⟩
  display _ := ""
  unprintable _ := false

/-- A raw tab and an escape in one span: `"a⇥b\u0041"`, followed by other text. -/
theorem raw_tab_decodes :
    decodeQuotedJsonString stringsOnly ('"' :: "a\tb\\u0041\", x".toList.take 10) 0 =
      .ok "a\tbA" := by
  have hspan : scanStringEnd "a\tb\\u0041\", x".toList 0 = .ok 10 := rfl
  have hread : Json.readString (rewritten ('"' :: "a\tb\\u0041\", x".toList.take 10) 0) =
      some "a\tbA".toList := by decide
  have hliteral : Literal false ('"' :: ("a\\tb\\u0041".toList ++ ['"'])) "a\tbA".toList :=
    Json.stringText_quoted.mp (Json.readString_eq_some.mp hread)
  exact ((decodeQuotedJsonString_exact (readsStrings_readStringOr _) hspan 0).1 _).mpr
    (literal_rewritten.mp hliteral)

end Khive
