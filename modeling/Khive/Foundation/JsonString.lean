import Khive.Foundation.JsonText

/-!
# String literals of JSON

The grammar of what stands between the quotes of a string literal, element by element: a
character, a short escape, or one or two code units in hexadecimal. An element stands for one
character, so a code unit that is half of a surrogate pair is no element without the other half.

A flag adds to the grammar the line feed, the carriage return and the tab as they stand, each of
them for itself; without it these three, like every control character, are no elements.

The reader reads the grammar without the flag, and nothing else.
-/

namespace Khive

/-- The value of a hexadecimal digit: `char::to_digit(16)`. -/
def hexDigit (c : Char) : Option Nat :=
  if '0' ≤ c ∧ c ≤ '9' then some (c.toNat - '0'.toNat)
  else if 'a' ≤ c ∧ c ≤ 'f' then some (c.toNat - 'a'.toNat + 10)
  else if 'A' ≤ c ∧ c ≤ 'F' then some (c.toNat - 'A'.toNat + 10)
  else none

namespace Json

/-! ## The grammar -/

/-- What a letter behind a backslash stands for. -/
def shortEscape : Char → Option Char
  | '"' => some '"'
  | '\\' => some '\\'
  | '/' => some '/'
  | 'b' => some '\x08'
  | 'f' => some '\x0c'
  | 'n' => some '\n'
  | 'r' => some '\r'
  | 't' => some '\t'
  | _ => none

/-- A code unit written as four hexadecimal digits. -/
def codeUnit (a b c d : Char) : Option Nat := do
  let a ← hexDigit a
  let b ← hexDigit b
  let c ← hexDigit c
  let d ← hexDigit d
  pure (((a * 16 + b) * 16 + c) * 16 + d)

def isHighSurrogate (n : Nat) : Bool := 0xD800 ≤ n && n ≤ 0xDBFF

def isLowSurrogate (n : Nat) : Bool := 0xDC00 ≤ n && n ≤ 0xDFFF

/-- The character that two surrogates make together. -/
def joinSurrogates (high low : Nat) : Char :=
  Char.ofNat ((high - 0xD800) * 0x400 + (low - 0xDC00) + 0x10000)

/-- Line feed, carriage return or tab. -/
def isBreak (c : Char) : Bool := c == '\n' || c == '\r' || c == '\t'

/-- One element of a string literal, and the character it stands for. -/
inductive Element (breaks : Bool) : List Char → Char → Prop
  | plain {c : Char} (hquote : c ≠ '"') (hescape : c ≠ '\\') (hcontrol : 0x20 ≤ c.toNat) :
      Element breaks [c] c
  | raw {c : Char} (hbreaks : breaks = true) (hc : isBreak c = true) : Element breaks [c] c
  | short {c d : Char} (h : shortEscape c = some d) : Element breaks ['\\', c] d
  | unit {a b c d : Char} {n : Nat} (h : codeUnit a b c d = some n)
      (hhigh : isHighSurrogate n = false) (hlow : isLowSurrogate n = false) :
      Element breaks ['\\', 'u', a, b, c, d] (Char.ofNat n)
  | pair {a b c d a' b' c' d' : Char} {high low : Nat} (hh : codeUnit a b c d = some high)
      (hhigh : isHighSurrogate high = true) (hl : codeUnit a' b' c' d' = some low)
      (hlow : isLowSurrogate low = true) :
      Element breaks ['\\', 'u', a, b, c, d, '\\', 'u', a', b', c', d'] (joinSurrogates high low)

/-- What stands between the quotes, and the characters it stands for. -/
inductive Elements (breaks : Bool) : List Char → List Char → Prop
  | nil : Elements breaks [] []
  | cons {e s value : List Char} {d : Char} (h : Element breaks e d)
      (hs : Elements breaks s value) : Elements breaks (e ++ s) (d :: value)

/-- A string literal, quotes included. -/
def Literal (breaks : Bool) (text value : List Char) : Prop :=
  ∃ b, Elements breaks b value ∧ text = '"' :: (b ++ ['"'])

/-- A text that holds one string literal, with nothing but blanks around it. -/
def StringText (text value : List Char) : Prop :=
  ∃ before s after, (∀ c ∈ before, isBlank c = true) ∧ Literal false s value ∧
    (∀ c ∈ after, isBlank c = true) ∧ text = before ++ (s ++ after)

theorem Element.ne_nil {breaks : Bool} {e : List Char} {d : Char} (h : Element breaks e d) :
    e ≠ [] := by
  cases h <;> exact List.cons_ne_nil _ _

/-- An element that begins with no backslash is that character, and the character is fit. -/
theorem Element.head_eq {e rest cs : List Char} {c d : Char} (h : Element false e d)
    (hescape : c ≠ '\\') (heq : c :: cs = e ++ rest) :
    (c = d ∧ cs = rest) ∧ c ≠ '"' ∧ 0x20 ≤ c.toNat := by
  cases h with
  | plain hquote _ hcontrol =>
    obtain ⟨rfl, rfl⟩ := List.cons_eq_cons.mp heq
    exact ⟨⟨rfl, rfl⟩, hquote, hcontrol⟩
  | raw hbreaks => exact nomatch hbreaks
  | short | unit | pair => exact absurd (List.cons_eq_cons.mp heq).1 hescape

theorem elements_nil {breaks : Bool} {value : List Char} :
    Elements breaks [] value ↔ some [] = some value := by
  constructor
  · intro h
    generalize htext : [] = text at h
    cases h with
    | nil => rfl
    | cons he => exact absurd (List.append_eq_nil_iff.mp htext.symm).1 he.ne_nil
  · rintro ⟨⟩
    exact .nil

/-- Nothing is blank around a text that begins and ends with a quote. -/
theorem stringText_quoted {s value : List Char} :
    StringText ('"' :: (s ++ ['"'])) value ↔ Literal false ('"' :: (s ++ ['"'])) value := by
  constructor
  · rintro ⟨before, lit, after, hbefore, hlit, hafter, heq⟩
    have hblank : isBlank '"' = false := rfl
    cases before with
    | cons c before =>
      obtain ⟨rfl, -⟩ := List.cons_eq_cons.mp heq
      exact absurd (hbefore '"' List.mem_cons_self) (by simp [hblank])
    | nil =>
      rcases List.eq_nil_or_concat after with rfl | ⟨after', c, rfl⟩
      · rwa [heq, List.nil_append, List.append_nil]
      · rw [List.nil_append, List.concat_eq_append, ← List.cons_append,
          ← List.append_assoc] at heq
        obtain ⟨-, hc⟩ := List.append_inj' heq rfl
        obtain ⟨rfl, -⟩ := List.cons_eq_cons.mp hc
        exact absurd (hafter '"' (by simp)) (by simp [hblank])
  · intro h
    exact ⟨[], _, [], by simp, h, by simp, by simp⟩

/-! ## The reader -/

/-- Read four hexadecimal digits. -/
def readUnit : List Char → Option (Nat × List Char)
  | a :: b :: c :: d :: rest => (codeUnit a b c d).map (·, rest)
  | _ => none

/-- Read the code unit that completes a surrogate pair. -/
def readLow (high : Nat) : List Char → Option (Char × List Char)
  | '\\' :: 'u' :: cs => do
    let (low, rest) ← readUnit cs
    if isLowSurrogate low then some (joinSurrogates high low, rest) else none
  | _ => none

/-- Read what follows `\u`. -/
def readUnits (cs : List Char) : Option (Char × List Char) := do
  let (n, rest) ← readUnit cs
  if isHighSurrogate n then readLow n rest
  else if isLowSurrogate n then none
  else some (Char.ofNat n, rest)

/-- Read what follows a backslash. -/
def readEscape : List Char → Option (Char × List Char)
  | [] => none
  | c :: cs => if c = 'u' then readUnits cs else (shortEscape c).map (·, cs)

/-- Read one element. -/
def readElement : List Char → Option (Char × List Char)
  | [] => none
  | c :: cs =>
    if c = '\\' then readEscape cs
    else if c = '"' ∨ c.toNat < 0x20 then none
    else some (c, cs)

/-- Read elements to the end of the text; the fuel bounds their number. -/
def readElements : Nat → List Char → Option (List Char)
  | _, [] => some []
  | 0, _ :: _ => none
  | fuel + 1, c :: cs => do
    let (d, rest) ← readElement (c :: cs)
    (readElements fuel rest).map (d :: ·)

/-- Read a text that holds one string literal. -/
def readString (text : List Char) : Option (List Char) :=
  match text.dropWhile isBlank with
  | '"' :: cs =>
    match cs.reverse.dropWhile isBlank with
    | '"' :: reversed => readElements reversed.length reversed.reverse
    | _ => none
  | _ => none

theorem readUnit_cons {a b c d : Char} {n : Nat} (h : codeUnit a b c d = some n)
    (rest : List Char) : readUnit (a :: b :: c :: d :: rest) = some (n, rest) := by
  rw [readUnit, h]
  rfl

theorem readUnit_eq_some {cs rest : List Char} {n : Nat} (h : readUnit cs = some (n, rest)) :
    ∃ a b c d, codeUnit a b c d = some n ∧ cs = a :: b :: c :: d :: rest := by
  match cs with
  | a :: b :: c :: d :: _ =>
    obtain ⟨_, hunit, heq⟩ := Option.map_eq_some_iff.mp h
    obtain ⟨rfl, rfl⟩ := Prod.mk.inj heq
    exact ⟨a, b, c, d, hunit, rfl⟩

theorem readLow_cons {a b c d : Char} {low : Nat} (h : codeUnit a b c d = some low)
    (hlow : isLowSurrogate low = true) (high : Nat) (rest : List Char) :
    readLow high ('\\' :: 'u' :: a :: b :: c :: d :: rest) =
      some (joinSurrogates high low, rest) := by
  simp only [readLow, readUnit_cons h, Option.bind_eq_bind, Option.bind_some, if_pos hlow]

theorem readLow_eq_some {cs rest : List Char} {high : Nat} {x : Char}
    (h : readLow high cs = some (x, rest)) : ∃ a b c d low, codeUnit a b c d = some low ∧
      isLowSurrogate low = true ∧ x = joinSurrogates high low ∧
      cs = '\\' :: 'u' :: a :: b :: c :: d :: rest := by
  rw [readLow.eq_def] at h
  split at h
  · obtain ⟨⟨low, rest'⟩, hread, hjoin⟩ := Option.bind_eq_some_iff.mp h
    obtain ⟨a, b, c, d, hunit, hcs⟩ := readUnit_eq_some hread
    obtain ⟨hlow, heq⟩ := Option.ite_none_right_eq_some.mp hjoin
    obtain ⟨rfl, rfl⟩ := Prod.mk.inj (Option.some.inj heq)
    exact ⟨a, b, c, d, low, hunit, hlow, rfl, by rw [hcs]⟩
  · exact nomatch h

/-- Read what follows a backslash: the element is there with its backslash. -/
theorem readEscape_eq_some {cs rest : List Char} {x : Char} :
    readEscape cs = some (x, rest) ↔ ∃ e, Element false ('\\' :: e) x ∧ cs = e ++ rest := by
  constructor
  · intro h
    cases cs with
    | nil => exact nomatch h
    | cons c cs =>
      rw [readEscape] at h
      split_ifs at h with hu
      · subst hu
        obtain ⟨⟨n, rest'⟩, hread, hjoin⟩ := Option.bind_eq_some_iff.mp h
        obtain ⟨a, b, c, d, hunit, rfl⟩ := readUnit_eq_some hread
        simp only at hjoin
        split_ifs at hjoin with hhigh hlow
        · obtain ⟨a', b', c', d', low, hunit', hlow, hx, hrest⟩ := readLow_eq_some hjoin
          rw [hx, hrest]
          -- a high surrogate takes the low one that follows it
          exact ⟨['u', a, b, c, d, '\\', 'u', a', b', c', d'], .pair hunit hhigh hunit' hlow, rfl⟩
        · obtain ⟨rfl, rfl⟩ := Prod.mk.inj (Option.some.inj hjoin)
          exact ⟨['u', a, b, c, d],
            .unit hunit (Bool.eq_false_iff.mpr hhigh) (Bool.eq_false_iff.mpr hlow), rfl⟩
      · obtain ⟨_, hshort, heq⟩ := Option.map_eq_some_iff.mp h
        obtain ⟨rfl, rfl⟩ := Prod.mk.inj heq
        exact ⟨[c], .short hshort, rfl⟩
  · rintro ⟨e, he, rfl⟩
    generalize htext : '\\' :: e = text at he
    cases he with
    | plain _ hescape => exact absurd (List.cons_eq_cons.mp htext).1.symm hescape
    | raw hbreaks => exact nomatch hbreaks
    | @short c d h =>
      obtain ⟨-, rfl⟩ := List.cons_eq_cons.mp htext
      have hu : c ≠ 'u' := by
        rintro rfl
        exact nomatch h
      rw [List.singleton_append, readEscape, if_neg hu, h]
      rfl
    | unit h hhigh hlow =>
      obtain ⟨-, rfl⟩ := List.cons_eq_cons.mp htext
      simp only [List.cons_append, List.nil_append, readEscape, if_true, readUnits,
        readUnit_cons h, Option.bind_eq_bind, Option.bind_some, hhigh, hlow, Bool.false_eq_true,
        if_false]
    | pair hh hhigh hl hlow =>
      obtain ⟨-, rfl⟩ := List.cons_eq_cons.mp htext
      simp only [List.cons_append, List.nil_append, readEscape, if_true, readUnits,
        readUnit_cons hh, Option.bind_eq_bind, Option.bind_some, hhigh, readLow_cons hl hlow]

/-- **Reading one element**: the reader takes an element off the text exactly when one is there. -/
theorem readElement_eq_some {cs rest : List Char} {x : Char} :
    readElement cs = some (x, rest) ↔ ∃ e, Element false e x ∧ cs = e ++ rest := by
  cases cs with
  | nil =>
    refine iff_of_false (fun h ↦ nomatch h) ?_
    rintro ⟨e, he, heq⟩
    exact he.ne_nil (List.append_eq_nil_iff.mp heq.symm).1
  | cons c cs =>
    rw [readElement]
    split_ifs with hescape hbad
    · rw [readEscape_eq_some, hescape]
      constructor
      · rintro ⟨e, he, rfl⟩
        exact ⟨_, he, rfl⟩
      · rintro ⟨e, he, heq⟩
        obtain ⟨c, e, rfl⟩ := List.exists_cons_of_ne_nil he.ne_nil
        obtain ⟨rfl, rfl⟩ := List.cons_eq_cons.mp heq
        exact ⟨e, he, rfl⟩
    · refine iff_of_false (fun h ↦ nomatch h) ?_
      rintro ⟨e, he, heq⟩
      obtain ⟨hquote, hcontrol⟩ := (he.head_eq hescape heq).2
      exact hbad.elim hquote (Nat.not_lt.mpr hcontrol)
    · constructor
      · intro h
        obtain ⟨rfl, rfl⟩ := Prod.mk.inj (Option.some.inj h)
        obtain ⟨hquote, hcontrol⟩ := not_or.mp hbad
        exact ⟨[c], .plain hquote hescape (Nat.not_lt.mp hcontrol), rfl⟩
      · rintro ⟨e, he, heq⟩
        obtain ⟨⟨rfl, rfl⟩, -⟩ := he.head_eq hescape heq
        rfl

/-- **Reading every element**: with fuel for the whole text. -/
theorem readElements_eq_some {fuel : Nat} {s value : List Char} (hfuel : s.length ≤ fuel) :
    readElements fuel s = some value ↔ Elements false s value := by
  induction fuel generalizing s value with
  | zero =>
    obtain rfl := List.length_eq_zero_iff.mp (Nat.le_zero.mp hfuel)
    exact elements_nil.symm
  | succ fuel ih =>
    cases s with
    | nil => exact elements_nil.symm
    | cons c cs =>
      constructor
      · intro h
        obtain ⟨⟨d, rest⟩, hread, hrest⟩ := Option.bind_eq_some_iff.mp h
        obtain ⟨value, hvalue, rfl⟩ := Option.map_eq_some_iff.mp hrest
        obtain ⟨e, he, heq⟩ := readElement_eq_some.mp hread
        -- an element is never empty, so the fuel lasts
        have hlength : rest.length ≤ fuel := by
          have hpos := List.length_pos_of_ne_nil he.ne_nil
          have hsum := congrArg List.length heq
          rw [List.length_append] at hsum
          omega
        rw [heq]
        exact .cons he ((ih hlength).mp hvalue)
      · intro h
        generalize htext : c :: cs = text at h
        cases h with
        | nil => exact nomatch htext
        | @cons e rest value d he hrest =>
          have hlength : rest.length ≤ fuel := by
            have hpos := List.length_pos_of_ne_nil he.ne_nil
            have hsum := congrArg List.length htext
            rw [List.length_append] at hsum
            omega
          have hread := readElement_eq_some.mpr ⟨e, he, htext⟩
          rw [← htext]
          simp only [readElements, hread, Option.bind_eq_bind, Option.bind_some,
            (ih hlength).mpr hrest, Option.map_some]

/-- A run of blanks and what it stops at. -/
theorem dropWhile_isBlank_eq_quote {text s : List Char} :
    text.dropWhile isBlank = '"' :: s ↔
      ∃ before, (∀ c ∈ before, isBlank c = true) ∧ text = before ++ '"' :: s := by
  constructor
  · intro h
    refine ⟨text.takeWhile isBlank, fun c hc ↦ List.mem_takeWhile_imp hc, ?_⟩
    rw [← h, List.takeWhile_append_dropWhile]
  · rintro ⟨before, hbefore, rfl⟩
    rw [List.dropWhile_append_of_pos hbefore]
    rfl

/-- **The reader is the grammar.** -/
theorem readString_eq_some {text value : List Char} :
    readString text = some value ↔ StringText text value := by
  constructor
  · intro h
    rw [readString] at h
    split at h
    · rename_i cs hleft
      split at h
      · rename_i reversed hright
        obtain ⟨before, hbefore, rfl⟩ := dropWhile_isBlank_eq_quote.mp hleft
        obtain ⟨after, hafter, hcs⟩ := dropWhile_isBlank_eq_quote.mp hright
        have helements : Elements false reversed.reverse value :=
          (readElements_eq_some (List.length_reverse.le)).mp h
        refine ⟨before, _, after.reverse, hbefore, ⟨_, helements, rfl⟩,
          fun c hc ↦ hafter c (List.mem_reverse.mp hc), ?_⟩
        rw [← List.reverse_reverse cs, hcs]
        simp
      · exact nomatch h
    · exact nomatch h
  · rintro ⟨before, lit, after, hbefore, ⟨b, hb, rfl⟩, hafter, rfl⟩
    have hleft : (before ++ ('"' :: (b ++ ['"']) ++ after)).dropWhile isBlank =
        '"' :: (b ++ '"' :: after) :=
      dropWhile_isBlank_eq_quote.mpr ⟨before, hbefore, by simp⟩
    have hright : (b ++ '"' :: after).reverse.dropWhile isBlank = '"' :: b.reverse :=
      dropWhile_isBlank_eq_quote.mpr
        ⟨after.reverse, fun c hc ↦ hafter c (List.mem_reverse.mp hc), by simp⟩
    simp only [readString, hleft, hright, List.reverse_reverse, List.length_reverse]
    exact (readElements_eq_some (Nat.le_refl _)).mpr hb

end Json

end Khive
