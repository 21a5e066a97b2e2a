import Khive.Foundation.JsonText

/-!
# Compact JSON texts

The texts a compact JSON writer produces can be taken apart again without a grammar: a scan that
knows whether it stands inside a string, and how many brackets are open, passes over exactly one
value and stops at the comma, the colon or the closing bracket behind it. `Token` says that a
text is passed over in this way. String literals, numbers and whole values are tokens, and an
array or object written from tokens splits into them.
-/

namespace Khive

namespace Json

/-! ## The scan -/

inductive ScanMode where
  | plain
  | string
  /-- Behind a backslash. -/
  | escape
  deriving DecidableEq

structure Scan where
  mode : ScanMode
  /-- How many brackets are open. -/
  depth : Nat
  deriving DecidableEq

namespace Scan

/-- Pass over one character; `none` in front of what cannot be part of the value. -/
def step : Scan → Char → Option Scan
  | ⟨.plain, d⟩, c =>
    if c = '"' then some ⟨.string, d⟩
    else if c = '[' ∨ c = '{' then some ⟨.plain, d + 1⟩
    else if c = ']' ∨ c = '}' then if d = 0 then none else some ⟨.plain, d - 1⟩
    else if c = ',' ∨ c = ':' then if d = 0 then none else some ⟨.plain, d⟩
    else some ⟨.plain, d⟩
  | ⟨.string, d⟩, c =>
    if c = '\\' then some ⟨.escape, d⟩
    else if c = '"' then some ⟨.plain, d⟩
    else some ⟨.string, d⟩
  | ⟨.escape, d⟩, _ => some ⟨.string, d⟩

def run (s : Scan) (text : List Char) : Option Scan := text.foldlM step s

theorem run_cons (s : Scan) (c : Char) (text : List Char) :
    s.run (c :: text) = (s.step c).bind fun s' ↦ s'.run text := rfl

theorem run_append (s : Scan) (t u : List Char) :
    s.run (t ++ u) = (s.run t).bind fun s' ↦ s'.run u := List.foldlM_append

/-- Open brackets around the text do not matter to the scan. -/
theorem step_add {s s' : Scan} {c : Char} (h : s.step c = some s') (k : Nat) :
    Scan.step ⟨s.mode, s.depth + k⟩ c = some ⟨s'.mode, s'.depth + k⟩ := by
  obtain ⟨mode, d⟩ := s
  cases mode with
  | plain =>
    simp only [step] at h ⊢
    split_ifs at h ⊢ <;> cases h <;>
      first | omega | (simp only [Option.some.injEq, Scan.mk.injEq, true_and]; omega) | rfl
  | string =>
    simp only [step] at h ⊢
    split_ifs at h ⊢ <;> cases h <;> rfl
  | escape =>
    cases h
    rfl

theorem run_add {s s' : Scan} {text : List Char} (h : s.run text = some s') (k : Nat) :
    Scan.run ⟨s.mode, s.depth + k⟩ text = some ⟨s'.mode, s'.depth + k⟩ := by
  induction text generalizing s with
  | nil =>
    cases h
    rfl
  | cons c text ih =>
    rw [run_cons] at h ⊢
    obtain ⟨t, hstep, hrun⟩ := Option.bind_eq_some_iff.mp h
    rw [step_add hstep k, Option.bind_some]
    exact ih hrun

/-- Split off what the scan passes over. -/
def cut : Scan → List Char → List Char × List Char
  | _, [] => ([], [])
  | s, c :: text =>
    match s.step c with
    | none => ([], c :: text)
    | some s' => (c :: (cut s' text).1, (cut s' text).2)

theorem cut_append {s s' : Scan} {t : List Char} (h : s.run t = some s') (u : List Char) :
    cut s (t ++ u) = (t ++ (cut s' u).1, (cut s' u).2) := by
  induction t generalizing s with
  | nil =>
    cases h
    rfl
  | cons c t ih =>
    rw [run_cons] at h
    obtain ⟨s₁, hstep, hrun⟩ := Option.bind_eq_some_iff.mp h
    rw [List.cons_append, cut, hstep]
    dsimp only
    rw [ih hrun]
    rfl

end Scan

/-! ## Tokens -/

/-- Where a value starts. -/
def scanStart : Scan := ⟨.plain, 0⟩

/-- The scan passes over the text and is back where it started. -/
def Token (text : List Char) : Prop := scanStart.run text = some scanStart

instance (text : List Char) : Decidable (Token text) :=
  inferInstanceAs (Decidable (scanStart.run text = some scanStart))

/-- The scan passes over the text inside a bracket. -/
def Inside (text : List Char) : Prop := ∀ d, Scan.run ⟨.plain, d + 1⟩ text = some ⟨.plain, d + 1⟩

theorem Token.run {text : List Char} (h : Token text) (d : Nat) :
    Scan.run ⟨.plain, d⟩ text = some ⟨.plain, d⟩ := by
  have hadd := Scan.run_add h d
  rwa [scanStart, Nat.zero_add] at hadd

theorem Token.inside {text : List Char} (h : Token text) : Inside text := fun d ↦ h.run (d + 1)

theorem inside_append {t u : List Char} (ht : Inside t) (hu : Inside u) : Inside (t ++ u) := by
  intro d
  rw [Scan.run_append, ht d, Option.bind_some, hu d]

theorem inside_comma {t u : List Char} (ht : Inside t) (hu : Inside u) :
    Inside (t ++ ',' :: u) :=
  inside_append ht fun d ↦ hu d

theorem inside_colon {t u : List Char} (ht : Inside t) (hu : Inside u) :
    Inside (t ++ ':' :: u) :=
  inside_append ht fun d ↦ hu d

theorem token_array {t : List Char} (h : Inside t) : Token ('[' :: (t ++ [']'])) := by
  have hopen : Scan.run scanStart ('[' :: (t ++ [']'])) = Scan.run ⟨.plain, 1⟩ (t ++ [']']) := rfl
  rw [Token, hopen, Scan.run_append, h 0]
  rfl

theorem token_object {t : List Char} (h : Inside t) : Token ('{' :: (t ++ ['}'])) := by
  have hopen : Scan.run scanStart ('{' :: (t ++ ['}'])) = Scan.run ⟨.plain, 1⟩ (t ++ ['}']) := rfl
  rw [Token, hopen, Scan.run_append, h 0]
  rfl

/-- A character that is neither structure nor a separator. -/
def isWord (c : Char) : Bool := !isStructural c && c != ',' && c != ':'

theorem token_of_words {text : List Char} (h : ∀ c ∈ text, isWord c = true) : Token text := by
  induction text with
  | nil => rfl
  | cons c text ih =>
    have hc := h c List.mem_cons_self
    have hstep : scanStart.step c = some scanStart := by
      simp only [isWord, isStructural, Bool.and_eq_true, Bool.not_eq_true', Bool.or_eq_false_iff,
        beq_eq_false_iff_ne, bne_iff_ne, ne_eq] at hc
      obtain ⟨⟨⟨⟨⟨⟨h₁, h₂⟩, h₃⟩, h₄⟩, h₅⟩, h₆⟩, h₇⟩ := hc
      simp [scanStart, Scan.step, h₁, h₂, h₃, h₄, h₅, h₆, h₇]
    rw [Token, Scan.run_cons, hstep, Option.bind_some]
    exact ih fun d hd ↦ h d (List.mem_cons_of_mem _ hd)

theorem run_stringBody {b : List Char} (hb : StringBody b) (d : Nat) :
    Scan.run ⟨.string, d⟩ b = some ⟨.string, d⟩ := by
  induction hb with
  | nil => rfl
  | @char c cs hquote hescape _ ih =>
    have hstep : Scan.step ⟨.string, d⟩ c = some ⟨.string, d⟩ := by
      rw [Scan.step, if_neg hescape, if_neg hquote]
    rw [Scan.run_cons, hstep, Option.bind_some, ih]
  | escape c _ ih => exact ih

theorem token_literal {b : List Char} (hb : StringBody b) : Token ('"' :: (b ++ ['"'])) := by
  have hopen : Scan.run scanStart ('"' :: (b ++ ['"'])) = Scan.run ⟨.string, 0⟩ (b ++ ['"']) := rfl
  rw [Token, hopen, Scan.run_append, run_stringBody hb]
  rfl

/-! ## Values -/

section Write

variable {ν : Type} {writeString : String → List Char} {writeNumber : ν → List Char}
  (hs : WritesStrings writeString) (hn : ∀ n, ∀ c ∈ writeNumber n, isWord c = true)

include hs in
theorem token_writeString (s : String) : Token (writeString s) := by
  obtain ⟨b, hb, heq⟩ := hs s
  rw [heq]
  exact token_literal hb

include hs hn

-- the mutual block uses the two hypotheses through its members
set_option linter.unusedSectionVars false

mutual

/-- The text of a value is one token. -/
theorem token_write : ∀ v : Json ν, Token (write writeString writeNumber v)
  | .null => token_of_words (by simp [write, isWord, isStructural])
  | .bool true => token_of_words (by simp [write, isWord, isStructural])
  | .bool false => token_of_words (by simp [write, isWord, isStructural])
  | .number n => by
    rw [write]
    exact token_of_words (hn n)
  | .string s => by
    rw [write]
    exact token_writeString hs s
  | .array xs => by
    rw [write]
    exact token_array (inside_writeItems xs)
  | .object ms => by
    rw [write]
    exact token_object (inside_writeMembers ms)

theorem inside_writeItems : ∀ xs : List (Json ν), Inside (writeItems writeString writeNumber xs)
  | [] => by
    rw [writeItems]
    exact fun _ ↦ rfl
  | [x] => by
    rw [writeItems]
    exact (token_write x).inside
  | x :: y :: xs => by
    rw [writeItems]
    · exact inside_comma (token_write x).inside (inside_writeItems (y :: xs))
    · simp

theorem inside_writeMembers : ∀ ms : List (String × Json ν),
    Inside (writeMembers writeString writeNumber ms)
  | [] => by
    rw [writeMembers]
    exact fun _ ↦ rfl
  | [m] => by
    rw [writeMembers]
    exact inside_colon (token_writeString hs m.1).inside (token_write m.2).inside
  | m :: m' :: ms => by
    rw [writeMembers]
    · refine inside_colon (token_writeString hs m.1).inside ?_
      exact inside_comma (token_write m.2).inside (inside_writeMembers (m' :: ms))
    · simp

end

end Write

/-! ## String literals -/

/-- A string literal that escapes what must be escaped to delimit it. -/
def quote (s : String) : List Char :=
  '"' :: ((s.toList.flatMap fun c ↦ if c = '"' ∨ c = '\\' then ['\\', c] else [c]) ++ ['"'])

/-- Drop the backslashes in front of escaped characters; the flag says that one was just read. -/
def unescape : Bool → List Char → List Char
  | _, [] => []
  | true, c :: cs => c :: unescape false cs
  | false, c :: cs => if c = '\\' then unescape true cs else c :: unescape false cs

def unquote (text : List Char) : String := String.ofList (unescape false text.tail.dropLast)

theorem writesStrings_quote : WritesStrings quote := by
  intro s
  refine ⟨_, ?_, rfl⟩
  induction s.toList with
  | nil => exact .nil
  | cons c cs ih =>
    rw [List.flatMap_cons]
    split_ifs with hc
    · exact .escape c ih
    · rw [not_or] at hc
      exact .char hc.1 hc.2 ih

theorem unescape_flatMap (cs : List Char) :
    unescape false (cs.flatMap fun c ↦ if c = '"' ∨ c = '\\' then ['\\', c] else [c]) = cs := by
  induction cs with
  | nil => rfl
  | cons c cs ih =>
    rw [List.flatMap_cons]
    split_ifs with hc
    · rw [List.cons_append, List.cons_append, List.nil_append, unescape, if_pos rfl, unescape, ih]
    · rw [not_or] at hc
      rw [List.cons_append, List.nil_append, unescape, if_neg hc.2, ih]

theorem unquote_quote (s : String) : unquote (quote s) = s := by
  rw [quote, unquote, List.tail_cons, List.dropLast_concat, unescape_flatMap, String.ofList_toList]

/-! ## Arrays and objects of tokens -/

/-- The texts, separated by commas. -/
def joined (items : List (List Char)) : List Char := [','].intercalate items

/-- The compact array of the item texts. -/
def arrayText (items : List (List Char)) : List Char := '[' :: (joined items ++ [']'])

/-- The text of one member, over its value's text. -/
def memberText (writeString : String → List Char) (m : String × List Char) : List Char :=
  writeString m.1 ++ ':' :: m.2

/-- The compact object of the members, over their values' texts. -/
def objectText (writeString : String → List Char) (members : List (String × List Char)) :
    List Char :=
  '{' :: (joined (members.map (memberText writeString)) ++ ['}'])

theorem joined_cons (t u : List Char) (items : List (List Char)) :
    joined (t :: u :: items) = t ++ ',' :: joined (u :: items) := rfl

theorem joined_singleton (t : List Char) : joined [t] = t := by
  simp [joined]

theorem inside_joined {items : List (List Char)} (h : ∀ t ∈ items, Inside t) :
    Inside (joined items) := by
  induction items with
  | nil => exact fun _ ↦ rfl
  | cons t items ih =>
    have ht := h t List.mem_cons_self
    cases items with
    | nil =>
      rw [joined_singleton]
      exact ht
    | cons u items =>
      rw [joined_cons]
      exact inside_comma ht (ih fun v hv ↦ h v (List.mem_cons_of_mem _ hv))

theorem token_arrayText {items : List (List Char)} (h : ∀ t ∈ items, Token t) :
    Token (arrayText items) :=
  token_array (inside_joined fun t ht ↦ (h t ht).inside)

/-- Read items up to the closing bracket, which ends the text. -/
def separated {α : Type} (item : List Char → Option (α × List Char)) (close : Char) :
    Nat → List Char → Option (List α)
  | 0, _ => none
  | n + 1, text =>
    match item text with
    | some (a, ',' :: rest) => (separated item close n rest).map (a :: ·)
    | some (a, [c]) => if c = close then some [a] else none
    | _ => none

/-- Where the item reader reads what stands in front of a comma or the closing bracket, all
items are read. -/
theorem separated_joined {α : Type} (item : List Char → Option (α × List Char)) (close : Char)
    (write : α → List Char) (hclose : close ≠ ',') {items : List α} (hne : items ≠ [])
    (hitem : ∀ a ∈ items, ∀ c rest, c = ',' ∨ c = close →
      item (write a ++ c :: rest) = some (a, c :: rest))
    {n : Nat} (hn : items.length ≤ n) :
    separated item close n (joined (items.map write) ++ [close]) = some items := by
  induction items generalizing n with
  | nil => exact absurd rfl hne
  | cons a items ih =>
    obtain ⟨n, rfl⟩ : ∃ m, n = m + 1 := ⟨n - 1, by rw [List.length_cons] at hn; omega⟩
    cases items with
    | nil =>
      have hread := hitem a List.mem_cons_self close [] (Or.inr rfl)
      rw [List.map_singleton, joined_singleton, separated, hread]
      split
      · next heq =>
        cases heq
        exact absurd rfl hclose
      · next heq =>
        cases heq
        rw [if_pos rfl]
      · next hother => exact absurd rfl (hother a close)
    | cons b items =>
      have hread := hitem a List.mem_cons_self ',' (joined ((b :: items).map write) ++ [close])
        (Or.inl rfl)
      have hrest := ih (List.cons_ne_nil _ _) (fun c hc ↦ hitem c (List.mem_cons_of_mem _ hc))
        (Nat.le_of_succ_le_succ hn)
      rw [List.map_cons, List.map_cons, joined_cons, List.append_assoc, List.cons_append,
        ← List.map_cons, separated, hread]
      simp only [hrest, Option.map_some]

/-- Read one token, which a separator or a bracket must follow. -/
def readToken (text : List Char) : Option (List Char × List Char) := some (scanStart.cut text)

/-- What ends a token. -/
def isEnd (c : Char) : Bool := c == ',' || c == ':' || c == ']' || c == '}'

theorem cut_token {t : List Char} (ht : Token t) {c : Char} (hc : isEnd c = true)
    (rest : List Char) : scanStart.cut (t ++ c :: rest) = (t, c :: rest) := by
  have hstop : scanStart.cut (c :: rest) = ([], c :: rest) := by
    simp only [isEnd, Bool.or_eq_true, beq_iff_eq] at hc
    rcases hc with ((rfl | rfl) | rfl) | rfl <;> rfl
  rw [Scan.cut_append ht, hstop, List.append_nil]

/-- Read one member: the token of its key, a colon, the token of its value. -/
def readMember (text : List Char) : Option ((List Char × List Char) × List Char) :=
  match scanStart.cut text with
  | (key, ':' :: rest) => some ((key, (scanStart.cut rest).1), (scanStart.cut rest).2)
  | _ => none

/-- Take an array apart into the texts of its items. -/
def splitArray : List Char → Option (List (List Char))
  | ['[', ']'] => some []
  | '[' :: rest => separated readToken ']' rest.length rest
  | _ => none

/-- Take an object apart into the texts of its keys and values. -/
def splitObject : List Char → Option (List (List Char × List Char))
  | ['{', '}'] => some []
  | '{' :: rest => separated readMember '}' rest.length rest
  | _ => none

theorem length_le_joined (items : List (List Char)) : items.length ≤ (joined items).length + 1 := by
  induction items with
  | nil => exact Nat.zero_le _
  | cons t items ih =>
    cases items with
    | nil => simp
    | cons u items =>
      simp only [joined_cons, List.length_append, List.length_cons] at ih ⊢
      omega

theorem joined_ne_nil {items : List (List Char)} (hnil : items ≠ []) (h : ∀ t ∈ items, t ≠ []) :
    joined items ≠ [] := by
  obtain ⟨t, rest, rfl⟩ := List.exists_cons_of_ne_nil hnil
  cases rest with
  | nil =>
    rw [joined_singleton]
    exact h t List.mem_cons_self
  | cons u rest =>
    rw [joined_cons]
    exact List.append_ne_nil_of_right_ne_nil _ (List.cons_ne_nil _ _)

/-- The items of a bracket that is not empty stand in front of what closes it. -/
theorem joined_append_ne {items : List (List Char)} (hnil : items ≠ []) (h : ∀ t ∈ items, t ≠ [])
    (close : Char) : joined items ++ [close] ≠ [close] := by
  intro heq
  exact joined_ne_nil hnil h (by simpa using heq)

/-- An array written from tokens splits into them. -/
theorem splitArray_arrayText {items : List (List Char)} (h : ∀ t ∈ items, Token t ∧ t ≠ []) :
    splitArray (arrayText items) = some items := by
  by_cases hnil : items = []
  · subst hnil
    rfl
  have hread : separated readToken ']' (joined items ++ [']']).length (joined items ++ [']']) =
      some items := by
    have hlength : items.length ≤ (joined items ++ [']']).length := by
      rw [List.length_append]
      exact length_le_joined items
    have hitem : ∀ t ∈ items, ∀ c rest, c = ',' ∨ c = ']' →
        readToken (id t ++ c :: rest) = some (t, c :: rest) := by
      intro t ht c rest hc
      have hend : isEnd c = true := by rcases hc with rfl | rfl <;> rfl
      rw [readToken, id, cut_token (h t ht).1 hend]
    have hsep := separated_joined readToken ']' id (by decide) hnil hitem hlength
    rwa [List.map_id] at hsep
  rw [arrayText, splitArray]
  · exact hread
  · exact joined_append_ne hnil (fun t ht ↦ (h t ht).2) ']'

/-- An object written over tokens splits into its keys and values. -/
theorem splitObject_objectText {writeString : String → List Char}
    (hkeys : ∀ s, Token (writeString s)) {members : List (String × List Char)}
    (h : ∀ m ∈ members, Token m.2) :
    splitObject (objectText writeString members) =
      some (members.map fun m ↦ (writeString m.1, m.2)) := by
  by_cases hnil : members = []
  · subst hnil
    rfl
  let write : List Char × List Char → List Char := fun m ↦ m.1 ++ ':' :: m.2
  let texts := members.map fun m ↦ (writeString m.1, m.2)
  have htexts : members.map (memberText writeString) = texts.map write := by
    rw [List.map_map]
    rfl
  have hlength : texts.length ≤ (joined (texts.map write) ++ ['}']).length := by
    rw [List.length_append, ← List.length_map write]
    exact length_le_joined (texts.map write)
  have hitem : ∀ m ∈ texts, ∀ c rest, c = ',' ∨ c = '}' →
      readMember (write m ++ c :: rest) = some (m, c :: rest) := by
    intro m' hm' c rest hc
    obtain ⟨m, hm, rfl⟩ := List.mem_map.mp hm'
    have hend : isEnd c = true := by rcases hc with rfl | rfl <;> rfl
    have hkey := cut_token (hkeys m.1) (show isEnd ':' = true from rfl) (m.2 ++ c :: rest)
    rw [readMember, List.append_assoc, List.cons_append, hkey]
    simp only [cut_token (h m hm) hend]
  have htexts_ne : texts ≠ [] := List.map_eq_nil_iff.not.mpr hnil
  have hread := separated_joined readMember '}' write (by decide) htexts_ne hitem hlength
  have hhead : joined (texts.map write) ++ ['}'] ≠ ['}'] := by
    refine joined_append_ne (List.map_eq_nil_iff.not.mpr htexts_ne) (fun t ht ↦ ?_) '}'
    obtain ⟨m, -, rfl⟩ := List.mem_map.mp ht
    exact List.append_ne_nil_of_right_ne_nil _ (List.cons_ne_nil _ _)
  rw [objectText, htexts, splitObject]
  · exact hread
  · exact hhead

end Json

end Khive
