import Mathlib

/-!
# Text addressed by bytes

A text is the list of its characters, and a position in it is a number of bytes. A position between
two characters is a boundary; cutting a text at any other position fails.
-/

namespace Khive

/-! ## Characters -/

/-- `char::is_whitespace`: the Unicode property `White_Space`. -/
def isWhitespace (c : Char) : Bool :=
  (0x09 ≤ c.toNat && c.toNat ≤ 0x0D) || c.toNat == 0x20 || c.toNat == 0x85 || c.toNat == 0xA0 ||
    c.toNat == 0x1680 || (0x2000 ≤ c.toNat && c.toNat ≤ 0x200A) || c.toNat == 0x2028 ||
    c.toNat == 0x2029 || c.toNat == 0x202F || c.toNat == 0x205F || c.toNat == 0x3000

/-- `char::is_ascii_whitespace`: space, tab, line feed, form feed and carriage return. -/
def isAsciiWhitespace (c : Char) : Bool :=
  c.toNat == 0x20 || c.toNat == 0x09 || c.toNat == 0x0A || c.toNat == 0x0C || c.toNat == 0x0D

/-- `char::is_ascii`. -/
def isAscii (c : Char) : Bool := c.toNat < 0x80

theorem utf8Size_of_isAscii {c : Char} (h : isAscii c = true) : c.utf8Size = 1 := by
  rw [isAscii, decide_eq_true_eq] at h
  rw [Char.utf8Size, if_pos]
  exact UInt32.le_iff_toNat_le.mpr (Nat.le_of_lt_succ h)

/-! ## Lengths -/

/-- `str::len`, in bytes. -/
def utf8Len (s : List Char) : Nat := (s.map Char.utf8Size).sum

theorem utf8Len_append (s t : List Char) : utf8Len (s ++ t) = utf8Len s + utf8Len t := by
  rw [utf8Len, List.map_append, List.sum_append, utf8Len, utf8Len]

theorem utf8Len_cons (c : Char) (s : List Char) : utf8Len (c :: s) = c.utf8Size + utf8Len s := by
  rw [utf8Len, List.map_cons, List.sum_cons, utf8Len]

@[simp] theorem utf8Len_nil : utf8Len [] = 0 := rfl

theorem utf8Len_pos {s : List Char} (h : s ≠ []) : 0 < utf8Len s := by
  obtain ⟨c, s, rfl⟩ := List.exists_cons_of_ne_nil h
  rw [utf8Len_cons]
  exact Nat.add_pos_left c.utf8Size_pos _

/-! ## Cutting -/

/-- `str::split_at`: the characters before a position and those from it on. -/
def splitBytes : ℕ → List Char → Option (List Char × List Char)
  | 0, s => some ([], s)
  | _ + 1, [] => none
  | n + 1, c :: s =>
    if c.utf8Size ≤ n + 1 then
      (splitBytes (n + 1 - c.utf8Size) s).map fun (before, after) ↦ (c :: before, after)
    else none

theorem splitBytes_utf8Len (s t : List Char) : splitBytes (utf8Len s) (s ++ t) = some (s, t) := by
  induction s with
  | nil => rw [utf8Len_nil, List.nil_append, splitBytes]
  | cons c s ih =>
    obtain ⟨n, hn⟩ := Nat.exists_eq_succ_of_ne_zero (utf8Len_pos (List.cons_ne_nil c s)).ne'
    have hlen : utf8Len (c :: s) - c.utf8Size = utf8Len s := by
      rw [utf8Len_cons, Nat.add_sub_cancel_left]
    have hle : c.utf8Size ≤ utf8Len (c :: s) := by
      rw [utf8Len_cons]
      exact Nat.le_add_right _ _
    rw [hn] at hlen hle ⊢
    rw [List.cons_append, splitBytes, if_pos hle, hlen, ih]
    rfl

/-- The position stands between two characters, or at an end. -/
def IsBoundary (text : List Char) (n : ℕ) : Prop := ∃ s t, text = s ++ t ∧ utf8Len s = n

theorem isBoundary_utf8Len (s t : List Char) : IsBoundary (s ++ t) (utf8Len s) := ⟨s, t, rfl, rfl⟩

/-- Of two starts of a text the shorter one starts the other. -/
theorem exists_eq_append {s t s' t' : List Char} (h : s ++ t = s' ++ t')
    (hle : utf8Len s ≤ utf8Len s') : ∃ u, s' = s ++ u ∧ t = u ++ t' := by
  rcases List.append_eq_append_iff.mp h with ⟨u, rfl, rfl⟩ | ⟨u, rfl, rfl⟩
  · exact ⟨u, rfl, rfl⟩
  · -- the longer one is no longer in bytes
    rw [utf8Len_append] at hle
    have hu : u = [] := by
      by_contra hne
      exact absurd (utf8Len_pos hne) (by omega)
    exact ⟨[], by rw [hu, List.append_nil, List.append_nil], by rw [hu]; rfl⟩

/-- A boundary behind a start of the text cuts the rest of it. -/
theorem IsBoundary.exists_cut {s t : List Char} {n : ℕ} (h : IsBoundary (s ++ t) n)
    (hle : utf8Len s ≤ n) : ∃ u v, t = u ++ v ∧ n = utf8Len (s ++ u) := by
  obtain ⟨a, b, hab, rfl⟩ := h
  obtain ⟨u, rfl, rfl⟩ := exists_eq_append hab hle
  exact ⟨u, b, rfl, rfl⟩

/-- `&text[start..stop]`. -/
def sliceBytes (text : List Char) (start stop : ℕ) : Option (List Char) := do
  guard (start ≤ stop)
  let (_, rest) ← splitBytes start text
  let (slice, _) ← splitBytes (stop - start) rest
  pure slice

/-- `&text[start..]`. -/
def sliceFrom (text : List Char) (start : ℕ) : Option (List Char) :=
  (splitBytes start text).map Prod.snd

theorem sliceFrom_utf8Len (s t : List Char) : sliceFrom (s ++ t) (utf8Len s) = some t := by
  rw [sliceFrom, splitBytes_utf8Len]
  rfl

theorem sliceBytes_utf8Len (s t u : List Char) :
    sliceBytes (s ++ (t ++ u)) (utf8Len s) (utf8Len (s ++ t)) = some t := by
  have hle : utf8Len s ≤ utf8Len (s ++ t) := by
    rw [utf8Len_append]
    exact Nat.le_add_right _ _
  rw [sliceBytes, guard, if_pos hle, splitBytes_utf8Len]
  have hlen : utf8Len (s ++ t) - utf8Len s = utf8Len t := by
    rw [utf8Len_append, Nat.add_sub_cancel_left]
  rw [hlen]
  exact congrArg (·.bind fun p ↦ some p.1) (splitBytes_utf8Len t u)

/-! ## Searching -/

/-- `str::find`: the position of the first character with a property. -/
def findByte (p : Char → Bool) : List Char → Option ℕ
  | [] => none
  | c :: s => if p c then some 0 else (findByte p s).map (c.utf8Size + ·)

/-- A search finds the end of the characters without the property. -/
theorem findByte_append {p : Char → Bool} {s t : List Char} (hs : ∀ c ∈ s, p c = false)
    (ht : t.head?.any p = true) : findByte p (s ++ t) = some (utf8Len s) := by
  induction s with
  | nil =>
    rcases t with - | ⟨c, t⟩
    · cases ht
    · have hc : p c = true := ht
      rw [List.nil_append, findByte, if_pos hc, utf8Len_nil]
  | cons c s ih =>
    rw [List.cons_append, findByte, hs c List.mem_cons_self,
      ih fun d hd ↦ hs d (List.mem_cons_of_mem c hd), utf8Len_cons]
    rfl

theorem findByte_eq_none {p : Char → Bool} {s : List Char} :
    findByte p s = none ↔ ∀ c ∈ s, p c = false := by
  induction s with
  | nil => exact iff_of_true rfl fun c hc ↦ absurd hc List.not_mem_nil
  | cons c s ih =>
    rw [findByte, List.forall_mem_cons, ← ih]
    cases p c with
    | true => exact iff_of_false (fun h ↦ by cases h) fun h ↦ by cases h.1
    | false => exact ⟨fun h ↦ ⟨rfl, Option.map_eq_none_iff.mp h⟩,
        fun h ↦ Option.map_eq_none_iff.mpr h.2⟩

/-- What a search that finds something says about the text. -/
theorem findByte_eq_some {p : Char → Bool} {text : List Char} {n : ℕ}
    (h : findByte p text = some n) :
    ∃ s t, text = s ++ t ∧ utf8Len s = n ∧ (∀ c ∈ s, p c = false) ∧ t.head?.any p = true := by
  induction text generalizing n with
  | nil => cases h
  | cons c text ih =>
    rw [findByte] at h
    by_cases hc : p c = true
    · rw [if_pos hc] at h
      cases h
      exact ⟨[], c :: text, rfl, rfl, fun c hc ↦ absurd hc List.not_mem_nil, hc⟩
    · rw [if_neg hc] at h
      obtain ⟨m, hm, rfl⟩ := Option.map_eq_some_iff.mp h
      obtain ⟨s, t, rfl, rfl, hs, ht⟩ := ih hm
      refine ⟨c :: s, t, rfl, utf8Len_cons c s, ?_, ht⟩
      exact List.forall_mem_cons.mpr ⟨Bool.not_eq_true _ ▸ hc, hs⟩

/-- Where nothing is found, the search ends with the text. -/
theorem findByte_getD (p : Char → Bool) (text : List Char) :
    ∃ s t, text = s ++ t ∧ (findByte p text).getD (utf8Len text) = utf8Len s := by
  rcases hfind : findByte p text with - | n
  · exact ⟨text, [], (List.append_nil _).symm, rfl⟩
  · obtain ⟨s, t, htext, hlen, -, -⟩ := findByte_eq_some hfind
    exact ⟨s, t, htext, hlen.symm⟩

theorem findByte_getD_append {p : Char → Bool} {s t : List Char} (hs : ∀ c ∈ s, p c = false)
    (ht : t.head?.all p = true) : (findByte p (s ++ t)).getD (utf8Len (s ++ t)) = utf8Len s := by
  rcases t with - | ⟨c, t⟩
  · rw [List.append_nil, findByte_eq_none.mpr hs, Option.getD_none]
  · have hc : (c :: t).head?.any p = true := ht
    rw [findByte_append hs hc, Option.getD_some]

/-! ## Characters at their positions -/

/-- `str::char_indices`, from a position on. -/
def charIndices : ℕ → List Char → List (ℕ × Char)
  | _, [] => []
  | n, c :: s => (n, c) :: charIndices (n + c.utf8Size) s

theorem charIndices_append (n : ℕ) (s t : List Char) :
    charIndices n (s ++ t) = charIndices n s ++ charIndices (n + utf8Len s) t := by
  induction s generalizing n with
  | nil => rfl
  | cons c s ih =>
    rw [List.cons_append, charIndices, ih, charIndices, utf8Len_cons, Nat.add_assoc]
    rfl

/-- A character stands between the ends of its text. -/
theorem bounds_of_mem_charIndices {n : ℕ} {s : List Char} {p : ℕ × Char}
    (h : p ∈ charIndices n s) : n ≤ p.1 ∧ p.1 + p.2.utf8Size ≤ n + utf8Len s := by
  induction s generalizing n with
  | nil => exact absurd h List.not_mem_nil
  | cons c s ih =>
    rw [utf8Len_cons]
    rcases List.mem_cons.mp h with rfl | h
    · exact ⟨le_rfl, Nat.add_le_add_left (Nat.le_add_right _ _) n⟩
    · obtain ⟨hle, hlt⟩ := ih h
      exact ⟨by omega, by omega⟩

end Khive
