import Khive.SecretGate.Masking

/-!
# Bridges

Behind a match the redaction goes on as long as a gap of invisible separators is followed by a run
of letters and digits that is long enough to be a fragment of a credential. It reaches the end of
every such chain and always stops between characters.
-/

namespace Khive

namespace SecretGate

/-- Fragments that follow a position, at most so many: each behind a gap of separators, and each a
whole run of at least eight ASCII letters and digits. -/
inductive Bridged (separator : Char → Bool) : ℕ → List Char → List Char → Prop
  | nil (n : ℕ) (rest : List Char) : Bridged separator n [] rest
  | cons {n : ℕ} {gap fragment chain rest : List Char} (hne : gap ≠ [])
      (hgap : ∀ c ∈ gap, separator c = true) (hfragment : ∀ c ∈ fragment, c.isAlphanum = true)
      (hlen : MIN_BRIDGE_FRAGMENT_LEN ≤ utf8Len fragment)
      (hend : (chain ++ rest).head?.all (fun c ↦ !c.isAlphanum) = true)
      (hchain : Bridged separator n chain rest) :
      Bridged separator (n + 1) (gap ++ (fragment ++ chain)) rest

variable {isAlphanumeric : Char → Bool} {text : List Char}

/-- A separator is no ASCII letter or digit. -/
theorem isAlphanum_of_separator {c : Char}
    (h : isInvisibleBridgeSeparator isAlphanumeric c = true) : c.isAlphanum = false := by
  rw [isInvisibleBridgeSeparator, Bool.and_eq_true, Bool.not_eq_true', isAscii,
    decide_eq_false_iff_not, not_lt] at h
  have hval : 128 ≤ c.val.toNat := h.1
  have hle : ∀ n : UInt32, n.toNat < 128 → ¬c.val ≤ n := fun n hn hle ↦
    absurd (UInt32.le_iff_toNat_le.mp hle) (by omega)
  simp [Char.isAlphanum, Char.isAlpha, Char.isUpper, Char.isLower, Char.isDigit, hle]

theorem sliceBytes_zero (s t : List Char) : sliceBytes (s ++ t) 0 (utf8Len s) = some s :=
  sliceBytes_utf8Len [] s t

/-- The extension ends between characters. -/
theorem extendPasses_boundary (n : ℕ) {s t : List Char} (htext : text = s ++ t) :
    Returns (extendPasses isAlphanumeric text n (utf8Len s)) fun stop ↦
      ∃ chain rest, t = chain ++ rest ∧ stop = utf8Len (s ++ chain) := by
  have hstop : ∃ chain rest, t = chain ++ rest ∧ utf8Len s = utf8Len (s ++ chain) :=
    ⟨[], t, rfl, by rw [List.append_nil]⟩
  induction n generalizing s t with
  | zero => exact returns_some.mpr hstop
  | succ n ih =>
    have hrest := sliceFrom_utf8Len s t
    rw [← htext] at hrest
    rw [extendPasses, hrest]
    refine returns_bind.mpr (returns_some.mpr ?_)
    rcases hfind : findByte Char.isAlphanum t with - | gapLen
    · exact returns_pure.mpr hstop
    · obtain ⟨gap, behind, rfl, rfl, -, -⟩ := findByte_eq_some hfind
      refine returns_bind.mpr ?_
      rw [sliceBytes_zero]
      refine returns_some.mpr ?_
      split_ifs with hgap
      · exact returns_pure.mpr hstop
      · refine returns_bind.mpr ?_
        rw [sliceFrom_utf8Len]
        refine returns_some.mpr ?_
        obtain ⟨fragment, rest, hbehind, hlen⟩ := findByte_getD (fun c ↦ !c.isAlphanum) behind
        rw [hlen]
        dsimp only
        split_ifs with hshort
        · exact returns_pure.mpr hstop
        · have hnext := ih (s := s ++ (gap ++ fragment)) (t := rest)
            (by rw [htext, hbehind]; simp only [List.append_assoc])
            ⟨[], rest, rfl, by rw [List.append_nil]⟩
          rw [utf8Len_append, utf8Len_append] at hnext
          refine hnext.mono ?_
          rintro stop ⟨chain, rest', rfl, rfl⟩
          refine ⟨gap ++ (fragment ++ chain), rest', ?_, ?_⟩
          · rw [hbehind]
            simp only [List.append_assoc]
          · simp only [List.append_assoc]

/-- The extension reaches the end of a chain of fragments. -/
theorem extendPasses_reaches {n : ℕ} {chain rest : List Char}
    (h : Bridged (isInvisibleBridgeSeparator isAlphanumeric) n chain rest) {s : List Char}
    (htext : text = s ++ (chain ++ rest)) :
    Returns (extendPasses isAlphanumeric text n (utf8Len s)) fun stop ↦
      utf8Len (s ++ chain) ≤ stop := by
  induction h generalizing s with
  | nil n rest =>
    -- no fragment is left, and an extension never goes back
    refine (extendPasses_boundary n htext).mono ?_
    rintro stop ⟨chain, rest, -, rfl⟩
    rw [List.append_nil, utf8Len_append]
    exact Nat.le_add_right _ _
  | @cons n gap fragment chain rest hne hgap hfragment hlen hend hchain ih =>
    have hrest := sliceFrom_utf8Len s ((gap ++ (fragment ++ chain)) ++ rest)
    rw [← htext, List.append_assoc, List.append_assoc] at hrest
    have hfind : findByte Char.isAlphanum (gap ++ (fragment ++ (chain ++ rest))) =
        some (utf8Len gap) := by
      refine findByte_append (fun c hc ↦ isAlphanum_of_separator (hgap c hc)) ?_
      rcases fragment with - | ⟨c, fragment⟩
      · cases hlen
      · exact hfragment c List.mem_cons_self
    have hfragmentLen := findByte_getD_append (p := fun c ↦ !c.isAlphanum) (s := fragment)
      (fun c hc ↦ by rw [hfragment c hc]; rfl) hend
    have hgaps : (gap.isEmpty || !gap.all (isInvisibleBridgeSeparator isAlphanumeric)) = false := by
      rw [Bool.or_eq_false_iff, List.isEmpty_eq_false_iff, Bool.not_eq_false', List.all_eq_true]
      exact ⟨hne, hgap⟩
    rw [extendPasses, hrest]
    refine returns_bind.mpr (returns_some.mpr ?_)
    rw [hfind]
    refine returns_bind.mpr ?_
    rw [sliceBytes_zero]
    refine returns_some.mpr ?_
    rw [if_neg (Bool.not_eq_true _ ▸ hgaps)]
    refine returns_bind.mpr ?_
    rw [sliceFrom_utf8Len]
    refine returns_some.mpr ?_
    rw [hfragmentLen]
    dsimp only
    rw [if_neg (not_lt.mpr hlen)]
    have hnext := ih (s := s ++ (gap ++ fragment)) (by rw [htext]; simp only [List.append_assoc])
    rw [utf8Len_append s, utf8Len_append gap] at hnext
    simpa only [List.append_assoc] using hnext

end SecretGate

end Khive
