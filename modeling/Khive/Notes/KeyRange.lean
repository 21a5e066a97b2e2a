import Khive.Foundation.PrefixRange
import Mathlib.Data.String.Basic

/-!
# Notes whose key starts with a prefix

The store finds them by a range scan: `key >= prefix`, and `key < successor` where there is one. The
order is that of the code points, which is the order of the UTF-8 bytes. The successor of the last
character steps over the surrogates, which are no characters, and `char::MAX` has none.
-/

namespace Khive.Notes

/-- `char::MAX`. -/
def charMax : Char := Char.ofNat 0x10FFFF

/-- `char::from_u32`. -/
def charFromU32 (n : ℕ) : Option Char :=
  if h : n.isValidChar then some (Char.ofNatAux n h) else none

/-- The loop of `note_key_prefix_successor` over the characters left, the last one first; the outer
`none` is the failed `expect`. -/
def successorOfReversed : List Char → Option (Option (List Char))
  | [] => some none
  | last :: chars =>
    if last = charMax then successorOfReversed chars
    else do
      let next ← if last = '\uD7FF' then some '\uE000' else charFromU32 (last.toNat + 1)
      some (some (chars.reverse ++ [next]))

/-- `note_key_prefix_successor`; the outer `none` is the failed `expect`. -/
def noteKeyPrefixSuccessor (keyPrefix : String) : Option (Option String) :=
  (successorOfReversed keyPrefix.toList.reverse).map fun chars ↦ chars.map String.ofList

example : noteKeyPrefixSuccessor "lane:\uD7FF" = some (some "lane:\uE000") := by decide

/-- The condition on the key column in `query_keyed_notes`. -/
def inKeyRange (keyPrefix : String) (successor : Option String) : Option String → Bool
  | none => false
  | some key => decide (keyPrefix ≤ key) && successor.all fun upper ↦ decide (key < upper)

/-! ## Characters -/

theorem lt_iff_toNat_lt {c d : Char} : c < d ↔ c.toNat < d.toNat := by
  rw [Char.lt_def, UInt32.lt_iff_toNat_lt]
  exact Iff.rfl

/-- A code point of a character is below the surrogates or above them. -/
theorem toNat_valid (c : Char) : c.toNat < 0xD800 ∨ 0xDFFF < c.toNat ∧ c.toNat < 0x110000 := c.valid

theorem le_charMax (c : Char) : c ≤ charMax := by
  rw [← not_lt, lt_iff_toNat_lt]
  have hmax : charMax.toNat = 0x10FFFF := by decide
  have hc := toNat_valid c
  omega

theorem covBy_surrogates : '\uD7FF' ⋖ '\uE000' := by
  refine ⟨by decide, fun c hlt hlt' ↦ ?_⟩
  rw [lt_iff_toNat_lt] at hlt hlt'
  have hlow : ('\uD7FF').toNat = 0xD7FF := by decide
  have hhigh : ('\uE000').toNat = 0xE000 := by decide
  have hc := toNat_valid c
  omega

/-- Every other character below the last has the next code point as its successor. -/
theorem charFromU32_succ {c : Char} (hmax : c ≠ charMax) (hgap : c ≠ '\uD7FF') :
    ∃ next, charFromU32 (c.toNat + 1) = some next ∧ c ⋖ next := by
  have hc := toNat_valid c
  have hne : c.toNat ≠ 0x10FFFF := fun h ↦ hmax (Char.toNat_inj.mp (h.trans (by decide)))
  have hne' : c.toNat ≠ 0xD7FF := fun h ↦ hgap (Char.toNat_inj.mp (h.trans (by decide)))
  have hvalid : (c.toNat + 1).isValidChar := by
    simp only [Nat.isValidChar]
    omega
  have hnext : (Char.ofNatAux _ hvalid).toNat = c.toNat + 1 := rfl
  refine ⟨Char.ofNatAux _ hvalid, dif_pos hvalid, ?_, fun d hlt hlt' ↦ ?_⟩
  · rw [lt_iff_toNat_lt, hnext]
    exact Nat.lt_succ_self _
  · rw [lt_iff_toNat_lt, hnext] at hlt'
    rw [lt_iff_toNat_lt] at hlt
    omega

/-! ## The successor -/

/-- The loop returns and what it returns ends the range of the characters left. -/
theorem successorOfReversed_endsRange (chars : List Char) :
    ∃ bound, successorOfReversed chars = some bound ∧ EndsRange chars.reverse bound := by
  induction chars with
  | nil => exact ⟨none, rfl, EndsRange.nil⟩
  | cons last chars ih =>
    rw [successorOfReversed, List.reverse_cons]
    by_cases hmax : last = charMax
    · -- nothing exceeds the last character, so it is popped and the loop goes on
      obtain ⟨bound, hbound, hends⟩ := ih
      subst hmax
      exact ⟨bound, by rw [if_pos rfl, hbound], hends.concat_top le_charMax⟩
    · rw [if_neg hmax]
      by_cases hgap : last = '\uD7FF'
      · subst hgap
        exact ⟨_, by rw [if_pos rfl]; rfl, EndsRange.concat_covBy covBy_surrogates⟩
      · obtain ⟨next, hnext, hcov⟩ := charFromU32_succ hmax hgap
        exact ⟨_, by rw [if_neg hgap, hnext]; rfl, EndsRange.concat_covBy hcov⟩

/-- The range of a prefix in the order of strings. -/
theorem exists_noteKeyPrefixSuccessor (keyPrefix : String) :
    ∃ successor, noteKeyPrefixSuccessor keyPrefix = some successor ∧
      ∀ s, (keyPrefix ≤ s ∧ ∀ upper ∈ successor, s < upper) ↔ keyPrefix.toList <+: s.toList := by
  obtain ⟨bound, hbound, hends⟩ := successorOfReversed_endsRange keyPrefix.toList.reverse
  rw [List.reverse_reverse] at hends
  refine ⟨bound.map String.ofList, by rw [noteKeyPrefixSuccessor, hbound]; rfl, fun s ↦ ?_⟩
  rw [← hends.mem_iff, ← not_lt, String.lt_iff_toList_lt]
  simp only [String.lt_iff_toList_lt, Option.forall_mem_map, String.toList_ofList]

/-- The scan from the prefix up to its successor finds what starts with the prefix, and without a
successor the scan from the prefix on does. -/
theorem noteKeyPrefixSuccessor_spec (keyPrefix : String) :
    ∃ successor, noteKeyPrefixSuccessor keyPrefix = some successor ∧
      (∀ u, successor = some u → ∀ s, (keyPrefix ≤ s ∧ s < u) ↔ keyPrefix.toList <+: s.toList) ∧
      (successor = none → ∀ s, keyPrefix ≤ s ↔ keyPrefix.toList <+: s.toList) := by
  obtain ⟨successor, hsuccessor, hrange⟩ := exists_noteKeyPrefixSuccessor keyPrefix
  refine ⟨successor, hsuccessor, ?_, ?_⟩
  · rintro u rfl s
    simpa using hrange s
  · rintro rfl s
    simpa using hrange s

/-- The scan finds the notes that have a key and whose key starts with the prefix. -/
theorem inKeyRange_iff {keyPrefix : String} {successor : Option String}
    (h : noteKeyPrefixSuccessor keyPrefix = some successor) (key : Option String) :
    inKeyRange keyPrefix successor key = true ↔
      ∃ k, key = some k ∧ keyPrefix.toList <+: k.toList := by
  obtain ⟨successor', hsuccessor, hrange⟩ := exists_noteKeyPrefixSuccessor keyPrefix
  obtain rfl : successor' = successor := Option.some.inj (hsuccessor.symm.trans h)
  cases key with
  | none => simp [inKeyRange]
  | some k =>
    rw [inKeyRange, Bool.and_eq_true, decide_eq_true_iff, Option.all_eq_true]
    simpa using hrange k

end Khive.Notes
