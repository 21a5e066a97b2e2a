import Khive.Foundation.SortedMap

/-!
# Numbered tables

A list numbers its elements by their positions, and a table leads back from an element to its
number. Where both agree the elements are distinct. Some of the numbers are kept and the others
dropped: what is kept moves together, and the new number of one that is kept is its rank among them.
-/

namespace Khive

/-! ## A list and its table -/

section Table

variable {κ : Type} [LinearOrder κ] {table : OrderedMap κ ℕ} {ks : List κ} {k : κ}

/-- The table gives each element of the list its position. -/
def Numbers (table : OrderedMap κ ℕ) (ks : List κ) : Prop :=
  ∀ k i, table.get k = some i ↔ ks[i]? = some k

theorem numbers_empty : Numbers (.empty : OrderedMap κ ℕ) [] := by
  intro k i
  rw [OrderedMap.get_empty, List.getElem?_nil]
  exact iff_of_false nofun nofun

namespace Numbers

theorem nodup (h : Numbers table ks) : ks.Nodup := by
  rw [List.nodup_iff_getElem?_ne_getElem?]
  intro i j hij hj heq
  have hget := List.getElem?_eq_getElem hj
  have hi := (h _ _).mpr (heq.trans hget)
  rw [(h _ _).mpr hget] at hi
  exact hij.ne' (Option.some.inj hi)

theorem get_ne_none (h : Numbers table ks) : table.get k ≠ none ↔ k ∈ ks := by
  rw [Option.ne_none_iff_exists', List.mem_iff_getElem?]
  exact exists_congr fun i ↦ h k i

theorem not_mem (h : Numbers table ks) (hnone : table.get k = none) : k ∉ ks := fun hmem ↦
  h.get_ne_none.mpr hmem hnone

/-- One more element gets the next number. -/
theorem push (h : Numbers table ks) (hnone : table.get k = none) :
    Numbers (table.insert k ks.length) (ks ++ [k]) := by
  intro k' i
  rw [OrderedMap.get_insert]
  split_ifs with heq
  · subst heq
    constructor
    · intro hi
      obtain rfl := Option.some.inj hi
      exact List.getElem?_concat_length
    · intro hi
      rw [List.getElem?_append] at hi
      split_ifs at hi with hlt
      · exact absurd (List.mem_of_getElem? hi) (h.not_mem hnone)
      · have hzero := (List.getElem?_eq_some_iff.mp hi).1
        rw [List.length_singleton] at hzero
        exact congrArg some (by omega)
  · rw [h, List.getElem?_append]
    split_ifs with hlt
    · rfl
    · refine iff_of_false (fun hi ↦ hlt (List.getElem?_eq_some_iff.mp hi).1) fun hi ↦ heq ?_
      exact (List.mem_singleton.mp (List.mem_of_getElem? hi))

end Numbers

/-- The table that is filled from a list of distinct elements. -/
theorem numbers_zipIdx (hnodup : ks.Nodup) :
    Numbers (ks.zipIdx.foldl (fun table e ↦ table.insert e.1 e.2) (.empty : OrderedMap κ ℕ)) ks := by
  induction ks using List.reverseRecOn with
  | nil => exact numbers_empty
  | append_singleton ks k ih =>
    obtain ⟨hks, -, hdisjoint⟩ := List.nodup_append.mp hnodup
    have hnumbers := ih hks
    have hnew : k ∉ ks := fun hmem ↦ hdisjoint k hmem k (List.mem_singleton_self k) rfl
    have hpush := hnumbers.push (not_ne_iff.mp fun hne ↦ hnew (hnumbers.get_ne_none.mp hne))
    rw [List.zipIdx_append, List.foldl_append, Nat.zero_add]
    exact hpush

end Table

/-! ## Ranks -/

section Rank

variable (keep : ℕ → Bool) {n k i : ℕ}

/-- The numbers below `n` that are kept. -/
def kept (n : ℕ) : List ℕ := (List.range n).filter keep

/-- How many numbers before this one are kept. -/
def rank (k : ℕ) : ℕ := (kept keep k).length

variable {keep}

theorem mem_kept : k ∈ kept keep n ↔ k < n ∧ keep k = true := by
  rw [kept, List.mem_filter, List.mem_range]

theorem nodup_kept : (kept keep n).Nodup := List.nodup_range.filter _

theorem kept_succ : kept keep (n + 1) = kept keep n ++ if keep n then [n] else [] := by
  rw [kept, List.range_succ, List.filter_append, ← kept]
  split_ifs with h
  · rw [List.filter_cons_of_pos h, List.filter_nil]
  · rw [List.filter_cons_of_neg h, List.filter_nil]

/-- What is kept stands at its rank. -/
theorem getElem?_rank (hk : k < n) (hkeep : keep k = true) :
    (kept keep n)[rank keep k]? = some k := by
  induction n with
  | zero => exact absurd hk (Nat.not_lt_zero k)
  | succ n ih =>
    rw [kept_succ]
    rcases Nat.lt_succ_iff_lt_or_eq.mp hk with hlt | rfl
    · have hbefore := ih hlt
      have hbound := (List.getElem?_eq_some_iff.mp hbefore).1
      rw [List.getElem?_append_left hbound, hbefore]
    · rw [if_pos hkeep]
      exact List.getElem?_concat_length

theorem rank_lt (hk : k < n) (hkeep : keep k = true) : rank keep k < (kept keep n).length :=
  (List.getElem?_eq_some_iff.mp (getElem?_rank hk hkeep)).1

/-- The number at a position is kept, and has this rank. -/
theorem eq_rank_of_getElem? (h : (kept keep n)[i]? = some k) :
    k < n ∧ keep k = true ∧ i = rank keep k := by
  obtain ⟨hlt, hkeep⟩ := mem_kept.mp (List.mem_of_getElem? h)
  refine ⟨hlt, hkeep, ?_⟩
  have hbound := (List.getElem?_eq_some_iff.mp h).1
  exact (List.getElem?_inj hbound nodup_kept).mp (h.trans (getElem?_rank hlt hkeep).symm)

end Rank

end Khive
