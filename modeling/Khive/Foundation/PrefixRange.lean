import Mathlib.Data.List.Lex
import Mathlib.Order.Cover

/-!
# The range of a prefix

In the lexicographic order the lists that start with a given one are a range of the order. It begins
at the prefix itself. It ends where the last element of the prefix is replaced by the next larger
one; a last element that nothing exceeds is dropped first, since it cuts nothing off.
-/

namespace Khive

variable {α : Type*} [LinearOrder α] {p s t : List α} {c c' : α}

theorem append_lt_append_iff : p ++ s < p ++ t ↔ s < t := by
  induction p with
  | nil => exact Iff.rfl
  | cons a p ih =>
    rw [List.cons_append, List.cons_append, List.cons_lt_cons_iff, ih]
    simp

theorem lt_append_of_lt (h : s < p) : s < p ++ t := by
  induction p generalizing s with
  | nil => exact absurd h (List.not_lt_nil s)
  | cons a p ih =>
    cases s with
    | nil => exact List.nil_lt_cons a _
    | cons b s =>
      rw [List.cons_append]
      rw [List.cons_lt_cons_iff] at h ⊢
      exact h.imp_right (And.imp_right ih)

/-- A list below an extension of `p` and not below `p` starts with `p`. -/
theorem isPrefix_of_lt (h : ¬s < p) (hlt : s < p ++ t) : p <+: s := by
  induction p generalizing s with
  | nil => exact List.nil_prefix
  | cons a p ih =>
    cases s with
    | nil => exact absurd (List.nil_lt_cons a p) h
    | cons b s =>
      rw [List.cons_lt_cons_iff, not_or, not_and] at h
      rw [List.cons_append, List.cons_lt_cons_iff] at hlt
      rcases hlt with hba | ⟨rfl, hst⟩
      · exact absurd hba h.1
      · exact List.cons_prefix_cons.mpr ⟨rfl, ih (h.2 rfl) hst⟩

theorem not_lt_of_isPrefix (h : p <+: s) : ¬s < p := by
  obtain ⟨t, rfl⟩ := h
  intro hlt
  have hnil : t < [] := append_lt_append_iff.mp (by rwa [List.append_nil])
  exact List.not_lt_nil t hnil

/-- Between `[c]` and what exceeds `c` only lists with the head `c` are left. -/
theorem cons_of_not_lt_singleton (h : ¬t < [c]) (hle : ∀ a ∈ t.head?, a ≤ c) : [c] <+: t := by
  cases t with
  | nil => exact absurd (List.nil_lt_cons c []) h
  | cons a t =>
    rw [List.cons_lt_cons_iff, not_or] at h
    obtain rfl : a = c := le_antisymm (hle a rfl) (not_lt.mp h.1)
    exact List.prefix_append [a] t

/-- Among the lists not below `p`, those below the bound are the ones that start with `p`; without
a bound all of them do. -/
def EndsRange (p : List α) (bound : Option (List α)) : Prop :=
  ∀ s, ¬s < p → ((∀ b ∈ bound, s < b) ↔ p <+: s)

namespace EndsRange

theorem nil : EndsRange ([] : List α) none := by
  intro s _
  simp

/-- A last element that nothing exceeds can be dropped. -/
theorem concat_top {bound : Option (List α)} (h : EndsRange p bound) (htop : ∀ a, a ≤ c) :
    EndsRange (p ++ [c]) bound := by
  intro s hs
  rw [h s (mt lt_append_of_lt hs)]
  constructor
  · rintro ⟨t, rfl⟩
    rw [append_lt_append_iff] at hs
    exact (List.prefix_append_right_inj p).mpr (cons_of_not_lt_singleton hs fun a _ ↦ htop a)
  · exact (List.prefix_append p [c]).trans

/-- Otherwise the next larger element in its place ends the range. -/
theorem concat_covBy (h : c ⋖ c') : EndsRange (p ++ [c]) (some (p ++ [c'])) := by
  intro s hs
  simp only [Option.mem_def, Option.some.injEq, forall_eq']
  constructor
  · intro hlt
    obtain ⟨t, rfl⟩ := isPrefix_of_lt (mt lt_append_of_lt hs) hlt
    rw [append_lt_append_iff] at hs hlt
    refine (List.prefix_append_right_inj p).mpr (cons_of_not_lt_singleton hs fun a ha ↦ ?_)
    cases t with
    | nil => cases ha
    | cons b t =>
      obtain rfl : b = a := Option.some.inj ha
      have hlt' : b < c' := by simpa [List.cons_lt_cons_iff] using hlt
      exact not_lt.mp fun hca ↦ h.2 hca hlt'
  · rintro ⟨t, rfl⟩
    rw [List.append_assoc, append_lt_append_iff]
    exact List.cons_lt_cons_iff.mpr (Or.inl h.lt)

/-- Both ends together: the range is what starts with `p`. -/
theorem mem_iff {bound : Option (List α)} (h : EndsRange p bound) :
    (¬s < p ∧ ∀ b ∈ bound, s < b) ↔ p <+: s := by
  constructor
  · rintro ⟨hs, hbound⟩
    exact (h s hs).mp hbound
  · intro hp
    exact ⟨not_lt_of_isPrefix hp, (h s (not_lt_of_isPrefix hp)).mpr hp⟩

end EndsRange

end Khive
