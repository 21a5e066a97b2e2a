import Mathlib.Data.List.Sort
import Mathlib.Data.List.Basic

/-!
# Stable sorting by a key

A stable sort keeps the elements of one key in the order they had. Sorted lists that agree on the
elements of every key are equal, so sorting commutes with dropping elements.
-/

namespace Khive

section Key

variable {α κ : Type*} [LinearOrder κ] (key : α → κ) {l s t : List α}

/-- The stable sort by a key. -/
def sortOn (l : List α) : List α := l.mergeSort fun a b ↦ decide (key a ≤ key b)

/-- Sorted by a key, elements of one key in any order. -/
def SortedOn (l : List α) : Prop := l.Pairwise fun a b ↦ key a ≤ key b

instance : Decidable (SortedOn key l) := inferInstanceAs (Decidable (l.Pairwise _))

theorem sortOn_perm (l : List α) : (sortOn key l).Perm l := List.mergeSort_perm _ _

theorem sortOn_sorted (l : List α) : SortedOn key (sortOn key l) := by
  refine (List.pairwise_mergeSort ?_ ?_ l).imp fun h ↦ of_decide_eq_true h
  · intro a b c hab hbc
    exact decide_eq_true ((of_decide_eq_true hab).trans (of_decide_eq_true hbc))
  · intro a b
    simpa using le_total (key a) (key b)

theorem sublist_sortOn (hs : SortedOn key s) (h : s.Sublist l) : s.Sublist (sortOn key l) := by
  refine List.sublist_mergeSort ?_ ?_ (hs.imp fun h ↦ decide_eq_true h) h
  · intro a b c hab hbc
    exact decide_eq_true ((of_decide_eq_true hab).trans (of_decide_eq_true hbc))
  · intro a b
    simpa using le_total (key a) (key b)

/-- The elements of one key keep their order. -/
theorem filter_sortOn (k : κ) (l : List α) :
    (sortOn key l).filter (fun a ↦ decide (key a = k)) = l.filter (fun a ↦ decide (key a = k)) := by
  have hsorted : SortedOn key (l.filter fun a ↦ decide (key a = k)) := by
    refine List.pairwise_of_forall_mem_list fun a ha b hb ↦ le_of_eq ?_
    rw [List.mem_filter, decide_eq_true_iff] at ha hb
    exact ha.2.trans hb.2.symm
  have hsub := (sublist_sortOn key hsorted List.filter_sublist).filter fun a ↦ decide (key a = k)
  simp only [List.filter_filter, Bool.and_self] at hsub
  exact (hsub.eq_of_length ((sortOn_perm key l).filter _).length_eq.symm).symm

variable {key}

/-- Two sorted lists are equal when they have the same elements of every key in the same order. -/
theorem SortedOn.ext (hs : SortedOn key s) (ht : SortedOn key t)
    (h : ∀ k, s.filter (fun a ↦ decide (key a = k)) = t.filter (fun a ↦ decide (key a = k))) :
    s = t := by
  have hmem : ∀ a, a ∈ s ↔ a ∈ t := by
    intro a
    have ha := congrArg (a ∈ ·) (h (key a))
    simpa using ha
  induction s generalizing t with
  | nil =>
    have hnil : ∀ a, a ∉ t := fun a ha ↦ List.not_mem_nil ((hmem a).mpr ha)
    exact (List.eq_nil_iff_forall_not_mem.mpr hnil).symm
  | cons a s ih =>
    cases t with
    | nil => exact absurd ((hmem a).mp List.mem_cons_self) List.not_mem_nil
    | cons b t =>
      -- both heads have the least key, and the first element of that key is the same
      have hab : key a ≤ key b := by
        rcases List.mem_cons.mp ((hmem b).mpr List.mem_cons_self) with rfl | hb
        · exact le_rfl
        · exact List.rel_of_pairwise_cons hs hb
      have hba : key b ≤ key a := by
        rcases List.mem_cons.mp ((hmem a).mp List.mem_cons_self) with rfl | ha
        · exact le_rfl
        · exact List.rel_of_pairwise_cons ht ha
      have hkey := le_antisymm hab hba
      have hhead := h (key a)
      rw [List.filter_cons_of_pos (by simp), List.filter_cons_of_pos (by simp [hkey])] at hhead
      obtain rfl : a = b := (List.cons.inj hhead).1
      have htail : ∀ k, s.filter (fun a ↦ decide (key a = k)) =
          t.filter (fun a ↦ decide (key a = k)) := by
        intro k
        have hk := h k
        rw [List.filter_cons, List.filter_cons] at hk
        split_ifs at hk with heq
        · exact (List.cons.inj hk).2
        · exact hk
      rw [ih (List.Pairwise.of_cons hs) (List.Pairwise.of_cons ht) htail]
      intro c
      have hc := congrArg (c ∈ ·) (htail (key c))
      simpa using hc

/-- Dropping elements before the sort is dropping them after it. -/
theorem sortOn_filter (p : α → Bool) (l : List α) :
    sortOn key (l.filter p) = (sortOn key l).filter p := by
  refine (sortOn_sorted key _).ext ((sortOn_sorted key l).filter p) fun k ↦ ?_
  rw [filter_sortOn, List.filter_comm, List.filter_comm _ p, filter_sortOn]

end Key

section Positions

variable {α : Type*} {s t l : List α} {a : α} {p : α → Bool} {n : ℕ}

/-- Dropping elements behind the first `n` does not move these. -/
theorem take_filter_of_forall (h : ∀ a ∈ l.take n, p a = true) :
    (l.filter p).take n = l.take n := by
  induction n generalizing l with
  | zero => rfl
  | succ n ih =>
    cases l with
    | nil => rfl
    | cons a l =>
      rw [List.take_succ_cons] at h ⊢
      rw [List.filter_cons_of_pos (h a List.mem_cons_self), List.take_succ_cons,
        ih fun b hb ↦ h b (List.mem_cons_of_mem a hb)]

/-- A part of a list without repetition is what its elements pick out. -/
theorem filter_mem_of_sublist [DecidableEq α] (h : s.Sublist t) (ht : t.Nodup) :
    t.filter (fun a ↦ decide (a ∈ s)) = s := by
  have hsub : (s.filter fun a ↦ decide (a ∈ s)) = s := List.filter_eq_self.mpr fun a ha ↦ by simpa
  refine ((hsub ▸ h.filter fun a ↦ decide (a ∈ s)).eq_of_length_le ?_).symm
  refine (List.subperm_of_subset (ht.filter _) fun a ha ↦ ?_).length_le
  simpa using (List.mem_filter.mp ha).2

/-- In a part of the list an element does not stand later. -/
theorem idxOf_le_of_sublist [DecidableEq α] (h : s.Sublist t) (ht : t.Nodup) (ha : a ∈ s) :
    s.idxOf a ≤ t.idxOf a := by
  induction h with
  | slnil => exact le_rfl
  | @cons s t b h ih =>
    have hne : b ≠ a := fun heq ↦ (List.nodup_cons.mp ht).1 (heq ▸ h.subset ha)
    rw [List.idxOf_cons_ne _ hne]
    exact (ih (List.nodup_cons.mp ht).2 ha).trans (Nat.le_succ _)
  | @cons_cons s t b h ih =>
    by_cases hne : b = a
    · simp [hne]
    · rw [List.idxOf_cons_ne _ hne, List.idxOf_cons_ne _ hne]
      have ha' : a ∈ s := (List.mem_cons.mp ha).resolve_left fun heq ↦ hne heq.symm
      exact Nat.succ_le_succ (ih (List.nodup_cons.mp ht).2 ha')

theorem le_idxOf_of_mem_drop [DecidableEq α] (hl : l.Nodup) (h : a ∈ l.drop n) : n ≤ l.idxOf a := by
  by_contra hlt
  have hmem := (List.mem_take_iff_idxOf_lt (List.mem_of_mem_drop h)).mpr (not_le.mp hlt)
  exact List.disjoint_take_drop hl le_rfl hmem h

end Positions

end Khive
