import Mathlib

/-!
# The best of what was offered

The best so many of a list are the start of its sorted form. They can be kept up to date while the
list grows: only the best so far matter, and a new one goes where it belongs among them.
-/

namespace Khive

namespace Beam

section Best

variable {α : Type} [LinearOrder α] {s : List α} {x : α} {capacity : ℕ}

/-- The best `capacity` of a list. -/
def best (capacity : ℕ) (s : List α) : List α := (s.insertionSort (· ≤ ·)).take capacity

/-- What is cut off before an insertion would be cut off after it. -/
theorem take_orderedInsert_take (x : α) (s : List α) (n : ℕ) :
    ((s.take n).orderedInsert (· ≤ ·) x).take n = (s.orderedInsert (· ≤ ·) x).take n := by
  induction s generalizing n with
  | nil => rw [List.take_nil]
  | cons b s ih =>
    rcases n with - | n
    · rw [List.take_zero, List.take_zero]
    · rw [List.take_succ_cons, List.orderedInsert_cons, List.orderedInsert_cons]
      split_ifs with hle
      · rw [List.take_succ_cons, List.take_succ_cons]
        refine congrArg (x :: ·) ?_
        rcases n with - | n
        · rfl
        · rw [List.take_succ_cons, List.take_succ_cons, List.take_take,
            Nat.min_eq_left (Nat.le_succ n)]
      · rw [List.take_succ_cons, List.take_succ_cons, ih]

theorem insertionSort_concat (s : List α) (x : α) : (s ++ [x]).insertionSort (· ≤ ·) =
    (s.insertionSort (· ≤ ·)).orderedInsert (· ≤ ·) x := by
  refine List.Perm.eq_of_pairwise (fun a b _ _ hab hba ↦ le_antisymm hab hba)
    (List.pairwise_insertionSort _ _)
    ((List.pairwise_insertionSort (· ≤ ·) s).orderedInsert x _) ?_
  refine (List.perm_insertionSort _ _).trans ((List.perm_append_singleton x s).trans ?_)
  exact ((List.perm_insertionSort (· ≤ ·) s).symm.cons x).trans
    (List.perm_orderedInsert (· ≤ ·) x _).symm

/-- The best of a longer list come from the best of the list. -/
theorem best_concat : best capacity (s ++ [x]) =
    ((best capacity s).orderedInsert (· ≤ ·) x).take capacity := by
  rw [best, insertionSort_concat, best, take_orderedInsert_take]

end Best

section Place

variable {α : Type} {A B : List α} {x : α}

/-- What is before all others goes to the front. -/
theorem orderedInsert_eq_cons {r : α → α → Prop} [DecidableRel r] (h : ∀ b ∈ A, r x b) :
    A.orderedInsert r x = x :: A := by
  rcases A with - | ⟨b, A⟩
  · rfl
  · rw [List.orderedInsert_cons, if_pos (h b List.mem_cons_self)]

/-- Inserting behind a front. -/
theorem insertIdx_append_length (A B : List α) (x : α) :
    (A ++ B).insertIdx A.length x = A ++ x :: B := by
  induction A with
  | nil => rfl
  | cons a A ih => rw [List.cons_append, List.length_cons, List.insertIdx_succ_cons, ih]; rfl

end Place

end Beam

end Khive
