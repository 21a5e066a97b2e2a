import Mathlib

/-!
# Runs of related neighbours

A list is cut into the longest runs in which every two neighbours are related. An element at the end
joins the last run or opens one, and two neighbours of a list without repetitions stand in one run
exactly when they are related.
-/

namespace Khive

open List

variable {α : Type} {r : α → α → Bool} {l : List α} {a b : α}

/-- An element that the last element is not related to opens a run. -/
theorem splitBy_concat_of_false (h : ∀ x ∈ l.getLast?, r x a = false) :
    (l ++ [a]).splitBy r = l.splitBy r ++ [[a]] :=
  splitBy_append_cons [] h

/-- An element that the last element is related to joins the last run. -/
theorem splitBy_concat_of_true {runs : List (List α)} {run : List α}
    (hruns : l.splitBy r = runs ++ [run]) (h : ∀ x ∈ run.getLast?, r x a = true) :
    (l ++ [a]).splitBy r = runs ++ [run ++ [a]] := by
  obtain ⟨rfl, hnil, hchain, hjoints⟩ := splitBy_eq_iff.mp hruns
  rw [isChain_append] at hjoints
  have hrun : run ≠ [] := fun hrun ↦ hnil (hrun ▸ mem_append_right _ mem_cons_self)
  refine splitBy_eq_iff.mpr ⟨by simp, ?_, ?_, ?_⟩
  · rw [mem_append, mem_singleton, not_or]
    exact ⟨fun hmem ↦ hnil (mem_append_left _ hmem), by simp⟩
  · intro part hpart
    rcases mem_append.mp hpart with hpart | hpart
    · exact hchain part (mem_append_left _ hpart)
    · rw [mem_singleton.mp hpart, isChain_append]
      refine ⟨hchain run (mem_append_right _ mem_cons_self), isChain_singleton _, ?_⟩
      intro x hx y hy
      rw [head?_cons, Option.mem_some_iff] at hy
      exact hy ▸ h x hx
  · rw [isChain_append]
    refine ⟨hjoints.1, isChain_singleton _, ?_⟩
    intro before hbefore part hpart
    rw [head?_cons, Option.mem_some_iff] at hpart
    obtain ⟨hne, _, hjoint⟩ := hjoints.2.2 before hbefore run rfl
    subst hpart
    refine ⟨hne, by simp, ?_⟩
    rwa [head_append_of_ne_nil hrun]

/-- Two related neighbours stand in one run. -/
theorem exists_run_of_related {runs : List (List α)} {before after : List α}
    (hnil : [] ∉ runs)
    (hjoints : runs.IsChain fun p q ↦ ∃ hp hq, r (p.getLast hp) (q.head hq) = false)
    (hflat : runs.flatten = before ++ a :: b :: after) (h : r a b = true) :
    ∃ run ∈ runs, a ∈ run ∧ b ∈ run := by
  induction runs generalizing before with
  | nil => simp at hflat
  | cons run runs ih =>
    rw [mem_cons, not_or] at hnil
    rw [flatten_cons] at hflat
    rw [isChain_cons] at hjoints
    rcases append_eq_append_iff.mp hflat with ⟨rest, hbefore, hrest⟩ | ⟨rest, hrun, hrest⟩
    · -- the run ends before the two
      obtain ⟨part, hpart, hmem⟩ := ih hnil.2 hjoints.2 hrest
      exact ⟨part, mem_cons_of_mem _ hpart, hmem⟩
    · rcases rest with - | ⟨c, - | ⟨d, rest⟩⟩
      · have hflat' : runs.flatten = [] ++ a :: b :: after := hrest.symm
        obtain ⟨part, hpart, hmem⟩ := ih hnil.2 hjoints.2 hflat'
        exact ⟨part, mem_cons_of_mem _ hpart, hmem⟩
      · -- the run ends between the two, which are then not related
        rw [singleton_append, cons.injEq] at hrest
        obtain ⟨rfl, hrest⟩ := hrest
        rcases runs with - | ⟨next, runs⟩
        · simp at hrest
        · obtain ⟨hlast, hhead, hjoint⟩ := hjoints.1 next rfl
          have hb : next.head hhead = b := by
            have hfirst := congrArg head? hrest
            rw [flatten_cons, head?_append_of_ne_nil _ hhead, head?_eq_some_head hhead,
              head?_cons] at hfirst
            exact (Option.some.inj hfirst).symm
          subst hrun
          rw [getLast_append_singleton, hb, h] at hjoint
          exact absurd hjoint.symm Bool.false_ne_true
      · simp only [cons_append, cons.injEq] at hrest
        obtain ⟨rfl, rfl, -⟩ := hrest
        exact ⟨run, mem_cons_self, by simp [hrun], by simp [hrun]⟩

/-- **Runs**: of a list without repetitions, two neighbours stand in one run exactly when they are
related. -/
theorem exists_run_iff {before after : List α} (hnodup : l.Nodup)
    (hl : l = before ++ a :: b :: after) :
    (∃ run ∈ l.splitBy r, a ∈ run ∧ b ∈ run) ↔ r a b = true := by
  constructor
  · rintro ⟨run, hrun, ha, hb⟩
    by_contra hfalse
    rw [Bool.not_eq_true] at hfalse
    have hsplit : l = (before ++ [a]) ++ b :: after := by rw [hl, append_assoc]; rfl
    have hdisjoint := (nodup_append.mp (hsplit ▸ hnodup)).2.2
    rw [hsplit, splitBy_append_cons after (by simpa using hfalse), mem_append] at hrun
    rcases hrun with hrun | hrun
    · have hmem := mem_flatten_of_mem hrun hb
      rw [flatten_splitBy] at hmem
      exact hdisjoint b hmem b mem_cons_self rfl
    · have hmem := mem_flatten_of_mem hrun ha
      rw [flatten_splitBy] at hmem
      exact hdisjoint a (by simp) a hmem rfl
  · intro h
    exact exists_run_of_related (nil_notMem_splitBy r l) (isChain_getLast_head_splitBy r l)
      ((flatten_splitBy r l).trans hl) h

end Khive
