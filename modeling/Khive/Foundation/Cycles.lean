import Mathlib

/-!
# Reachable cycles

A cycle is reachable from a point when some point that is reached leads back to itself. A point
whose steps all lead to points without reachable cycles has none either, which is accessibility of
the reversed relation, and a walk that comes back to a point it has passed shows one.
-/

namespace Khive

open Relation

variable {α : Type*} {R S : α → α → Prop} {u v c : α}

/-- A cycle is reachable. -/
def ReachesCycle (R : α → α → Prop) (u : α) : Prop := ∃ v, ReflTransGen R u v ∧ TransGen R v v

/-- No walk from the point goes on for ever. -/
def Settled (R : α → α → Prop) : α → Prop := Acc fun a b ↦ R b a

theorem Settled.intro (h : ∀ v, R u v → Settled R v) : Settled R u := Acc.intro u h

theorem Settled.not_transGen (h : Settled R u) : ¬TransGen R u u := by
  induction h with
  | intro u _ ih =>
    intro hcycle
    -- the cycle can be entered one step later
    obtain ⟨v, hv, hback⟩ := (TransGen.head'_iff).mp hcycle
    exact ih v hv (TransGen.tail' hback hv)

theorem Settled.of_reflTransGen (h : Settled R u) (hreach : ReflTransGen R u v) : Settled R v := by
  induction hreach with
  | refl => exact h
  | tail _ hstep ih => exact ih.inv hstep

theorem Settled.not_reachesCycle (h : Settled R u) : ¬ReachesCycle R u :=
  fun ⟨_, hreach, hcycle⟩ ↦ (h.of_reflTransGen hreach).not_transGen hcycle

/-- A walk leads from its first point to its last. -/
theorem transGen_of_isChain {between : List α} (h : (u :: between ++ [v]).IsChain R) :
    TransGen R u v := by
  induction between generalizing u with
  | nil => exact TransGen.single (List.isChain_cons_cons.mp h).1
  | cons w between ih =>
    obtain ⟨hstep, hrest⟩ := List.isChain_cons_cons.mp h
    exact TransGen.head hstep (ih hrest)

/-- A walk that comes back to a point it has passed shows a cycle. -/
theorem reachesCycle_of_isChain {passed : List α} (h : (passed ++ [v]).IsChain R)
    (hhead : passed.head? = some u) (hmem : v ∈ passed) : ReachesCycle R u := by
  obtain ⟨before, between, rfl⟩ := List.append_of_mem hmem
  rw [List.append_assoc] at h
  have hcycle := transGen_of_isChain (List.isChain_append.mp h).2.1
  refine ⟨v, ?_, hcycle⟩
  rcases before with - | ⟨w, before⟩
  · obtain rfl := Option.some.inj hhead
    exact ReflTransGen.refl
  · obtain rfl := Option.some.inj hhead
    have hsplit : w :: before ++ (v :: between ++ [v]) =
        (w :: before ++ [v]) ++ (between ++ [v]) := by simp
    rw [hsplit] at h
    exact (transGen_of_isChain h.left_of_append).to_reflTransGen

/-- Changing the steps of one point adds no cycle but through it. -/
theorem not_transGen_of_agree (hagree : ∀ a b, a ≠ c → S a b → R a b)
    (hacyclic : ∀ u, ¬TransGen R u u) (hc : ¬TransGen S c c) : ∀ u, ¬TransGen S u u := by
  -- a walk either avoids the point or passes it
  have hsplit : ∀ {u v}, TransGen S u v →
      TransGen R u v ∨ ReflTransGen S u c ∧ TransGen S c v := by
    intro u v h
    induction h with
    | single hstep =>
      by_cases hu : u = c
      · subst hu
        exact Or.inr ⟨ReflTransGen.refl, TransGen.single hstep⟩
      · exact Or.inl (TransGen.single (hagree _ _ hu hstep))
    | @tail a b hwalk hstep ih =>
      by_cases ha : a = c
      · subst ha
        exact Or.inr ⟨hwalk.to_reflTransGen, TransGen.single hstep⟩
      · rcases ih with hR | ⟨hto, hfrom⟩
        · exact Or.inl (hR.tail (hagree _ _ ha hstep))
        · exact Or.inr ⟨hto, hfrom.tail hstep⟩
  intro u hcycle
  rcases hsplit hcycle with hR | ⟨hto, hfrom⟩
  · exact hacyclic u hR
  · exact hc (hfrom.trans_left hto)

/-- A walk to the point whose steps have changed can stop where it first comes to it. -/
theorem reflTransGen_of_agree (hagree : ∀ a b, a ≠ c → S a b → R a b)
    (h : ReflTransGen S v c) : ReflTransGen R v c := by
  induction h using ReflTransGen.head_induction_on with
  | refl => exact ReflTransGen.refl
  | @head a b hstep _ ih =>
    by_cases ha : a = c
    · exact ha ▸ ReflTransGen.refl
    · exact ReflTransGen.head (hagree a b ha hstep) ih

end Khive
