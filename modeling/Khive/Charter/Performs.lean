import Khive.Charter.Store
import Khive.Foundation.Cycles

/-!
# Perform cycles

A charter performs others, each at its latest stored version. Before a definition is published the
engine looks for a cycle that it would close, by a search along the performs from the candidate
that keeps a path for every charter it has still to look at. What was visited and is not on the
path has been searched through, so the search ends without a path only where no cycle is reachable.
A publication changes the performs of its own charter alone, or of none when a later version is
stored, so the performs of the latest versions never form a cycle.
-/

namespace Khive

namespace Charter

open Relation

/-- The charters that a definition performs, phase by phase. -/
def Definition.performs (definition : Definition) : List String :=
  definition.phases.flatMap PhaseDef.performs

namespace World

variable (world : World) (domain : String)

/-! ## The search -/

/-- Push the performs of a charter, each with the path to it. The top is the head. -/
def pushPerforms (path : List String) (performs : List String)
    (stack : List (String × List String)) : List (String × List String) :=
  performs.foldl (fun stack child ↦ (child, path ++ [child]) :: stack) stack

/-- The charters with a definition that are still to be visited. -/
def unvisited (visited : Finset String) : Finset String :=
  (world.definitions.map fun row ↦ row.definition.id).toFinset \ visited

theorem mem_definitions_of_foldl {rows : List DefinitionRow} {held : Option DefinitionRow}
    {row : DefinitionRow} (h : rows.foldl later held = some row) :
    row ∈ rows ∨ held = some row := by
  induction rows generalizing held with
  | nil => exact Or.inr h
  | cons next rows ih =>
    rcases ih h with hmem | hheld
    · exact Or.inl (List.mem_cons_of_mem next hmem)
    · rcases held with - | old
      · obtain rfl := Option.some.inj hheld
        exact Or.inl List.mem_cons_self
      · rw [later] at hheld
        split_ifs at hheld
        · obtain rfl := Option.some.inj hheld
          exact Or.inl List.mem_cons_self
        · exact Or.inr hheld

theorem of_latestDefinition {world : World} {domain charterId : String} {row : DefinitionRow}
    (h : world.latestDefinition domain charterId = some row) :
    row ∈ world.definitions ∧ row.policyDomain = domain ∧ row.definition.id = charterId := by
  have hmem := (mem_definitions_of_foldl h).resolve_right (by simp)
  simpa using hmem

theorem unvisited_insert_subset (visited : Finset String) (charterId : String) :
    world.unvisited (insert charterId visited) ⊆ world.unvisited visited :=
  Finset.sdiff_subset_sdiff subset_rfl (Finset.subset_insert _ _)

/-- Visiting a charter with a definition leaves fewer. -/
theorem card_unvisited_insert {visited : Finset String} {charterId : String}
    (hnew : charterId ∉ visited) {row : DefinitionRow}
    (hrow : world.latestDefinition domain charterId = some row) :
    (world.unvisited (insert charterId visited)).card < (world.unvisited visited).card := by
  obtain ⟨hmem, -, rfl⟩ := of_latestDefinition hrow
  refine Finset.card_lt_card ((Finset.ssubset_iff_of_subset
    (world.unvisited_insert_subset _ _)).mpr ⟨row.definition.id, ?_, ?_⟩)
  · exact Finset.mem_sdiff.mpr ⟨List.mem_toFinset.mpr (List.mem_map_of_mem hmem), hnew⟩
  · exact fun h ↦ (Finset.mem_sdiff.mp h).2 (Finset.mem_insert_self _ _)

/-- The loop of `perform_cycle`. A charter is expanded once, so the stack runs empty. -/
def performCycleFrom (visited : Finset String) :
    List (String × List String) → Option (List String)
  | [] => none
  | (charterId, path) :: stack =>
    if charterId ∈ path.take (path.length - 1) then some path
    else if _ : charterId ∈ visited then performCycleFrom visited stack
    else
      match _ : world.latestDefinition domain charterId with
      | none => performCycleFrom (insert charterId visited) stack
      | some row =>
        performCycleFrom (insert charterId visited)
          (pushPerforms path row.definition.performs stack)
  termination_by stack => ((world.unvisited visited).card, stack.length)
  decreasing_by
  · exact Prod.Lex.right _ (Nat.lt_succ_self _)
  · rcases (Finset.card_le_card (world.unvisited_insert_subset visited charterId)).lt_or_eq with
      hlt | heq
    · exact Prod.Lex.left _ _ hlt
    · rw [heq]
      exact Prod.Lex.right _ (Nat.lt_succ_self _)
  · exact Prod.Lex.left _ _ (world.card_unvisited_insert domain ‹charterId ∉ visited› ‹_›)

/-- `Engine::perform_cycle`. -/
def performCycle (candidate : Definition) : Option (List String) :=
  world.performCycleFrom domain ∅ (pushPerforms [candidate.id] candidate.performs [])

/-! ## The graphs -/

/-- The performs of the latest stored versions. -/
def Performs (u v : String) : Prop :=
  ∃ row, world.latestDefinition domain u = some row ∧ v ∈ row.definition.performs

/-- The performs with the candidate in place of the stored versions of its charter. -/
def Effective (candidate : Definition) (u v : String) : Prop :=
  if u = candidate.id then v ∈ candidate.performs else world.Performs domain u v

/-! ## The search is exact -/

section Search

variable {world : World} {domain : String} {candidate : Definition} {visited : Finset String}
  {path performs : List String} {stack rest : List (String × List String)}

/-- The entries of some charters after a path. -/
def entries (path performs : List String) : List (String × List String) :=
  performs.map fun child ↦ (child, path ++ [child])

theorem pushPerforms_eq (path performs : List String) (stack : List (String × List String)) :
    pushPerforms path performs stack = entries path performs.reverse ++ stack := by
  induction performs generalizing stack with
  | nil => rfl
  | cons child performs ih =>
    rw [pushPerforms, List.foldl_cons]
    refine (ih _).trans ?_
    rw [entries, entries, List.reverse_cons, List.map_append, List.append_assoc]
    rfl

theorem take_append_singleton (path : List String) (child : String) :
    (path ++ [child]).take ((path ++ [child]).length - 1) = path := by
  rw [List.length_append, List.length_singleton, Nat.add_sub_cancel, List.take_left]

/-- A new charter without a definition. -/
theorem performCycleFrom_of_none {charterId : String}
    (hpassed : charterId ∉ path.take (path.length - 1)) (hseen : charterId ∉ visited)
    (hrow : world.latestDefinition domain charterId = none) :
    world.performCycleFrom domain visited ((charterId, path) :: stack) =
      world.performCycleFrom domain (insert charterId visited) stack := by
  rw [performCycleFrom, if_neg hpassed, dif_neg hseen]
  split
  next => rfl
  next row hrow' =>
    rw [hrow] at hrow'
    cases hrow'

/-- A new charter with a definition. -/
theorem performCycleFrom_of_some {charterId : String} {row : DefinitionRow}
    (hpassed : charterId ∉ path.take (path.length - 1)) (hseen : charterId ∉ visited)
    (hrow : world.latestDefinition domain charterId = some row) :
    world.performCycleFrom domain visited ((charterId, path) :: stack) =
      world.performCycleFrom domain (insert charterId visited)
        (pushPerforms path row.definition.performs stack) := by
  rw [performCycleFrom, if_neg hpassed, dif_neg hseen]
  split
  next hrow' =>
    rw [hrow] at hrow'
    cases hrow'
  next row' hrow' =>
    obtain rfl := Option.some.inj (hrow.symm.trans hrow')
    rfl

/-- The performs of another charter are those of its latest version. -/
theorem effective_of_latest {u : String} (hne : u ≠ candidate.id) {row : DefinitionRow}
    (hrow : world.latestDefinition domain u = some row) {v : String} :
    world.Effective domain candidate u v ↔ v ∈ row.definition.performs := by
  rw [Effective, if_neg hne, Performs, hrow]
  simp

/-- A search without a path from the charters after a path: none of them reaches a cycle, and it
went on with what was under them. The induction is on the charters not yet visited, and within it on
the ones to be looked at. -/
theorem settled_of_performCycleFrom_eq_none (n : ℕ)
    (hcard : (world.unvisited visited).card ≤ n) (hid : candidate.id ∈ path)
    (hvisited : ∀ v ∈ visited, v ∈ path ∨ Settled (world.Effective domain candidate) v)
    (hnone : world.performCycleFrom domain visited (entries path performs ++ rest) = none) :
    ∃ visited', (world.unvisited visited').card ≤ n ∧
      (∀ v ∈ visited', v ∈ path ∨ Settled (world.Effective domain candidate) v) ∧
      (∀ v ∈ performs, Settled (world.Effective domain candidate) v) ∧
      world.performCycleFrom domain visited' rest = none := by
  induction n using Nat.strong_induction_on generalizing path performs rest visited with
  | h n ihn =>
    induction performs generalizing visited with
    | nil => exact ⟨visited, hcard, hvisited, by simp, hnone⟩
    | cons child performs ih =>
      rw [entries, List.map_cons, List.cons_append] at hnone
      by_cases hpassed : child ∈ path
      · -- a charter on its own path would have been returned
        rw [performCycleFrom, take_append_singleton, if_pos hpassed] at hnone
        cases hnone
      have hnot : child ∉ (path ++ [child]).take ((path ++ [child]).length - 1) := by
        rwa [take_append_singleton]
      by_cases hseen : child ∈ visited
      · -- visited and not on the path: it is settled already
        rw [performCycleFrom, if_neg hnot, dif_pos hseen] at hnone
        obtain ⟨visited', hcard', hvisited', hperforms, hrest⟩ := ih hcard hvisited hnone
        refine ⟨visited', hcard', hvisited', ?_, hrest⟩
        exact List.forall_mem_cons.mpr ⟨(hvisited child hseen).resolve_left hpassed, hperforms⟩
      have hne : child ≠ candidate.id := fun h ↦ hpassed (h ▸ hid)
      have hle := Finset.card_le_card (world.unvisited_insert_subset visited child)
      rcases hrow : world.latestDefinition domain child with - | row
      · -- a charter without a definition performs nothing
        have hchild : Settled (world.Effective domain candidate) child := by
          refine Settled.intro fun v hv ↦ ?_
          rw [Effective, if_neg hne, Performs, hrow] at hv
          obtain ⟨_, hrow', -⟩ := hv
          cases hrow'
        rw [performCycleFrom_of_none hnot hseen hrow] at hnone
        obtain ⟨visited', hcard', hvisited', hperforms, hrest⟩ :=
          ih (hle.trans hcard) ((Finset.forall_mem_insert _ _ _).mpr ⟨Or.inr hchild, hvisited⟩)
            hnone
        exact ⟨visited', hcard', hvisited', List.forall_mem_cons.mpr ⟨hchild, hperforms⟩, hrest⟩
      · -- its performs are searched first, with it on the path
        rw [performCycleFrom_of_some hnot hseen hrow, pushPerforms_eq] at hnone
        have hlt := world.card_unvisited_insert domain hseen hrow
        have hbelow : ∀ v ∈ insert child visited,
            v ∈ path ++ [child] ∨ Settled (world.Effective domain candidate) v := by
          refine Finset.forall_mem_insert _ _ _ |>.mpr ⟨Or.inl (by simp), fun v hv ↦ ?_⟩
          exact (hvisited v hv).imp_left (List.mem_append_left [child])
        obtain ⟨visited', hcard', hvisited', hperforms, hgo⟩ :=
          ihn _ (hlt.trans_le hcard) le_rfl (List.mem_append_left [child] hid) hbelow hnone
        have hchild : Settled (world.Effective domain candidate) child :=
          Settled.intro fun v hv ↦
            hperforms v (List.mem_reverse.mpr ((effective_of_latest hne hrow).mp hv))
        have hafter : ∀ v ∈ visited', v ∈ path ∨ Settled (world.Effective domain candidate) v := by
          intro v hv
          rcases hvisited' v hv with hmem | hsettled
          · rcases List.mem_append.mp hmem with hmem | hmem
            · exact Or.inl hmem
            · exact Or.inr (List.mem_singleton.mp hmem ▸ hchild)
          · exact Or.inr hsettled
        obtain ⟨visited'', hcard'', hvisited'', hperforms', hrest⟩ :=
          ih (hcard'.trans (hle.trans hcard)) hafter hgo
        exact ⟨visited'', hcard'', hvisited'', List.forall_mem_cons.mpr ⟨hchild, hperforms'⟩, hrest⟩

/-- Every entry has a path from the candidate that ends in its charter. -/
def OnPaths (world : World) (domain : String) (candidate : Definition)
    (stack : List (String × List String)) : Prop :=
  ∀ entry ∈ stack, ∃ passed, entry.2 = passed ++ [entry.1] ∧ passed.head? = some candidate.id ∧
    entry.2.IsChain (world.Effective domain candidate)

theorem OnPaths.pushPerforms (h : OnPaths world domain candidate stack)
    (hhead : path.head? = some candidate.id)
    (hchain : path.IsChain (world.Effective domain candidate))
    (hperforms : ∀ child ∈ performs, ∀ last ∈ path.getLast?,
      world.Effective domain candidate last child) :
    OnPaths world domain candidate (pushPerforms path performs stack) := by
  intro entry hentry
  rw [pushPerforms_eq, List.mem_append] at hentry
  rcases hentry with hentry | hentry
  · obtain ⟨child, hchild, rfl⟩ := List.mem_map.mp hentry
    refine ⟨path, rfl, hhead, List.isChain_append.mpr ⟨hchain, List.isChain_singleton child, ?_⟩⟩
    rintro last hlast _ ⟨⟩
    exact hperforms child (List.mem_reverse.mp hchild) last hlast
  · exact h entry hentry

/-- A path that is returned goes from the candidate to one of its earlier members. -/
theorem onPaths_of_performCycleFrom_eq_some (h : OnPaths world domain candidate stack)
    (hsome : world.performCycleFrom domain visited stack = some path) :
    ∃ passed last, path = passed ++ [last] ∧ passed.head? = some candidate.id ∧ last ∈ passed ∧
      path.IsChain (world.Effective domain candidate) := by
  induction visited, stack using performCycleFrom.induct world domain with
  | case1 visited =>
    rw [performCycleFrom] at hsome
    cases hsome
  | case2 visited charterId found stack hpassed =>
    rw [performCycleFrom, if_pos hpassed] at hsome
    obtain rfl := Option.some.inj hsome
    obtain ⟨passed, heq, hhead, hchain⟩ := h (charterId, found) List.mem_cons_self
    simp only at heq hchain
    subst heq
    rw [take_append_singleton] at hpassed
    exact ⟨passed, charterId, rfl, hhead, hpassed, hchain⟩
  | case3 visited charterId found stack hpassed hseen ih =>
    rw [performCycleFrom, if_neg hpassed, dif_pos hseen] at hsome
    exact ih (fun entry hentry ↦ h entry (List.mem_cons_of_mem _ hentry)) hsome
  | case4 visited charterId found stack hpassed hseen hrow ih =>
    rw [performCycleFrom_of_none hpassed hseen hrow] at hsome
    exact ih (fun entry hentry ↦ h entry (List.mem_cons_of_mem _ hentry)) hsome
  | case5 visited charterId found stack hpassed hseen row hrow ih =>
    rw [performCycleFrom_of_some hpassed hseen hrow] at hsome
    obtain ⟨passed, heq, hhead, hchain⟩ := h (charterId, found) List.mem_cons_self
    simp only at heq hchain
    subst heq
    rw [take_append_singleton] at hpassed
    -- the candidate stands at the head of every path, so it is not looked up in the store
    have hne : charterId ≠ candidate.id := by
      rintro rfl
      exact hpassed (List.mem_of_mem_head? hhead)
    have hstack : OnPaths world domain candidate stack :=
      fun entry hentry ↦ h entry (List.mem_cons_of_mem _ hentry)
    refine ih (hstack.pushPerforms ?_ hchain fun child hchild last hlast ↦ ?_) hsome
    · rw [List.head?_append, hhead]
      rfl
    · rw [List.getLast?_append, List.getLast?_singleton] at hlast
      obtain rfl : charterId = last := by simpa using hlast
      exact (effective_of_latest hne hrow).mpr hchild

/-- `perform_cycle` ends with a path exactly when a cycle is reachable, and the path shows it. -/
theorem performCycle_spec (world : World) (domain : String) (candidate : Definition) :
    ((world.performCycle domain candidate).isSome ↔
      ReachesCycle (world.Effective domain candidate) candidate.id) ∧
    ∀ path, world.performCycle domain candidate = some path →
      ∃ passed last, path = passed ++ [last] ∧ passed.head? = some candidate.id ∧ last ∈ passed ∧
        path.IsChain (world.Effective domain candidate) := by
  have hperforms : ∀ child, world.Effective domain candidate candidate.id child ↔
      child ∈ candidate.performs := fun child ↦ by rw [Effective, if_pos rfl]
  have hpath : ∀ path, world.performCycle domain candidate = some path →
      ∃ passed last, path = passed ++ [last] ∧ passed.head? = some candidate.id ∧ last ∈ passed ∧
        path.IsChain (world.Effective domain candidate) := by
    intro path hsome
    have hempty : OnPaths world domain candidate [] := by simp [OnPaths]
    refine onPaths_of_performCycleFrom_eq_some (hempty.pushPerforms rfl
      (List.isChain_singleton _) fun child hchild last hlast ↦ ?_) hsome
    obtain rfl : candidate.id = last := by simpa using hlast
    exact (hperforms child).mpr hchild
  refine ⟨⟨fun hsome ↦ ?_, fun hcycle ↦ ?_⟩, hpath⟩
  · obtain ⟨path, hfound⟩ := Option.isSome_iff_exists.mp hsome
    obtain ⟨passed, last, rfl, hhead, hmem, hchain⟩ := hpath path hfound
    exact reachesCycle_of_isChain hchain hhead hmem
  · -- a search that ends without a path has settled all that the candidate performs
    by_contra hnot
    have hnone := Option.not_isSome_iff_eq_none.mp hnot
    rw [performCycle, pushPerforms_eq] at hnone
    obtain ⟨-, -, -, hsettled, -⟩ := settled_of_performCycleFrom_eq_none _ le_rfl
      (List.mem_singleton_self candidate.id) (by simp) hnone
    have hcandidate : Settled (world.Effective domain candidate) candidate.id :=
      Settled.intro fun v hv ↦ hsettled v (List.mem_reverse.mpr ((hperforms v).mp hv))
    exact hcandidate.not_reachesCycle hcycle

end Search

end World

end Charter

end Khive
