import Khive.Foundation.Walk

/-!
# Lowest common ancestors

Two branches are merged against the snapshot their histories share last. Snapshots have one parent
at most, so that a history is a walk, and a broken store may hold a cyclic one. The search collects
the ancestors of one branch into a set and walks from the other until it meets the set. Each of the
two loops has a visited set of its own; with finitely many snapshots both end, and neither guard
cuts a walk short of anything new.
-/

namespace Khive

/-- `SnapshotReader`, over finitely many snapshots. -/
structure SnapshotHistory where
  /-- The parent of a snapshot, or `none` if it is a root. -/
  parentOf : String → Option String
  ids : Finset String
  /-- Whatever has a parent or is one is a snapshot. -/
  mem_ids : ∀ id parent, parentOf id = some parent → id ∈ ids ∧ parent ∈ ids

namespace SnapshotHistory

variable (r : SnapshotHistory)

/-! ## The search -/

/-- The loop of `collect_ancestors`; `none` when out of fuel. -/
def collectLoop : Nat → List String → Option String → Option (List String)
  | _, set, none => some set
  | 0, _, some _ => none
  | fuel + 1, set, some id =>
    if id ∈ set then some set else collectLoop fuel (id :: set) (r.parentOf id)

/-- `collect_ancestors`. -/
def collectAncestors (fuel : Nat) (start : String) : Option (List String) :=
  r.collectLoop fuel [start] (r.parentOf start)

/-- The loop of `find_lca`; `none` when out of fuel. -/
def theirsLoop (oursAncestors : List String) :
    Nat → List String → Option String → Option (Option String)
  | _, _, none => some none
  | 0, _, some _ => none
  | fuel + 1, visited, some id =>
    if id ∈ oursAncestors then some (some id)
    else
      match r.parentOf id with
      | some next =>
        if next ∈ visited then theirsLoop oursAncestors fuel visited none
        else theirsLoop oursAncestors fuel (next :: visited) (some next)
      | none => theirsLoop oursAncestors fuel visited none

/-- Finds the lowest common ancestor of two single-parent snapshot histories. -/
def findLca (fuel : Nat) (ours theirs : String) : Option (Option String) :=
  if ours = theirs then some (some ours)
  else do
    let oursAncestors ← r.collectAncestors fuel ours
    r.theirsLoop oursAncestors fuel [theirs] (some theirs)

/-! ## Collecting ancestors -/

/-- `ancestor` is the snapshot or an ancestor of it. -/
abbrev IsAncestorOrSelf (ancestor id : String) : Prop := WalksTo r.parentOf id ancestor

/-- The snapshots seen so far, and the one that comes next. -/
structure Collects (start : String) (set : List String) (current : Option String) : Prop where
  start_mem : start ∈ set
  ancestor : ∀ id ∈ set, r.IsAncestorOrSelf id start
  closed : ∀ id ∈ set, ∀ parent, r.parentOf id = some parent →
    parent ∈ set ∨ current = some parent
  next : ∀ id, current = some id → r.IsAncestorOrSelf id start

variable {r}

theorem Collects.mem_iff {start : String} {set : List String} {current : Option String}
    (h : r.Collects start set current) (hdone : ∀ id, current = some id → id ∈ set)
    {id : String} : id ∈ set ↔ r.IsAncestorOrSelf id start := by
  refine ⟨h.ancestor id, fun hid ↦ hid.mem_of_closed (fun b c hb hc ↦ ?_) h.start_mem⟩
  exact (h.closed b hb c hc).elim (fun hmem ↦ hmem) (hdone c)

theorem Collects.insert {start id : String} {set : List String}
    (h : r.Collects start set (some id)) : r.Collects start (id :: set) (r.parentOf id) where
  start_mem := List.mem_cons_of_mem _ h.start_mem
  ancestor := by
    intro b hb
    rcases List.mem_cons.mp hb with rfl | hb
    · exact h.next b rfl
    · exact h.ancestor b hb
  closed := by
    intro b hb c hc
    rcases List.mem_cons.mp hb with rfl | hb
    · exact Or.inr hc
    · rcases h.closed b hb c hc with hmem | heq
      · exact Or.inl (List.mem_cons_of_mem _ hmem)
      · exact Or.inl (Option.some.inj heq ▸ List.mem_cons_self)
  next := fun c hc ↦ (h.next id rfl).step hc

/-- The snapshots not seen yet. -/
def unseen (r : SnapshotHistory) (set : List String) : Finset String :=
  r.ids.filter fun id ↦ id ∉ set

theorem card_unseen_insert {set : List String} {id : String} (hid : id ∈ r.ids) (h : id ∉ set) :
    (r.unseen (id :: set)).card + 1 ≤ (r.unseen set).card := by
  have hmem : id ∈ r.unseen set := Finset.mem_filter.mpr ⟨hid, h⟩
  rw [← Finset.card_erase_add_one hmem]
  refine Nat.add_le_add_right (Finset.card_le_card fun b hb ↦ ?_) 1
  obtain ⟨hb, hne⟩ := Finset.mem_filter.mp hb
  rw [List.mem_cons, not_or] at hne
  exact Finset.mem_erase.mpr ⟨hne.1, Finset.mem_filter.mpr ⟨hb, hne.2⟩⟩

theorem collectLoop_spec {start : String} {fuel : Nat} {set : List String}
    {current : Option String} (h : r.Collects start set current)
    (hcurrent : ∀ id, current = some id → id ∈ r.ids) (hfuel : (r.unseen set).card + 1 ≤ fuel) :
    ∃ found, r.collectLoop fuel set current = some found ∧
      ∀ id, id ∈ found ↔ r.IsAncestorOrSelf id start := by
  induction fuel generalizing set current with
  | zero => exact absurd hfuel (Nat.not_succ_le_zero _)
  | succ fuel ih =>
    cases current with
    | none => exact ⟨set, rfl, fun id ↦ h.mem_iff fun _ hnone ↦ absurd hnone (by simp)⟩
    | some id =>
      rw [collectLoop]
      by_cases hseen : id ∈ set
      · rw [if_pos hseen]
        exact ⟨set, rfl, fun b ↦ h.mem_iff fun c hc ↦ Option.some.inj hc ▸ hseen⟩
      · rw [if_neg hseen]
        have hcard := card_unseen_insert (hcurrent id rfl) hseen
        exact ih h.insert (fun parent hparent ↦ (r.mem_ids id parent hparent).2) (by omega)

theorem collectAncestors_spec (start : String) {fuel : Nat} (hfuel : r.ids.card + 1 ≤ fuel) :
    ∃ found, r.collectAncestors fuel start = some found ∧
      ∀ id, id ∈ found ↔ r.IsAncestorOrSelf id start := by
  refine collectLoop_spec ⟨List.mem_singleton_self _, ?_, ?_, ?_⟩ ?_ ?_
  · intro id hid
    rw [List.mem_singleton.mp hid]
    exact WalksTo.refl start
  · intro id hid parent hparent
    rw [List.mem_singleton.mp hid] at hparent
    exact Or.inr hparent
  · exact fun parent hparent ↦ (WalksTo.refl start).step hparent
  · exact fun parent hparent ↦ (r.mem_ids start parent hparent).2
  · exact (Nat.add_le_add_right (Finset.card_filter_le _ _) 1).trans hfuel

/-! ## Walking from the other side -/

/-- The walk has come by `id` and met no ancestor before; what it saw before leads to what it saw
since. -/
structure Searches (r : SnapshotHistory) (P : String → Prop) (theirs : String)
    (visited : List String) (id : String) : Prop where
  theirs_mem : theirs ∈ visited
  id_mem : id ∈ visited
  missed : ∀ b ∈ visited, b ≠ id → ¬P b
  closed : ∀ b ∈ visited, b ≠ id → ∀ c, r.parentOf b = some c → c ∈ visited
  reached : ∃ n, walk r.parentOf n theirs = some id ∧
    ∀ m < n, ∀ b, walk r.parentOf m theirs = some b → ¬P b

/-- Where the walk leads back into what it saw, or ends, it has met no ancestor at all. -/
theorem Searches.missed_all {P : String → Prop} {theirs id : String} {visited : List String}
    (h : Searches r P theirs visited id) (hid : ¬P id)
    (hback : ∀ next, r.parentOf id = some next → next ∈ visited) :
    ∀ b, r.IsAncestorOrSelf b theirs → ¬P b := by
  intro b hb
  have hmem : b ∈ visited := by
    refine hb.mem_of_closed (fun c d hc hd ↦ ?_) h.theirs_mem
    by_cases heq : c = id
    · exact hback d (heq ▸ hd)
    · exact h.closed c hc heq d hd
  by_cases heq : b = id
  · exact heq ▸ hid
  · exact h.missed b hmem heq

theorem Searches.advance {P : String → Prop} {theirs id next : String} {visited : List String}
    (h : Searches r P theirs visited id) (hid : ¬P id) (hnext : r.parentOf id = some next) :
    Searches r P theirs (next :: visited) next where
  theirs_mem := List.mem_cons_of_mem _ h.theirs_mem
  id_mem := List.mem_cons_self
  missed := by
    intro b hb hne
    have hb := (List.mem_cons.mp hb).resolve_left hne
    by_cases heq : b = id
    · exact heq ▸ hid
    · exact h.missed b hb heq
  closed := by
    intro b hb hne c hc
    have hb := (List.mem_cons.mp hb).resolve_left hne
    by_cases heq : b = id
    · subst heq
      exact Option.some.inj (hnext.symm.trans hc) ▸ List.mem_cons_self
    · exact List.mem_cons_of_mem _ (h.closed b hb heq c hc)
  reached := by
    obtain ⟨n, hn, hfirst⟩ := h.reached
    refine ⟨n + 1, (walk_succ_of_eq hn).trans hnext, fun m hm b hb ↦ ?_⟩
    rcases Nat.lt_succ_iff_lt_or_eq.mp hm with hlt | rfl
    · exact hfirst m hlt b hb
    · exact Option.some.inj (hn.symm.trans hb) ▸ hid

/-- The search has the first hit, or there is none. -/
def Finds (r : SnapshotHistory) (P : String → Prop) (theirs : String) (result : Option String) :
    Prop :=
  (∀ id, result = some id → FirstHit r.parentOf P theirs id) ∧
    (result = none → ∀ id, r.IsAncestorOrSelf id theirs → ¬P id)

theorem theirsLoop_spec {oursAncestors : List String} {theirs id : String} {fuel : Nat}
    {visited : List String} (h : Searches r (· ∈ oursAncestors) theirs visited id)
    (hfuel : (r.unseen visited).card + 1 ≤ fuel) :
    ∃ result, r.theirsLoop oursAncestors fuel visited (some id) = some result ∧
      r.Finds (· ∈ oursAncestors) theirs result := by
  induction fuel generalizing visited id with
  | zero => exact absurd hfuel (Nat.not_succ_le_zero _)
  | succ fuel ih =>
    have hended : ∀ visited, r.theirsLoop oursAncestors fuel visited none = some none := by
      intro visited
      cases fuel <;> rfl
    rw [theirsLoop]
    by_cases hhit : id ∈ oursAncestors
    · rw [if_pos hhit]
      refine ⟨some id, rfl, fun b hb ↦ ?_, fun hnone ↦ absurd hnone (by simp)⟩
      obtain rfl := Option.some.inj hb
      obtain ⟨n, hn, hfirst⟩ := h.reached
      exact ⟨n, hn, hhit, hfirst⟩
    · rw [if_neg hhit]
      cases hnext : r.parentOf id with
      | none =>
        refine ⟨none, hended visited, fun b hb ↦ absurd hb (by simp), fun _ ↦ ?_⟩
        exact h.missed_all hhit fun next heq ↦ absurd (hnext.symm.trans heq) (by simp)
      | some next =>
        dsimp only
        by_cases hseen : next ∈ visited
        · rw [if_pos hseen]
          refine ⟨none, hended visited, fun b hb ↦ absurd hb (by simp), fun _ ↦ ?_⟩
          exact h.missed_all hhit fun b hb ↦ Option.some.inj (hnext.symm.trans hb) ▸ hseen
        · rw [if_neg hseen]
          have hcard := card_unseen_insert (r.mem_ids id next hnext).2 hseen
          exact ih (h.advance hhit hnext) (by omega)

/-! ## The result -/

theorem Finds.unique {P : String → Prop} {theirs : String} {result result' : Option String}
    (h : r.Finds P theirs result) (h' : r.Finds P theirs result') : result = result' := by
  cases result with
  | none =>
    cases result' with
    | none => rfl
    | some id =>
      have hid := h'.1 id rfl
      exact absurd hid.prop (h.2 rfl id hid.walksTo)
  | some id =>
    have hid := h.1 id rfl
    cases result' with
    | none => exact absurd hid.prop (h'.2 rfl id hid.walksTo)
    | some id' => rw [hid.unique (h'.1 id' rfl)]

theorem findLca_spec (ours theirs : String) {fuel : Nat} (hfuel : r.ids.card + 1 ≤ fuel) :
    ∃ result, r.findLca fuel ours theirs = some result ∧
      r.Finds (r.IsAncestorOrSelf · ours) theirs result := by
  rw [findLca]
  by_cases heq : ours = theirs
  · rw [if_pos heq]
    refine ⟨some ours, rfl, fun id hid ↦ ?_, fun hnone ↦ absurd hnone (by simp)⟩
    obtain rfl := Option.some.inj hid
    subst heq
    exact ⟨0, rfl, WalksTo.refl ours, fun m hm ↦ absurd hm (Nat.not_lt_zero m)⟩
  · rw [if_neg heq]
    obtain ⟨oursAncestors, hcollect, hmem⟩ := collectAncestors_spec ours hfuel
    have hancestor : (· ∈ oursAncestors) = (r.IsAncestorOrSelf · ours) :=
      funext fun id ↦ propext (hmem id)
    have hstart : Searches r (· ∈ oursAncestors) theirs [theirs] theirs :=
      { theirs_mem := List.mem_singleton_self _
        id_mem := List.mem_singleton_self _
        missed := fun b hb hne ↦ absurd (List.mem_singleton.mp hb) hne
        closed := fun b hb hne ↦ absurd (List.mem_singleton.mp hb) hne
        reached := ⟨0, rfl, fun m hm ↦ absurd hm (Nat.not_lt_zero m)⟩ }
    have hunseen : (r.unseen [theirs]).card + 1 ≤ fuel :=
      (Nat.add_le_add_right (Finset.card_filter_le _ _) 1).trans hfuel
    obtain ⟨result, hrun, hfinds⟩ := theirsLoop_spec hstart hunseen
    rw [hancestor] at hfinds
    refine ⟨result, ?_, hfinds⟩
    rw [hcollect]
    exact hrun

/-- On an acyclic history the search from the other side meets the same snapshot. -/
theorem Finds.symm (hacyclic : Acyclic r.parentOf) {ours theirs : String}
    {result result' : Option String} (h : r.Finds (r.IsAncestorOrSelf · ours) theirs result)
    (h' : r.Finds (r.IsAncestorOrSelf · theirs) ours result') : result = result' := by
  cases result with
  | none =>
    cases result' with
    | none => rfl
    | some id =>
      have hid := h'.1 id rfl
      exact absurd hid.walksTo (h.2 rfl id hid.prop)
  | some id =>
    have hid := h.1 id rfl
    cases result' with
    | none => exact absurd hid.walksTo (h'.2 rfl id hid.prop)
    | some id' =>
      -- each is a common ancestor, hence an ancestor of the other
      have hid' := h'.1 id' rfl
      rw [hacyclic.antisymm (hid.walksTo_of_prop hid'.prop hid'.walksTo)
        (hid'.walksTo_of_prop hid.prop hid.walksTo)]

/-- **The lowest common ancestor.** On every history, cyclic or not, the search ends, and returns
the first snapshot on the way from theirs to the root that is ours or an ancestor of it, if there is
one. On an acyclic history it does not matter which side is which, and every common ancestor is the
result or an ancestor of the result. -/
theorem findLca_first_common_ancestor (r : SnapshotHistory) (ours theirs : String) :
    ∃ result, (∀ fuel, r.ids.card + 1 ≤ fuel → r.findLca fuel ours theirs = some result) ∧
      (∀ id, result = some id ↔
        FirstHit r.parentOf (r.IsAncestorOrSelf · ours) theirs id) ∧
      (result = none ↔
        ¬∃ id, r.IsAncestorOrSelf id theirs ∧ r.IsAncestorOrSelf id ours) ∧
      (Acyclic r.parentOf →
        (∀ fuel, r.ids.card + 1 ≤ fuel → r.findLca fuel theirs ours = some result) ∧
        ∀ id, r.IsAncestorOrSelf id ours → r.IsAncestorOrSelf id theirs →
          ∃ lca, result = some lca ∧ r.IsAncestorOrSelf id lca) := by
  obtain ⟨result, -, hfinds⟩ := findLca_spec (r := r) ours theirs le_rfl
  have hlowest : ∀ id, r.IsAncestorOrSelf id ours → r.IsAncestorOrSelf id theirs →
      ∃ lca, result = some lca ∧ r.IsAncestorOrSelf id lca := by
    intro id hours htheirs
    cases result with
    | none => exact absurd hours (hfinds.2 rfl id htheirs)
    | some lca => exact ⟨lca, rfl, (hfinds.1 lca rfl).walksTo_of_prop htheirs hours⟩
  refine ⟨result, fun fuel hfuel ↦ ?_, fun id ↦ ⟨hfinds.1 id, fun hfirst ↦ ?_⟩, ?_,
    fun hacyclic ↦ ⟨fun fuel hfuel ↦ ?_, hlowest⟩⟩
  · obtain ⟨result', hrun, hfinds'⟩ := findLca_spec (r := r) ours theirs hfuel
    rw [hrun, hfinds.unique hfinds']
  · obtain ⟨lca, hlca, -⟩ := hlowest id hfirst.prop hfirst.walksTo
    rw [hlca, (hfinds.1 lca hlca).unique hfirst]
  · constructor
    · rintro hnone ⟨id, htheirs, hours⟩
      exact hfinds.2 hnone id htheirs hours
    · intro hdisjoint
      by_contra hne
      obtain ⟨lca, hlca⟩ := Option.ne_none_iff_exists'.mp hne
      have hfirst := hfinds.1 lca hlca
      exact hdisjoint ⟨lca, hfirst.walksTo, hfirst.prop⟩
  · obtain ⟨result', hrun, hfinds'⟩ := findLca_spec (r := r) theirs ours hfuel
    rw [hrun, hfinds.symm hacyclic hfinds']

/-- Two snapshots with one parent. -/
private def fork : SnapshotHistory where
  parentOf id := if id = "ours" ∨ id = "theirs" then some "base" else none
  ids := {"ours", "theirs", "base"}
  mem_ids := by
    intro id parent h
    split_ifs at h with hid
    obtain rfl := Option.some.inj h
    rcases hid with rfl | rfl
    · exact ⟨by decide, by decide⟩
    · exact ⟨by decide, by decide⟩

private theorem acyclic_fork : Acyclic fork.parentOf := by
  refine Acyclic.of_rank (fun id ↦ if id = "base" then 0 else 1) fun id parent h ↦ ?_
  change (if id = "ours" ∨ id = "theirs" then some "base" else none) = some parent at h
  split_ifs at h with hid
  obtain rfl := Option.some.inj h
  rcases hid with rfl | rfl
  · decide
  · decide

/-- On a fork both searches meet at the same snapshot. -/
theorem findLca_fork : fork.findLca 4 "ours" "theirs" = fork.findLca 4 "theirs" "ours" := by
  obtain ⟨result, hrun, -, -, hsymm⟩ := findLca_first_common_ancestor fork "ours" "theirs"
  rw [hrun 4 (by decide), (hsymm acyclic_fork).1 4 (by decide)]

end SnapshotHistory

end Khive
