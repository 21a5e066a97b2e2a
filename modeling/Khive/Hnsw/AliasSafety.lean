import Khive.Hnsw.AliasRuns

/-!
# Aliases strand nobody

In every state of every interleaving each alias names a registered collection. A migration publishes
the index it built while the alias still leads to the index it captured, and its candidate does not
outlive a failure unless an alias names it. The index that an alias leads to gets newer with every
publication, so two migrations that captured one index through one alias publish both only where the
alias was switched back in between.
-/

namespace Khive

namespace IndexAlias

open IndexAliasManager

variable {w : World} {act : Action} {k : ℕ} {as : List Action}

/-! ## The invariant -/

structure Coherent (w : World) : Prop where
  linked : ∀ aliasName collection, w.manager.aliases.get aliasName = some collection →
    ∃ index, w.manager.collections.get collection = some index
  allocated : ∀ collection index, w.manager.collections.get collection = some index →
    index < w.nextIndex
  captured : ∀ k s, (w.migrations k).source? = some s → s.oldIndex < w.nextIndex
  built : ∀ k c, (w.migrations k).candidate? = some c →
    c.oldIndex < c.newIndex ∧ c.newIndex < w.nextIndex
  /-- A candidate is registered under its name only. -/
  named : ∀ k c, (w.migrations k).candidate? = some c →
    ∀ name, w.manager.collections.get name = some c.newIndex → name = c.newCollection

theorem coherent_start : Coherent World.start where
  linked _ _ h := by cases h
  allocated _ _ h := by cases h
  captured _ _ h := by cases h
  built _ _ h := by cases h
  named _ _ h := by cases h

section Change

variable {m : IndexAliasManager} {n : ℕ} (h : Change w act m n)

include h

theorem Change.nextIndex_le : w.nextIndex ≤ n := by
  cases h with
  | same _ _ hnext => exact hnext
  | register => exact Nat.le_succ _
  | _ => exact le_rfl

/-- What is registered was registered before or is allocated just now. -/
theorem Change.registered {collection : String} {index : IndexRef}
    (hreg : m.collections.get collection = some index) :
    w.manager.collections.get collection = some index ∨ index = w.nextIndex ∧
      n = w.nextIndex + 1 := by
  cases h with
  | same => exact Or.inl hreg
  | register _ name hfree =>
    rw [OrderedMap.get_insert] at hreg
    split_ifs at hreg with heq
    · exact Or.inr ⟨(Option.some.inj hreg).symm, rfl⟩
    · exact Or.inl hreg
  | createAlias => exact Or.inl hreg
  | switchAlias => exact Or.inl hreg
  | publish k c =>
    rw [IndexAliasManager.publish] at hreg
    split_ifs at hreg with htarget
    · exact Or.inl hreg
    · rw [OrderedMap.get_erase] at hreg
      split_ifs at hreg with heq
      exact Or.inl hreg
  | retire _ name =>
    rw [OrderedMap.get_erase] at hreg
    split_ifs at hreg with heq
    exact Or.inl hreg

/-- A collection is removed only when no alias names it. -/
theorem Change.removed {collection : String} {index : IndexRef}
    (hreg : w.manager.collections.get collection = some index)
    (hgone : m.collections.get collection ≠ some index) (aliasName : String) :
    m.aliases.get aliasName ≠ some collection := by
  cases h with
  | same => exact absurd hreg hgone
  | register _ name hfree =>
    have hne : collection ≠ name := by
      rintro rfl
      rw [hfree] at hreg
      cases hreg
    exact absurd ((OrderedMap.get_insert _ _ _ _).trans ((if_neg hne).trans hreg)) hgone
  | createAlias => exact absurd hreg hgone
  | switchAlias => exact absurd hreg hgone
  | publish k c => exact aliases_of_publish_removes hreg hgone aliasName
  | retire _ name hfree =>
    obtain rfl : collection = name := by
      by_contra hne
      exact hgone ((OrderedMap.get_erase _ _ _).trans ((if_neg hne).trans hreg))
    exact hfree aliasName

theorem Change.linked (hlinked : ∀ aliasName collection,
      w.manager.aliases.get aliasName = some collection →
        ∃ index, w.manager.collections.get collection = some index)
    {aliasName collection : String} (halias : m.aliases.get aliasName = some collection) :
    ∃ index, m.collections.get collection = some index := by
  -- the collection was registered before, and it is not removed while it is named
  have hkept : ∀ index, w.manager.collections.get collection = some index →
      ∃ index, m.collections.get collection = some index := by
    intro index hreg
    by_contra hnone
    rw [not_exists] at hnone
    exact h.removed hreg (hnone index) aliasName halias
  cases h with
  | same => exact hlinked _ _ halias
  | register => exact (hlinked _ _ halias).elim hkept
  | createAlias name target hreg =>
    rw [OrderedMap.get_insert] at halias
    split_ifs at halias
    · exact Option.some.inj halias ▸ hreg
    · exact hlinked _ _ halias
  | switchAlias k name target old validated index hready hreg =>
    rw [OrderedMap.get_insert] at halias
    split_ifs at halias
    · exact ⟨index, Option.some.inj halias ▸ hreg⟩
    · exact hlinked _ _ halias
  | publish k c hvalidated hnew =>
    have hget := halias
    rw [publish_aliases, OrderedMap.get_insert] at hget
    split_ifs at hget
    · exact hkept c.newIndex (Option.some.inj hget ▸ hnew)
    · exact (hlinked _ _ hget).elim hkept
  | retire => exact (hlinked _ _ halias).elim hkept

end Change

theorem Coherent.step (h : Coherent w) (act : Action) : Coherent (w.step act) := by
  have hchange := step_change w act
  have hle := hchange.nextIndex_le
  refine ⟨fun _ _ ↦ hchange.linked h.linked, ?_, ?_, ?_, ?_⟩
  · intro collection index hreg
    rcases hchange.registered hreg with hreg | ⟨rfl, hnext⟩
    · exact (h.allocated _ _ hreg).trans_le hle
    · rw [hnext]
      exact Nat.lt_succ_self _
  · intro k s hs
    rcases (step_advance w act k).source? hs with hs | ⟨-, -, hreg⟩
    · exact (h.captured k s hs).trans_le hle
    · exact (h.allocated _ _ hreg).trans_le hle
  · intro k c hc
    rcases (step_advance w act k).candidate? hc with hc | ⟨hs, hnext, -, hindex, -⟩
    · exact ⟨(h.built k c hc).1, (h.built k c hc).2.trans_le hle⟩
    · rw [hnext, ← hindex]
      exact ⟨h.captured k _ hs, Nat.lt_succ_self _⟩
  · intro k c hc name hreg
    rcases (step_advance w act k).candidate? hc with hc | ⟨-, -, -, hindex, hregister⟩
    · rcases hchange.registered hreg with hreg | ⟨hnew, -⟩
      · exact h.named k c hc name hreg
      · exact absurd hnew (h.built k c hc).2.ne
    · rw [hregister, OrderedMap.get_insert] at hreg
      by_contra hne
      rw [if_neg hne, ← hindex] at hreg
      exact (h.allocated _ _ hreg).false

/-- The world behind a run. -/
def worldAfter (as : List Action) : World := runFrom World.step World.start as

theorem worldAfter_concat (as : List Action) (act : Action) :
    worldAfter (as ++ [act]) = (worldAfter as).step act := runFrom_concat _ _ _ _

theorem coherent_worldAfter (as : List Action) : Coherent (worldAfter as) :=
  runFrom_invariant (fun _ act h ↦ h.step act) coherent_start as

/-! ## The history of a migration -/

theorem resolved_history {aliasName old : String}
    (h : (worldAfter as).migrations k = .resolved aliasName old) :
    Sometime World.step (Resolves k aliasName old) World.start as := by
  induction as using List.reverseRecOn with
  | nil => cases h
  | append_singleton as act ih =>
    rw [worldAfter_concat] at h
    rw [sometime_concat]
    exact ((step_advance _ act k).resolved h).imp ih id

/-- What a migration captured, it captured by its two sections. -/
theorem source_history {s : Source} (h : ((worldAfter as).migrations k).source? = some s) :
    Sometime World.step (Resolves k s.aliasName s.oldCollection) World.start as ∧
      Sometime World.step (Captures k s) World.start as := by
  induction as using List.reverseRecOn with
  | nil => cases h
  | append_singleton as act ih =>
    rw [worldAfter_concat] at h
    rw [sometime_concat, sometime_concat]
    rcases (step_advance _ act k).source? h with h | ⟨hresolved, hcaptures⟩
    · exact (ih h).imp Or.inl Or.inl
    · exact ⟨Or.inl (resolved_history hresolved), Or.inr hcaptures⟩

theorem candidate_history {c : Candidate}
    (h : ((worldAfter as).migrations k).candidate? = some c) :
    Sometime World.step (Builds k c) World.start as := by
  induction as using List.reverseRecOn with
  | nil => cases h
  | append_singleton as act ih =>
    rw [worldAfter_concat] at h
    rw [sometime_concat]
    exact ((step_advance _ act k).candidate? h).imp ih fun h ↦ h.2.2

theorem accepted_history {c : Candidate}
    (h : ((worldAfter as).migrations k).accepted? = some c) :
    Sometime World.step (Accepts k c) World.start as := by
  induction as using List.reverseRecOn with
  | nil => cases h
  | append_singleton as act ih =>
    rw [worldAfter_concat] at h
    rw [sometime_concat]
    exact ((step_advance _ act k).accepted? h).imp ih id

/-! ## Publication -/

/-- The migration is about to publish, and its checks pass. -/
def World.Publishes (w : World) (k : ℕ) (c : Candidate) : Prop :=
  w.migrations k = .validated c ∧
    w.manager.checkCurrent c.aliasName c.oldCollection c.oldIndex c.newCollection c.newIndex =
      .ok ()

/-- The action switches the alias to the index. -/
def SwitchesTo (aliasName : String) (index : IndexRef) (w : World) (act : Action) : Prop :=
  ∃ k newCollection validated oldCollection, act = .publishSwitch k ∧
    w.switches k = .ready aliasName newCollection validated ∧
    w.manager.switchAlias aliasName newCollection validated =
      .ok (oldCollection, (w.step act).manager) ∧
    w.manager.collections.get newCollection = some index

theorem World.Publishes.step_manager {c : Candidate} (h : w.Publishes k c) :
    (w.step (.publishCandidate k)).manager =
      (w.manager.publish c.aliasName c.oldCollection c.newCollection).2 := by
  rw [World.step, World.publishCandidate, h.1]
  dsimp only
  rw [publishMigrationIfCurrent, h.2]
  rfl

/-- The alias leads to the captured index before the publication. -/
theorem World.Publishes.target_before {c : Candidate} (h : w.Publishes k c) :
    w.manager.target c.aliasName = some c.oldIndex := by
  obtain ⟨-, halias, hold⟩ := checkCurrent_eq_ok.mp h.2
  exact target_eq_some.mpr ⟨_, halias, hold⟩

theorem publish_target {m : IndexAliasManager} {aliasName old new : String} {index : IndexRef}
    (hnew : m.collections.get new = some index) :
    (m.publish aliasName old new).2.target aliasName = some index := by
  have halias : (m.publish aliasName old new).2.aliases.get aliasName = some new := by
    rw [publish_aliases, OrderedMap.get_insert, if_pos rfl]
  exact target_eq_some.mpr ⟨new, halias, (publish_collections halias).trans hnew⟩

/-- The alias leads to the candidate behind the publication. -/
theorem World.Publishes.target_after {c : Candidate} (h : w.Publishes k c) :
    (w.step (.publishCandidate k)).manager.target c.aliasName = some c.newIndex := by
  rw [h.step_manager]
  exact publish_target (checkCurrent_eq_ok.mp h.2).1

/-- Every other alias leads where it did. -/
theorem publish_target_of_ne {m : IndexAliasManager} {aliasName other old new : String}
    (hne : other ≠ aliasName) : (m.publish aliasName old new).2.target other = m.target other := by
  have halias : (m.publish aliasName old new).2.aliases.get other = m.aliases.get other := by
    rw [publish_aliases, OrderedMap.get_insert, if_neg hne]
  exact target_congr halias fun c hc ↦ publish_collections (halias.trans hc)

/-- The alias leads to an index that is newer than the bound. -/
def LeadsPast (aliasName : String) (bound : IndexRef) (w : World) : Prop :=
  ∃ index, w.manager.target aliasName = some index ∧ bound < index

/-- **The index behind an alias gets newer**: only a switch makes an alias lead to an index that is
no newer than a bound, when it led to a newer one. -/
theorem switches_of_loss (h : Coherent w) {aliasName : String} {bound : IndexRef}
    (hbefore : LeadsPast aliasName bound w) (hafter : ¬LeadsPast aliasName bound (w.step act)) :
    ∃ index ≤ bound, SwitchesTo aliasName index w act := by
  obtain ⟨index, htarget, hlt⟩ := hbefore
  obtain ⟨collection, halias, hreg⟩ := target_eq_some.mp htarget
  -- while the alias leads where it did, nothing is lost
  have hsame : (w.step act).manager.target aliasName = w.manager.target aliasName → False :=
    fun heq ↦ hafter ⟨index, heq.trans htarget, hlt⟩
  rw [LeadsPast] at hafter
  have hchange := step_change w act
  generalize hm : (w.step act).manager = m at hchange hsame hafter
  generalize (w.step act).nextIndex = n at hchange
  cases hchange with
  | same => exact (hsame rfl).elim
  | register _ name hfree =>
    refine (hsame (target_congr rfl fun c hc ↦ ?_)).elim
    obtain ⟨i, hi⟩ := h.linked _ _ hc
    have hne : c ≠ name := by
      rintro rfl
      rw [hfree] at hi
      cases hi
    exact (OrderedMap.get_insert _ _ _ _).trans (if_neg hne)
  | createAlias name target _ hfree =>
    have hne : aliasName ≠ name := by
      rintro rfl
      rw [hfree] at halias
      cases halias
    exact (hsame (target_congr ((OrderedMap.get_insert _ _ _ _).trans (if_neg hne))
      fun _ _ ↦ rfl)).elim
  | switchAlias k name target old validated i hready hreg' hvalidated hold =>
    by_cases hname : aliasName = name
    · subst hname
      have htarget' : ({ w.manager with
          aliases := w.manager.aliases.insert aliasName target } : IndexAliasManager).target
            aliasName = some i :=
        target_eq_some.mpr ⟨target, (OrderedMap.get_insert _ _ _ _).trans (if_pos rfl), hreg'⟩
      refine ⟨i, not_lt.mp fun hi ↦ hafter ⟨i, htarget', hi⟩, k, target, validated, old, rfl,
        hready, ?_, hreg'⟩
      rw [hm]
      exact switchAlias_eq_ok.mpr ⟨i, hreg', hvalidated, hold, rfl⟩
    · exact (hsame (target_congr ((OrderedMap.get_insert _ _ _ _).trans (if_neg hname))
        fun _ _ ↦ rfl)).elim
  | publish k c hvalidated hnew halias' hold =>
    by_cases hname : aliasName = c.aliasName
    · subst hname
      -- the candidate is newer than what the alias led to
      have hindex : index = c.oldIndex := by
        rw [halias', Option.some.injEq] at halias
        subst halias
        exact Option.some.inj (hreg.symm.trans hold)
      have hbuilt := (h.built k c (by rw [hvalidated]; rfl)).1
      exact (hafter ⟨c.newIndex, publish_target hnew, (hindex ▸ hlt).trans hbuilt⟩).elim
    · exact (hsame (publish_target_of_ne hname)).elim
  | retire _ name hfree =>
    refine (hsame (target_congr rfl fun c hc ↦ ?_)).elim
    have hne : c ≠ name := by
      rintro rfl
      exact hfree aliasName hc
    exact (OrderedMap.get_erase _ _ _).trans (if_neg hne)

/-- An alias that a section of a migration changes is the migration's, which publishes. -/
theorem publishes_of_changes {aliasName : String} (hmigration : act.migration? = some k)
    (hne : (w.step act).manager.aliases.get aliasName ≠ w.manager.aliases.get aliasName) :
    act = .publishCandidate k ∧ ∃ c, aliasName = c.aliasName ∧ w.Publishes k c := by
  have hchange := step_change w act
  generalize (w.step act).manager = m at hchange hne
  generalize (w.step act).nextIndex = n at hchange
  cases hchange with
  | publish j c hvalidated hnew halias hold =>
    obtain rfl : j = k := Option.some.inj hmigration
    refine ⟨rfl, c, ?_, hvalidated, checkCurrent_eq_ok.mpr ⟨hnew, halias, hold⟩⟩
    by_contra hname
    rw [publish_aliases, OrderedMap.get_insert, if_neg hname] at hne
    exact hne rfl
  | createAlias => cases hmigration
  | switchAlias => cases hmigration
  | _ => exact absurd rfl hne

/-- The clean-up leaves the candidate registered only where an alias names it. -/
theorem cleanUp_leaves (h : Coherent w) {c : Candidate} {e : AliasError}
    (hfailed : w.migrations k = .failed c e) {name : String}
    (hreg : (w.step (.cleanUp k)).manager.collections.get name = some c.newIndex) :
    ∃ aliasName, (w.step (.cleanUp k)).manager.aliases.get aliasName = some name := by
  have hname : ∀ name, w.manager.collections.get name = some c.newIndex →
      name = c.newCollection := h.named k c (by rw [hfailed]; rfl)
  rw [World.step, World.cleanUp, hfailed] at hreg ⊢
  dsimp only at hreg ⊢
  rcases hretire : w.manager.retireCollection c.newCollection (some c.newIndex) with
    e' | ⟨index, manager⟩
  · rw [hretire] at hreg
    -- retirement refuses only where an alias names the candidate
    obtain rfl : name = c.newCollection := hname name hreg
    by_contra hnone
    rw [not_exists] at hnone
    have hok : w.manager.retireCollection c.newCollection (some c.newIndex) = .ok (c.newIndex, _) :=
      retireCollection_eq_ok.mpr ⟨hreg, by simp, hnone, rfl⟩
    rw [hretire] at hok
    cases hok
  · obtain ⟨-, -, -, rfl⟩ := retireCollection_eq_ok.mp hretire
    rw [hretire] at hreg
    have hget := (OrderedMap.get_erase _ _ _).symm.trans hreg
    split_ifs at hget with heq
    exact absurd (hname name hget) heq

theorem acquireReader_eq_error (h : Coherent w) {aliasName : String} {e : AliasError} :
    w.manager.acquireReader aliasName = .error e ↔
      w.manager.aliases.get aliasName = none ∧ e = .aliasNotFound aliasName := by
  rw [acquireReader]
  rcases halias : w.manager.aliases.get aliasName with - | collection
  · simp [eq_comm]
  · obtain ⟨index, hreg⟩ := h.linked _ _ halias
    simp [hreg]

/-- **Aliases strand nobody.** -/
theorem aliases_strand_nobody (as : List Action) :
    let w := worldAfter as
    (∀ aliasName collection, w.manager.aliases.get aliasName = some collection →
      ∃ index, w.manager.collections.get collection = some index) ∧
    (∀ aliasName e, w.manager.acquireReader aliasName = .error e ↔
      w.manager.aliases.get aliasName = none ∧ e = .aliasNotFound aliasName) ∧
    (∀ act collection index, w.manager.collections.get collection = some index →
      (w.step act).manager.collections.get collection ≠ some index →
        ∀ aliasName, (w.step act).manager.aliases.get aliasName ≠ some collection) ∧
    (∀ act k aliasName, act.migration? = some k →
      (w.step act).manager.aliases.get aliasName ≠ w.manager.aliases.get aliasName →
        act = .publishCandidate k ∧ ∃ c, aliasName = c.aliasName ∧
          Sometime World.step (Resolves k c.aliasName c.oldCollection) World.start as ∧
          Sometime World.step (Captures k c.toSource) World.start as ∧
          Sometime World.step (Builds k c) World.start as ∧
          Sometime World.step (Accepts k c) World.start as ∧
          w.manager.target aliasName = some c.oldIndex ∧
          (w.step act).manager.target aliasName = some c.newIndex) ∧
    (∀ k c between k' c', w.Publishes k c →
      (worldAfter (as ++ .publishCandidate k :: between)).Publishes k' c' →
      c'.aliasName = c.aliasName → c'.oldIndex = c.oldIndex →
        Sometime World.step
          (fun w act ↦ ∃ index ≤ c.oldIndex, SwitchesTo c.aliasName index w act)
          (w.step (.publishCandidate k)) between) ∧
    (∀ k c e, w.migrations k = .failed c e → ∀ name,
      (w.step (.cleanUp k)).manager.collections.get name = some c.newIndex →
        ∃ aliasName, (w.step (.cleanUp k)).manager.aliases.get aliasName = some name) := by
  intro w
  have hw : Coherent w := coherent_worldAfter as
  refine ⟨hw.linked, fun _ _ ↦ acquireReader_eq_error hw,
    fun act _ _ ↦ (step_change w act).removed, ?_, ?_, fun k c e h _ ↦ cleanUp_leaves hw h⟩
  · intro act k aliasName hmigration hne
    obtain ⟨rfl, c, rfl, hpublishes⟩ := publishes_of_changes hmigration hne
    have hvalidated : (worldAfter as).migrations k = .validated c := hpublishes.1
    have hcandidate : ((worldAfter as).migrations k).candidate? = some c := by
      rw [hvalidated]
      rfl
    have hsource : ((worldAfter as).migrations k).source? = some c.toSource := by
      rw [hvalidated]
      rfl
    have haccepted : ((worldAfter as).migrations k).accepted? = some c := by
      rw [hvalidated]
      rfl
    exact ⟨rfl, c, rfl, (source_history hsource).1, (source_history hsource).2,
      candidate_history hcandidate, accepted_history haccepted, hpublishes.target_before,
      hpublishes.target_after⟩
  · intro k c between k' c' hfirst hsecond halias hold
    have hbuilt := (hw.built k c (by rw [hfirst.1]; rfl)).1
    have hrun : worldAfter (as ++ .publishCandidate k :: between) =
        runFrom World.step (w.step (.publishCandidate k)) between := runFrom_append _ _ _ _
    rw [hrun] at hsecond
    have hpast : LeadsPast c.aliasName c.oldIndex (w.step (.publishCandidate k)) :=
      ⟨c.newIndex, hfirst.target_after, hbuilt⟩
    -- the second publication finds the captured index, which the first one had left behind
    have hback : ¬LeadsPast c.aliasName c.oldIndex
        (runFrom World.step (w.step (.publishCandidate k)) between) := by
      rintro ⟨index, htarget, hlt⟩
      rw [← halias, hsecond.target_before, hold] at htarget
      exact hlt.ne (Option.some.inj htarget)
    have hloss := sometime_of_loss (I := Coherent) (fun _ act h ↦ h.step act) (hw.step _) hpast
      hback
    exact hloss.imp fun w act h ↦ switches_of_loss h.1 h.2.1 h.2.2

/-! ## A migration moves the alias back -/

/-- Two aliases lead to one index and a migration of the first exposes a second index, to which both
are switched. Two more migrations capture it. -/
def migratedBack : List Action :=
  [.registerCollection "J", .createAlias "A" "J", .createAlias "B" "J",
    .resolveAlias 3 "A", .captureIndex 3, .nameCandidate 3 7 0, .exposeCandidate 3 (.ok ()),
    .validateCandidate 3 none,
    .createAlias "C" "J_migrated_7_0", .startSwitch 1 "A" "J_migrated_7_0" none, .publishSwitch 1,
    .resolveAlias 1 "A", .captureIndex 1, .nameCandidate 1 8 1, .exposeCandidate 1 (.ok ()),
    .validateCandidate 1 none,
    .resolveAlias 2 "A", .captureIndex 2, .nameCandidate 2 9 2, .exposeCandidate 2 (.ok ()),
    .validateCandidate 2 none]

/-- The alias is switched to the first index, from where the first migration moves it on. -/
def movedOn : List Action := [.startSwitch 2 "A" "J" none, .publishSwitch 2, .publishCandidate 3]

/-- Both migrations that captured the second index publish, and no switch moved the alias back to
it. -/
theorem aliases_strand_nobody_migrated_back :
    ∃ c c' : Candidate, (worldAfter migratedBack).Publishes 1 c ∧
      (worldAfter (migratedBack ++ .publishCandidate 1 :: movedOn)).Publishes 2 c' ∧
      c'.aliasName = c.aliasName ∧ c'.oldIndex = c.oldIndex ∧
      ¬Sometime World.step (SwitchesTo c.aliasName c.oldIndex)
        ((worldAfter migratedBack).step (.publishCandidate 1)) movedOn := by
  refine ⟨⟨⟨"A", "J_migrated_7_0", 1⟩, "J_migrated_7_0_migrated_8_1", 2⟩,
    ⟨⟨"A", "J_migrated_7_0", 1⟩, "J_migrated_7_0_migrated_9_2", 3⟩,
    ⟨by rfl, by rfl⟩, ⟨by rfl, by rfl⟩, rfl, rfl, ?_⟩
  rintro (h | h | h | h)
  · obtain ⟨k, _, _, _, hact, -⟩ := h
    cases hact
  · obtain ⟨k, newCollection, validated, old, hact, hready, -, hreg⟩ := h
    obtain rfl : 2 = k := Action.publishSwitch.inj hact
    have hcollection : "J" = newCollection := (Switch.ready.inj hready).2.1
    subst hcollection
    exact absurd hreg (by decide)
  · obtain ⟨k, _, _, _, hact, -⟩ := h
    cases hact
  · exact h

end IndexAlias

end Khive
