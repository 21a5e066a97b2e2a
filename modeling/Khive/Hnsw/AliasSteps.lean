import Khive.Foundation.Steps
import Khive.Hnsw.Alias

/-!
# What one section does

`Change` lists what an action can do to the manager, and `Advance` what it can do to a migration.
Every alias names a registered collection, and an index is allocated before what is built from it.
-/

namespace Khive

namespace IndexAlias

namespace IndexAliasManager

variable {m m' : IndexAliasManager} {aliasName collection name old : String} {index : IndexRef}

theorem isTarget_iff :
    m.isTarget collection = true ↔ ∃ aliasName, m.aliases.get aliasName = some collection := by
  rw [isTarget, List.any_eq_true]
  constructor
  · rintro ⟨target, hmem, heq⟩
    obtain ⟨aliasName, hget⟩ := OrderedMap.mem_values.mp hmem
    exact ⟨aliasName, beq_iff_eq.mp heq ▸ hget⟩
  · rintro ⟨aliasName, hget⟩
    exact ⟨collection, OrderedMap.mem_values.mpr ⟨aliasName, hget⟩, beq_self_eq_true _⟩

theorem isTarget_eq_false :
    m.isTarget collection = false ↔ ∀ aliasName, m.aliases.get aliasName ≠ some collection := by
  rw [← Bool.not_eq_true, isTarget_iff, not_exists]

theorem target_eq_some : m.target aliasName = some index ↔
    ∃ collection, m.aliases.get aliasName = some collection ∧
      m.collections.get collection = some index := Option.bind_eq_some_iff

/-- An alias leads where it did when its entry and the entry of its collection stay. -/
theorem target_congr (halias : m'.aliases.get aliasName = m.aliases.get aliasName)
    (hcollection : ∀ c, m.aliases.get aliasName = some c →
      m'.collections.get c = m.collections.get c) :
    m'.target aliasName = m.target aliasName := by
  rw [target, target, halias]
  exact Option.bind_congr hcollection

/-! ## The operations -/

theorem any_ne_iff {expected : Option IndexRef} :
    (expected.any fun e ↦ decide (e ≠ index)) = true ↔ ¬∀ e ∈ expected, e = index := by
  rcases expected with - | e <;> simp

theorem registerCollectionAndPin_eq_ok : m.registerCollectionAndPin name index = .ok m' ↔
    m.collections.get name = none ∧
      m' = { m with collections := m.collections.insert name index } := by
  rw [registerCollectionAndPin, ← Option.not_isSome_iff_eq_none]
  split_ifs with h
  · simp [h]
  · simp [h, eq_comm]

theorem createAlias_eq_ok : m.createAlias aliasName collection = .ok m' ↔
    (∃ index, m.collections.get collection = some index) ∧ m.aliases.get aliasName = none ∧
      m' = { m with aliases := m.aliases.insert aliasName collection } := by
  rw [createAlias, ← Option.isSome_iff_exists, ← Option.not_isSome_iff_eq_none]
  split_ifs with hnone hsome
  · simp [Option.isNone_iff_eq_none.mp hnone]
  · simp [hsome]
  · have hreg : (m.collections.get collection).isSome := by
      rwa [Option.isNone_iff_eq_none, ← ne_eq, Option.ne_none_iff_isSome] at hnone
    simp [hreg, hsome, eq_comm]

theorem switchAlias_eq_ok {validated : Option IndexRef} :
    m.switchAlias aliasName collection validated = .ok (old, m') ↔
      ∃ index, m.collections.get collection = some index ∧ (∀ v ∈ validated, v = index) ∧
        m.aliases.get aliasName = some old ∧
        m' = { m with aliases := m.aliases.insert aliasName collection } := by
  rw [switchAlias]
  rcases hreg : m.collections.get collection with - | index
  · simp
  dsimp only
  split_ifs with hany
  · rw [any_ne_iff] at hany
    constructor
    · rintro ⟨⟩
    · rintro ⟨index', hindex, hall, -⟩
      exact (hany (Option.some.inj hindex ▸ hall)).elim
  rw [any_ne_iff, not_not] at hany
  rcases halias : m.aliases.get aliasName with - | actual
  · simp
  · constructor
    · intro h
      simp only [Except.ok.injEq, Prod.mk.injEq] at h
      exact ⟨index, rfl, hany, congrArg some h.1, h.2.symm⟩
    · rintro ⟨index', -, -, hold, rfl⟩
      rw [Option.some.inj hold]

theorem checkCurrent_eq_ok {expected new : String} {oldIndex newIndex : IndexRef} :
    m.checkCurrent aliasName expected oldIndex new newIndex = .ok () ↔
      m.collections.get new = some newIndex ∧ m.aliases.get aliasName = some expected ∧
        m.collections.get expected = some oldIndex := by
  rw [checkCurrent]
  rcases m.collections.get new with - | candidate
  · simp
  dsimp only
  split_ifs with hcandidate
  · simp [Ne.symm hcandidate]
  rcases m.aliases.get aliasName with - | actual
  · simp
  dsimp only
  split_ifs with hactual
  · simp [hactual]
  rw [not_not] at hcandidate hactual
  subst hcandidate hactual
  rcases m.collections.get actual with - | source
  · simp
  dsimp only
  split_ifs with hsource
  · simp [Ne.symm hsource]
  · simp [not_not.mp hsource]

theorem retireCollection_eq_ok {expected : Option IndexRef} :
    m.retireCollection collection expected = .ok (index, m') ↔
      m.collections.get collection = some index ∧ (∀ e ∈ expected, e = index) ∧
        (∀ aliasName, m.aliases.get aliasName ≠ some collection) ∧
        m' = { m with collections := m.collections.erase collection } := by
  rw [retireCollection, ← isTarget_eq_false]
  rcases m.collections.get collection with - | registered
  · simp
  dsimp only
  split_ifs with hany htarget
  · rw [any_ne_iff] at hany
    constructor
    · rintro ⟨⟩
    · rintro ⟨hreg, hall, -⟩
      exact (hany (Option.some.inj hreg ▸ hall)).elim
  · simp [htarget]
  · rw [any_ne_iff, not_not] at hany
    constructor
    · intro h
      simp only [Except.ok.injEq, Prod.mk.injEq] at h
      exact ⟨congrArg some h.1, h.1 ▸ hany, Bool.not_eq_true _ ▸ htarget, h.2.symm⟩
    · rintro ⟨hreg, -, -, rfl⟩
      rw [Option.some.inj hreg]

/-! ## Publication -/

variable {expected new : String}

theorem publish_aliases : (m.publish aliasName expected new).2.aliases =
    m.aliases.insert aliasName new := by
  rw [publish]
  split_ifs <;> rfl

/-- A collection that an alias names stays. -/
theorem publish_collections {x : String}
    (h : (m.publish aliasName expected new).2.aliases.get x = some collection) :
    (m.publish aliasName expected new).2.collections.get collection =
      m.collections.get collection := by
  rw [publish_aliases] at h
  rw [publish]
  split_ifs with htarget
  · rfl
  · have hne : collection ≠ expected := by
      rintro rfl
      exact htarget (isTarget_iff.mpr ⟨x, h⟩)
    exact (OrderedMap.get_erase _ _ _).trans (if_neg hne)

/-- A collection that is gone has no alias. -/
theorem aliases_of_publish_removes (hreg : m.collections.get collection = some index)
    (hgone : (m.publish aliasName expected new).2.collections.get collection ≠ some index)
    (x : String) : (m.publish aliasName expected new).2.aliases.get x ≠ some collection :=
  fun h ↦ hgone ((publish_collections h).trans hreg)

end IndexAliasManager

open IndexAliasManager

variable {w : World} {act : Action} {k : ℕ}

/-! ## Changes of the manager -/

/-- What an action does to the manager and to the number of allocated indexes. -/
inductive Change (w : World) : Action → IndexAliasManager → ℕ → Prop
  | same (act : Action) (nextIndex : ℕ) (hnext : w.nextIndex ≤ nextIndex) :
    Change w act w.manager nextIndex
  | register (act : Action) (name : String) (hfree : w.manager.collections.get name = none) :
    Change w act
      { w.manager with collections := w.manager.collections.insert name w.nextIndex }
      (w.nextIndex + 1)
  | createAlias (aliasName collection : String)
      (hreg : ∃ index, w.manager.collections.get collection = some index)
      (hfree : w.manager.aliases.get aliasName = none) :
    Change w (.createAlias aliasName collection)
      { w.manager with aliases := w.manager.aliases.insert aliasName collection } w.nextIndex
  | switchAlias (k : ℕ) (aliasName collection old : String) (validated : Option IndexRef)
      (index : IndexRef) (hready : w.switches k = .ready aliasName collection validated)
      (hreg : w.manager.collections.get collection = some index)
      (hvalidated : ∀ v ∈ validated, v = index)
      (hold : w.manager.aliases.get aliasName = some old) :
    Change w (.publishSwitch k)
      { w.manager with aliases := w.manager.aliases.insert aliasName collection } w.nextIndex
  | publish (k : ℕ) (c : Candidate) (hvalidated : w.migrations k = .validated c)
      (hnew : w.manager.collections.get c.newCollection = some c.newIndex)
      (halias : w.manager.aliases.get c.aliasName = some c.oldCollection)
      (hold : w.manager.collections.get c.oldCollection = some c.oldIndex) :
    Change w (.publishCandidate k)
      (w.manager.publish c.aliasName c.oldCollection c.newCollection).2 w.nextIndex
  | retire (act : Action) (collection : String)
      (hfree : ∀ aliasName, w.manager.aliases.get aliasName ≠ some collection) :
    Change w act
      { w.manager with collections := w.manager.collections.erase collection } w.nextIndex

/-- The section does nothing. -/
theorem Change.refl (act : Action) : Change w act w.manager w.nextIndex := .same act _ le_rfl

theorem registerCollection_change (name : String) : Change w (.registerCollection name)
    (w.registerCollection name).manager (w.registerCollection name).nextIndex := by
  rw [World.registerCollection]
  rcases h : w.manager.registerCollectionAndPin name w.nextIndex with e | manager
  · exact .same _ _ (Nat.le_succ _)
  · obtain ⟨hfree, rfl⟩ := registerCollectionAndPin_eq_ok.mp h
    exact .register _ name hfree

theorem createAlias_change (aliasName collection : String) :
    Change w (.createAlias aliasName collection) (w.createAlias aliasName collection).manager
      (w.createAlias aliasName collection).nextIndex := by
  rw [World.createAlias]
  rcases h : w.manager.createAlias aliasName collection with e | manager
  · exact .refl _
  · obtain ⟨hreg, hfree, rfl⟩ := createAlias_eq_ok.mp h
    exact .createAlias aliasName collection hreg hfree

theorem drainAndRemove_change (collection : String) : Change w (.drainAndRemove collection)
    (w.drainAndRemove collection).manager (w.drainAndRemove collection).nextIndex := by
  rw [World.drainAndRemove]
  rcases h : w.manager.retireCollection collection none with e | ⟨index, manager⟩
  · exact .refl _
  · obtain ⟨-, -, hfree, rfl⟩ := retireCollection_eq_ok.mp h
    exact .retire _ collection hfree

theorem publishSwitch_change (k : ℕ) : Change w (.publishSwitch k) (w.publishSwitch k).manager
    (w.publishSwitch k).nextIndex := by
  rw [World.publishSwitch]
  split
  · rename_i aliasName collection validated hready
    rcases h : w.manager.switchAlias aliasName collection validated with e | ⟨old, manager⟩
    · exact .refl _
    · obtain ⟨index, hreg, hvalidated, hold, rfl⟩ := switchAlias_eq_ok.mp h
      exact .switchAlias k aliasName collection old validated index hready hreg hvalidated hold
  · exact .refl _

theorem exposeCandidate_change (k : ℕ) (built : Except AliasError Unit) :
    Change w (.exposeCandidate k built) (w.exposeCandidate k built).manager
      (w.exposeCandidate k built).nextIndex := by
  rw [World.exposeCandidate]
  split
  · rename_i s name hnamed
    rcases built with e | -
    · exact .refl _
    rcases h : w.manager.registerCollectionAndPin name w.nextIndex with e | manager
    · exact .same _ _ (Nat.le_succ _)
    · obtain ⟨hfree, rfl⟩ := registerCollectionAndPin_eq_ok.mp h
      exact .register _ name hfree
  · exact .refl _

theorem publishMigrationIfCurrent_eq_ok {m m' : IndexAliasManager} {c : Candidate}
    {retired : Option IndexRef} : m.publishMigrationIfCurrent c.aliasName c.oldCollection c.oldIndex
      c.newCollection c.newIndex = .ok (retired, m') ↔
    m.checkCurrent c.aliasName c.oldCollection c.oldIndex c.newCollection c.newIndex = .ok () ∧
      (retired, m') = m.publish c.aliasName c.oldCollection c.newCollection := by
  rw [publishMigrationIfCurrent]
  rcases m.checkCurrent c.aliasName c.oldCollection c.oldIndex c.newCollection c.newIndex with e | -
  · simp [Except.map]
  · simp [Except.map, eq_comm]

theorem publishCandidate_change (k : ℕ) : Change w (.publishCandidate k)
    (w.publishCandidate k).manager (w.publishCandidate k).nextIndex := by
  rw [World.publishCandidate]
  split
  · rename_i c hvalidated
    rcases h : w.manager.publishMigrationIfCurrent c.aliasName c.oldCollection c.oldIndex
      c.newCollection c.newIndex with e | ⟨retired, manager⟩
    · exact .refl _
    · obtain ⟨hcheck, hpublish⟩ := publishMigrationIfCurrent_eq_ok.mp h
      obtain ⟨hnew, halias, hold⟩ := checkCurrent_eq_ok.mp hcheck
      obtain rfl : manager = _ := congrArg Prod.snd hpublish
      exact .publish k c hvalidated hnew halias hold
  · exact .refl _

theorem cleanUp_change (k : ℕ) : Change w (.cleanUp k) (w.cleanUp k).manager
    (w.cleanUp k).nextIndex := by
  rw [World.cleanUp]
  split
  · rename_i c e hfailed
    rcases h : w.manager.retireCollection c.newCollection (some c.newIndex) with
      e | ⟨index, manager⟩
    · exact .refl _
    · obtain ⟨-, -, hfree, rfl⟩ := retireCollection_eq_ok.mp h
      exact .retire _ c.newCollection hfree
  · exact .refl _

/-- A section that leaves the manager and the allocated indexes alone. -/
theorem Change.of_eq {w' : World} (hmanager : w'.manager = w.manager)
    (hnext : w'.nextIndex = w.nextIndex) : Change w act w'.manager w'.nextIndex := by
  rw [hmanager, hnext]
  exact .refl act

/-- What an action can do to the manager. -/
theorem step_change (w : World) (act : Action) :
    Change w act (w.step act).manager (w.step act).nextIndex := by
  cases act with
  | registerCollection name => exact registerCollection_change name
  | createAlias aliasName collection => exact createAlias_change aliasName collection
  | acquireReader aliasName =>
    apply Change.of_eq <;> (rw [World.step, World.acquireReader]; split <;> rfl)
  | dropReader index => exact .refl _
  | drainAndRemove collection => exact drainAndRemove_change collection
  | startSwitch k aliasName collection validator =>
    apply Change.of_eq <;>
      (rw [World.step, World.startSwitch.eq_def]; repeat' split <;> try rfl)
  | publishSwitch k => exact publishSwitch_change k
  | resolveAlias k aliasName =>
    apply Change.of_eq <;> (rw [World.step, World.resolveAlias]; repeat' split <;> try rfl)
  | captureIndex k =>
    apply Change.of_eq <;> (rw [World.step, World.captureIndex]; repeat' split <;> try rfl)
  | nameCandidate k millis sequence =>
    apply Change.of_eq <;> (rw [World.step, World.nameCandidate]; split <;> rfl)
  | exposeCandidate k built => exact exposeCandidate_change k built
  | validateCandidate k validator =>
    apply Change.of_eq <;> (rw [World.step, World.validateCandidate]; repeat' split <;> try rfl)
  | publishCandidate k => exact publishCandidate_change k
  | cleanUp k => exact cleanUp_change k

end IndexAlias

end Khive
