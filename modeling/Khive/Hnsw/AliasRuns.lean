import Khive.Hnsw.AliasSteps

/-!
# Any interleaving

In every state of every run each alias names a registered collection, and what a migration holds
in its hands, some section of the run put there. Two migrations that captured one index through
one alias publish both only where the alias was switched back in between.
-/

namespace Khive

namespace IndexAlias

open IndexAliasManager

variable {w : World} {act : Action} {k : ℕ} {as : List Action}

/-! ## Advances of a migration -/

/-- What an action does to the `k`-th migration. -/
inductive Advance (w : World) (k : ℕ) : Action → Migration → Migration → Prop
  | same (act : Action) (migration : Migration) : Advance w k act migration migration
  | resolve (aliasName old : String) (hold : w.manager.aliases.get aliasName = some old) :
    Advance w k (.resolveAlias k aliasName) .idle (.resolved aliasName old)
  | capture (s : Source) (hreg : w.manager.collections.get s.oldCollection = some s.oldIndex) :
    Advance w k (.captureIndex k) (.resolved s.aliasName s.oldCollection) (.captured s)
  | name (s : Source) (millis sequence : ℕ) (collection : String) :
    Advance w k (.nameCandidate k millis sequence) (.captured s) (.named s collection)
  | expose (s : Source) (collection : String)
      (hfree : w.manager.collections.get collection = none)
      (hmanager : (w.step (.exposeCandidate k (.ok ()))).manager.collections =
        w.manager.collections.insert collection w.nextIndex)
      (hnext : (w.step (.exposeCandidate k (.ok ()))).nextIndex = w.nextIndex + 1) :
    Advance w k (.exposeCandidate k (.ok ())) (.named s collection)
      (.exposed ⟨s, collection, w.nextIndex⟩)
  | validate (c : Candidate) (validator : Option (IndexRef → Except AliasError Unit))
      (haccepts : ∀ validate ∈ validator, validate c.newIndex = .ok ()) :
    Advance w k (.validateCandidate k validator) (.exposed c) (.validated c)
  | reject (act : Action) (c : Candidate) (e : AliasError) :
    Advance w k act (.exposed c) (.failed c e)
  | publish (c : Candidate) (retired : Option IndexRef) :
    Advance w k (.publishCandidate k) (.validated c) (.published c retired)
  | lose (act : Action) (c : Candidate) (e : AliasError) :
    Advance w k act (.validated c) (.failed c e)
  | answer (act : Action) (migration : Migration) (e : AliasError) :
    Advance w k act migration (.returned e)

theorem setMigration_migrations (w : World) (j : ℕ) (migration : Migration) :
    (w.setMigration k migration).migrations j = if j = k then migration else w.migrations j :=
  Function.update_apply _ _ _ _

theorem setMigration_self (w : World) (k : ℕ) (migration : Migration) :
    (w.setMigration k migration).migrations k = migration :=
  (setMigration_migrations w k migration).trans (if_pos rfl)

/-- A migration waits while other operations run. -/
theorem step_migrations_of_ne (h : act.migration? ≠ some k) :
    (w.step act).migrations k = w.migrations k := by
  have hne : ∀ j, act.migration? = some j → k ≠ j := by
    rintro j hj rfl
    exact h hj
  -- a section of a migration writes its own state only, the other sections write none
  cases act with
  | registerCollection name => rw [World.step, World.registerCollection]; split <;> rfl
  | createAlias aliasName collection => rw [World.step, World.createAlias]; split <;> rfl
  | acquireReader aliasName => rw [World.step, World.acquireReader]; split <;> rfl
  | dropReader index => rfl
  | drainAndRemove collection => rw [World.step, World.drainAndRemove]; split <;> rfl
  | startSwitch j aliasName collection validator =>
    rw [World.step, World.startSwitch.eq_def]
    repeat' split
    all_goals rfl
  | publishSwitch j =>
    rw [World.step, World.publishSwitch]
    repeat' split
    all_goals rfl
  | resolveAlias j aliasName =>
    rw [World.step, World.resolveAlias]
    repeat' split
    all_goals first | rfl | exact (setMigration_migrations _ _ _).trans (if_neg (hne j rfl))
  | captureIndex j =>
    rw [World.step, World.captureIndex]
    repeat' split
    all_goals first | rfl | exact (setMigration_migrations _ _ _).trans (if_neg (hne j rfl))
  | nameCandidate j millis sequence =>
    rw [World.step, World.nameCandidate]
    repeat' split
    all_goals first | rfl | exact (setMigration_migrations _ _ _).trans (if_neg (hne j rfl))
  | exposeCandidate j built =>
    rw [World.step, World.exposeCandidate]
    repeat' split
    all_goals first | rfl | exact (setMigration_migrations _ _ _).trans (if_neg (hne j rfl))
  | validateCandidate j validator =>
    rw [World.step, World.validateCandidate]
    repeat' split
    all_goals first | rfl | exact (setMigration_migrations _ _ _).trans (if_neg (hne j rfl))
  | publishCandidate j =>
    rw [World.step, World.publishCandidate]
    repeat' split
    all_goals first | rfl | exact (setMigration_migrations _ _ _).trans (if_neg (hne j rfl))
  | cleanUp j =>
    rw [World.step, World.cleanUp]
    repeat' split
    all_goals first | rfl | exact (setMigration_migrations _ _ _).trans (if_neg (hne j rfl))

theorem resolveAlias_advance (aliasName : String) : Advance w k (.resolveAlias k aliasName)
    (w.migrations k) ((w.resolveAlias k aliasName).migrations k) := by
  rw [World.resolveAlias]
  split
  · rename_i hidle
    rw [hidle]
    rcases hold : w.manager.aliases.get aliasName with - | old <;> dsimp only
    · rw [setMigration_self]
      exact .answer _ _ _
    · rw [setMigration_self]
      exact .resolve aliasName old hold
  · exact .same _ _

theorem captureIndex_advance : Advance w k (.captureIndex k) (w.migrations k)
    ((w.captureIndex k).migrations k) := by
  rw [World.captureIndex]
  split
  · rename_i aliasName old hresolved
    rw [hresolved]
    rcases hreg : w.manager.collections.get old with - | index <;> dsimp only
    · rw [setMigration_self]
      exact .answer _ _ _
    · rw [setMigration_self]
      exact .capture ⟨aliasName, old, index⟩ hreg
  · exact .same _ _

theorem nameCandidate_advance (millis sequence : ℕ) :
    Advance w k (.nameCandidate k millis sequence) (w.migrations k)
      ((w.nameCandidate k millis sequence).migrations k) := by
  rw [World.nameCandidate]
  split
  · rename_i s hcaptured
    rw [hcaptured, setMigration_self]
    exact .name s millis sequence _
  · exact .same _ _

theorem exposeCandidate_advance (built : Except AliasError Unit) :
    Advance w k (.exposeCandidate k built) (w.migrations k)
      ((w.step (.exposeCandidate k built)).migrations k) := by
  by_cases hnamed : ∃ s collection, w.migrations k = .named s collection
  · obtain ⟨s, collection, hk⟩ := hnamed
    rw [hk]
    rcases built with e | ⟨⟩
    · have hstep : w.step (.exposeCandidate k (.error e)) = w.setMigration k (.returned e) := by
        rw [World.step, World.exposeCandidate, hk]
      rw [hstep, setMigration_self]
      exact .answer _ _ _
    · -- the index is built, and its name may have been taken since
      rcases h : w.manager.registerCollectionAndPin collection w.nextIndex with e | manager
      · have hstep : w.step (.exposeCandidate k (.ok ())) =
            { w with nextIndex := w.nextIndex + 1 }.setMigration k (.returned e) := by
          rw [World.step, World.exposeCandidate, hk]
          dsimp only
          rw [h]
        rw [hstep, setMigration_self]
        exact .answer _ _ _
      · have hstep : w.step (.exposeCandidate k (.ok ())) =
            { w with manager, nextIndex := w.nextIndex + 1 }.setMigration k
              (.exposed ⟨s, collection, w.nextIndex⟩) := by
          rw [World.step, World.exposeCandidate, hk]
          dsimp only
          rw [h]
        obtain ⟨hfree, rfl⟩ := registerCollectionAndPin_eq_ok.mp h
        have hexposed := congrArg (World.migrations · k) hstep
        rw [setMigration_self] at hexposed
        rw [hexposed]
        exact .expose s collection hfree (congrArg (fun w ↦ w.manager.collections) hstep)
          (congrArg World.nextIndex hstep)
  · have hstep : w.step (.exposeCandidate k built) = w := by
      rw [World.step, World.exposeCandidate]
      split
      · rename_i s collection hk
        exact absurd ⟨s, collection, hk⟩ hnamed
      · rfl
    rw [hstep]
    exact .same _ _

theorem validateCandidate_advance (validator : Option (IndexRef → Except AliasError Unit)) :
    Advance w k (.validateCandidate k validator) (w.migrations k)
      ((w.validateCandidate k validator).migrations k) := by
  rw [World.validateCandidate]
  split
  · rename_i c hexposed
    rw [hexposed]
    rcases validator with - | validate <;> dsimp only
    · rw [setMigration_self]
      exact .validate c none (by simp)
    · rcases h : validate c.newIndex with e | ⟨⟩ <;> dsimp only
      · rw [setMigration_self]
        exact .reject _ c _
      · rw [setMigration_self]
        exact .validate c (some validate) (by simpa using h)
  · exact .same _ _

theorem publishCandidate_advance : Advance w k (.publishCandidate k) (w.migrations k)
    ((w.publishCandidate k).migrations k) := by
  rw [World.publishCandidate]
  split
  · rename_i c hvalidated
    rw [hvalidated]
    rcases w.manager.publishMigrationIfCurrent c.aliasName c.oldCollection c.oldIndex
      c.newCollection c.newIndex with e | ⟨retired, manager⟩ <;> dsimp only
    · rw [setMigration_self]
      exact .lose _ c e
    · rw [setMigration_self]
      exact .publish c retired
  · exact .same _ _

theorem cleanUp_advance : Advance w k (.cleanUp k) (w.migrations k)
    ((w.cleanUp k).migrations k) := by
  rw [World.cleanUp]
  split
  · rename_i c e hfailed
    rcases w.manager.retireCollection c.newCollection (some c.newIndex) with
      e' | ⟨index, manager⟩ <;> dsimp only
    · rw [setMigration_self]
      exact .answer _ _ _
    · rw [setMigration_self]
      exact .answer _ _ _
  · exact .same _ _

/-- What an action can do to a migration. -/
theorem step_advance (w : World) (act : Action) (k : ℕ) :
    Advance w k act (w.migrations k) ((w.step act).migrations k) := by
  by_cases hk : act.migration? = some k
  · cases act with
    | resolveAlias j aliasName =>
      obtain rfl : j = k := Option.some.inj hk
      exact resolveAlias_advance aliasName
    | captureIndex j =>
      obtain rfl : j = k := Option.some.inj hk
      exact captureIndex_advance
    | nameCandidate j millis sequence =>
      obtain rfl : j = k := Option.some.inj hk
      exact nameCandidate_advance millis sequence
    | exposeCandidate j built =>
      obtain rfl : j = k := Option.some.inj hk
      exact exposeCandidate_advance built
    | validateCandidate j validator =>
      obtain rfl : j = k := Option.some.inj hk
      exact validateCandidate_advance validator
    | publishCandidate j =>
      obtain rfl : j = k := Option.some.inj hk
      exact publishCandidate_advance
    | cleanUp j =>
      obtain rfl : j = k := Option.some.inj hk
      exact cleanUp_advance
    | _ => cases hk
  · rw [step_migrations_of_ne hk]
    exact .same _ _

/-! ## What a migration holds -/

/-- The migration resolves its alias to the collection. -/
def Resolves (k : ℕ) (aliasName old : String) (w : World) (act : Action) : Prop :=
  act = .resolveAlias k aliasName ∧ w.manager.aliases.get aliasName = some old

/-- The migration finds its old index under the collection. -/
def Captures (k : ℕ) (s : Source) (w : World) (act : Action) : Prop :=
  act = .captureIndex k ∧ w.manager.collections.get s.oldCollection = some s.oldIndex

/-- The migration allocates its candidate and registers it. -/
def Builds (k : ℕ) (c : Candidate) (w : World) (act : Action) : Prop :=
  act = .exposeCandidate k (.ok ()) ∧ w.nextIndex = c.newIndex ∧
    (w.step act).manager.collections = w.manager.collections.insert c.newCollection c.newIndex

/-- The migration's validator, when there is one, accepts the candidate. -/
def Accepts (k : ℕ) (c : Candidate) (_ : World) (act : Action) : Prop :=
  ∃ validator, act = .validateCandidate k validator ∧
    ∀ validate ∈ validator, validate c.newIndex = .ok ()

section Advance

variable {migration migration' : Migration} (h : Advance w k act migration migration')

include h

theorem Advance.resolved {aliasName old : String} (hm : migration' = .resolved aliasName old) :
    migration = .resolved aliasName old ∨ Resolves k aliasName old w act := by
  cases h with
  | same => exact Or.inl hm
  | resolve aliasName' old' hold =>
    obtain ⟨rfl, rfl⟩ := Migration.resolved.inj hm
    exact Or.inr ⟨rfl, hold⟩
  | _ => cases hm

theorem Advance.source? {s : Source} (hs : migration'.source? = some s) :
    migration.source? = some s ∨
      migration = .resolved s.aliasName s.oldCollection ∧ Captures k s w act := by
  cases h with
  | capture s' hreg =>
    obtain rfl : s' = s := Option.some.inj hs
    exact Or.inr ⟨rfl, rfl, hreg⟩
  | resolve => cases hs
  | answer => cases hs
  | _ => exact Or.inl hs

theorem Advance.candidate? {c : Candidate} (hc : migration'.candidate? = some c) :
    migration.candidate? = some c ∨ migration.source? = some c.toSource ∧
      (w.step act).nextIndex = w.nextIndex + 1 ∧ Builds k c w act := by
  cases h with
  | expose s collection hfree hmanager hnext =>
    obtain rfl : _ = c := Option.some.inj hc
    exact Or.inr ⟨rfl, hnext, rfl, rfl, hmanager⟩
  | resolve => cases hc
  | capture => cases hc
  | name => cases hc
  | answer => cases hc
  | _ => exact Or.inl hc

theorem Advance.accepted? {c : Candidate} (hc : migration'.accepted? = some c) :
    migration.accepted? = some c ∨ Accepts k c w act := by
  cases h with
  | validate c' validator haccepts =>
    obtain rfl : c' = c := Option.some.inj hc
    exact Or.inr ⟨validator, rfl, haccepts⟩
  | same => exact Or.inl hc
  | publish => exact Or.inl hc
  | _ => cases hc

end Advance

end IndexAlias

end Khive
