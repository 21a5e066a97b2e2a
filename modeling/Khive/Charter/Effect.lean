import Khive.Charter.Engine

/-!
# What an item of work does

Every item of work is on one run. It does nothing to a run that is closed; an advance of an open run
ends it when its subject has moved on, and else moves it as its current visit says; an ending closes
it, cancels its open children and is reported to an open parent; and a start of a child adds a run
that has entered its first phase.
-/

namespace Khive

namespace Charter

/-- The run is of its subject's epoch and generation. -/
def Run.Current (run : Run) (subject : Subject) : Prop :=
  run.subjectEpoch = subject.subjectEpoch ∧ run.generation = subject.generation

instance (run : Run) (subject : Subject) : Decidable (run.Current subject) :=
  inferInstanceAs (Decidable (_ ∧ _))

namespace Session

variable {s : Session} {e e' : Engine} {runId charterId childRunId : String} {run : Run}
  {subject : Subject} {how : Ending} {reason : Option String} {work : Work}

/-- An open run of the session's domain, with its subject. -/
structure Open (s : Session) (store : Store) (run : Run) (subject : Subject) : Prop where
  held : store.runs.get run.runId = some run
  subject : store.subjects.get run.subjectId = some subject
  domain : run.policyDomain = s.scope.domain
  state : run.state = .open

theorem own_eq_ok {store : Store} :
    s.own store runId = .ok run ↔
      store.runs.get runId = some run ∧ run.policyDomain = s.scope.domain := by
  rw [own, okOr_eq_ok, Store.runIn?_eq_some]

theorem definition_eq_ok {charterId : String} {version : Int} {definition : Definition} :
    s.definition charterId version = .ok definition ↔
      ∃ row, s.world.getDefinition s.scope.domain charterId version = some row ∧
        row.definition = definition := by
  simp only [Session.definition, bind_eq_ok, okOr_eq_ok, pure_eq_ok]

/-! ## Advancing -/

/-- What an advance does. -/
inductive Advances (s : Session) (e : Engine) : String → Engine → Prop
  | closed {run : Run} (held : e.store.runs.get run.runId = some run) (state : run.state ≠ .open) :
    Advances s e run.runId e
  | stale {run : Run} {subject : Subject} (held : e.store.runs.get run.runId = some run)
    (hsubject : e.store.subjects.get run.subjectId = some subject) (state : run.state = .open)
    (hstale : ¬run.Current subject) :
    Advances s e run.runId
      { e with queue := .end run.runId .superseded (some staleReason) :: e.queue }
  | moves {run moved : Run} {subject : Subject} {row : DefinitionRow} {events : List Event}
    {onward : Onward} (hopen : s.Open e.store run subject) (hcurrent : run.Current subject)
    (hrow : s.world.getDefinition s.scope.domain run.charterId run.definitionVersion = some row)
    (hmoves : Run.Moves s.digest row.definition run moved events onward) :
    Advances s e run.runId (written e moved (onward.work run.runId) events)

theorem advance_cases (h : s.advance runId e = .ok e') : s.Advances e runId e' := by
  rw [advance, bind_eq_ok] at h
  obtain ⟨⟨run, subject⟩, hload, h⟩ := h
  obtain ⟨hget, hsubject⟩ := Store.loadRun_eq_some.mp (okOr_eq_ok.mp hload)
  obtain rfl := Table.key_of_get hget
  dsimp only at h
  by_cases hstate : run.state = .open
  · rw [if_neg (not_not_intro hstate), bind_eq_ok] at h
    obtain ⟨held, hheld, h⟩ := h
    rw [okOr_eq_ok, Store.subject?_of_get hsubject, Option.some.injEq] at hheld
    subst hheld
    by_cases hcurrent : run.Current subject
    · have hmatches : ¬(run.subjectEpoch ≠ subject.subjectEpoch ∨
          run.generation ≠ subject.generation) :=
        not_or.mpr ⟨not_not_intro hcurrent.1, not_not_intro hcurrent.2⟩
      rw [if_neg hmatches, bind_eq_ok] at h
      obtain ⟨definition, hdefinition, h⟩ := h
      obtain ⟨row, hrow, rfl⟩ := definition_eq_ok.mp hdefinition
      obtain ⟨own, hown, h⟩ := bind_eq_ok.mp h
      obtain ⟨hown, hdomain⟩ := own_eq_ok.mp hown
      rw [hget, Option.some.injEq] at hown
      subst hown
      obtain ⟨⟨moved, events, onward⟩, hadvance, h⟩ := bind_eq_ok.mp h
      rw [← pure_eq_ok.mp h]
      exact .moves ⟨hget, hsubject, hdomain, hstate⟩ hcurrent hrow (Run.advance_cases hadvance)
    · -- the subject has moved on, and the run is to be superseded
      have hmatches : run.subjectEpoch ≠ subject.subjectEpoch ∨
          run.generation ≠ subject.generation := not_and_or.mp hcurrent
      rw [if_pos hmatches, pure_eq_ok] at h
      rw [← h]
      exact .stale hget hsubject hstate hcurrent
  · rw [if_pos hstate, pure_eq_ok] at h
    rw [← h]
    exact .closed hget hstate

/-! ## Ending -/

/-- What a report of an ending does. -/
inductive Reports (s : Session) (run : Run) (how : Ending) (reason : Option String)
    (e : Engine) : Engine → Prop
  | unreported (hparent : ∀ parentId, run.parentRunId = some parentId → ∀ parent subject,
      e.store.loadRun parentId = some (parent, subject) → parent.state ≠ .open) :
    Reports s run how reason e e
  | reported {parent recorded : Run} {subject : Subject} {fresh : Bool}
    (hparent : run.parentRunId = some parent.runId) (hopen : s.Open e.store parent subject)
    (happend : parent.append s.digest (run.reportRow how reason) = .ok (recorded, fresh)) :
    Reports s run how reason e (written e recorded [.advance parent.runId] [])

theorem report_cases (h : s.report run how reason e = .ok e') :
    s.Reports run how reason e e' := by
  rw [report] at h
  cases hparent : run.parentRunId with
  | none =>
    rw [hparent] at h
    rw [← pure_eq_ok.mp h]
    exact .unreported fun parentId hid ↦ by rw [hparent] at hid; cases hid
  | some parentId =>
    rw [hparent] at h
    dsimp only at h
    by_cases hopen : (e.store.loadRun parentId).any fun parent ↦ parent.1.state = .open
    · rw [if_pos hopen] at h
      obtain ⟨parent, hown, h⟩ := bind_eq_ok.mp h
      obtain ⟨⟨recorded, fresh⟩, happend, h⟩ := bind_eq_ok.mp h
      obtain ⟨hget, hdomain⟩ := own_eq_ok.mp hown
      obtain rfl := Table.key_of_get hget
      obtain ⟨⟨parent', subject⟩, hload, hstate⟩ := (Option.any_eq_true _ _).mp hopen
      obtain ⟨hget', hsubject⟩ := Store.loadRun_eq_some.mp hload
      rw [hget, Option.some.injEq] at hget'
      subst hget'
      rw [← pure_eq_ok.mp h]
      exact .reported hparent ⟨hget, hsubject, hdomain, by simpa using hstate⟩ happend
    · rw [if_neg hopen] at h
      rw [← pure_eq_ok.mp h]
      refine .unreported fun parentId' hid parent subject hload hstate ↦ hopen ?_
      rw [hparent, Option.some.injEq] at hid
      subst hid
      rw [hload, Option.any_some, decide_eq_true_iff]
      exact hstate

/-- What an ending does. -/
inductive Ends (s : Session) (e : Engine) (how : Ending) (reason : Option String) :
    String → Engine → Prop
  | closed {run : Run} (held : e.store.runs.get run.runId = some run) (hstate : run.state ≠ .open) :
    Ends s e how reason run.runId e
  | closes {run recorded : Run} {subject : Subject} {fresh : Bool} {e' : Engine}
    (hopen : s.Open e.store run subject)
    (happend : run.left.append s.digest (run.left.endedRow how reason) = .ok (recorded, fresh))
    (hreport : s.Reports run how reason
      (s.closing e run (recorded.finish how) how reason) e') :
    Ends s e how reason run.runId e'

theorem endRun_cases (h : s.endRun runId how reason e = .ok e') :
    s.Ends e how reason runId e' := by
  rw [endRun, bind_eq_ok] at h
  obtain ⟨⟨run, subject⟩, hload, h⟩ := h
  obtain ⟨hget, hsubject⟩ := Store.loadRun_eq_some.mp (okOr_eq_ok.mp hload)
  obtain rfl := Table.key_of_get hget
  dsimp only at h
  by_cases hstate : run.state = .open
  · rw [if_neg (not_not_intro hstate), bind_eq_ok] at h
    obtain ⟨own, hown, h⟩ := h
    obtain ⟨hown, hdomain⟩ := own_eq_ok.mp hown
    rw [hget, Option.some.injEq] at hown
    subst hown
    obtain ⟨⟨recorded, fresh⟩, happend, h⟩ := bind_eq_ok.mp h
    obtain ⟨-, h⟩ := guard_eq_ok.mp h
    exact .closes ⟨hget, hsubject, hdomain, hstate⟩ happend (report_cases h)
  · rw [if_pos hstate, pure_eq_ok] at h
    rw [← h]
    exact .closed hget hstate

/-! ## Starting -/

/-- What a start of a run does: `run` is inserted and enters its first phase. -/
inductive Begins (s : Session) (e : Engine) (definition : Definition) (run : Run) : Engine → Prop
  | begins {runs : Table Run String Run.runId} {subject : Subject} {first : PhaseDef}
    {entered : Run} {events : List Event} {performs : List String}
    (hinsert : e.store.runs.insert run = some runs) (hid : run.runId ≠ "")
    (hparent : ∀ parentId, run.parentRunId = some parentId →
      ∃ parent, e.store.runs.get parentId = some parent ∧ parent.policyDomain = s.scope.domain)
    (hsubject : e.store.subjects.get run.subjectId = some subject)
    (hphases : definition.insertable s.scope.actor = true)
    (hfirst : definition.phases.head? = some first)
    (henter : Run.Enters s.digest definition run first.id entered events performs) :
    Begins s e definition run (started e runs entered events performs)

theorem startRun_cases {row : DefinitionRow} {subjectId : String} {epoch : Nat}
    {generation : Option String} {bindings : List (String × String)} {parentRunId : Option String}
    (h : s.startRun row subjectId epoch generation bindings parentRunId e = .ok (e', childRunId)) :
    childRunId = s.draw e.drawn ∧
      s.Begins e row.definition (s.newRun row.definition (s.draw e.drawn) subjectId epoch generation
        bindings parentRunId) e' := by
  rw [startRun] at h
  obtain ⟨hparent, h⟩ := guard_eq_ok.mp h
  obtain ⟨runs, hinsert, h⟩ := bind_eq_ok.mp h
  obtain ⟨hrow, h⟩ := guard_eq_ok.mp h
  obtain ⟨hphases, h⟩ := guard_eq_ok.mp h
  obtain ⟨first, hfirst, h⟩ := bind_eq_ok.mp h
  obtain ⟨⟨entered, events, performs⟩, henter, h⟩ := bind_eq_ok.mp h
  obtain ⟨rfl, rfl⟩ := Prod.mk.inj (pure_eq_ok.mp h)
  simp only [not_or] at hrow
  obtain ⟨subject, hsubject⟩ := Option.ne_none_iff_exists'.mp
    (fun hnone ↦ hrow.2.2 (Option.isNone_iff_eq_none.mpr hnone))
  refine ⟨rfl, .begins (okOr_eq_ok.mp hinsert) hrow.1 ?_ hsubject (not_not.mp hphases)
    (okOr_eq_ok.mp hfirst) (Run.enter_cases henter)⟩
  intro parentId hid
  have hall := not_not.mp hparent
  rw [show parentRunId = some parentId from hid, Option.all_some] at hall
  obtain ⟨parent, hget⟩ := Option.isSome_iff_exists.mp hall
  exact ⟨parent, Store.runIn?_eq_some.mp hget⟩

/-- What a start of a child does. -/
inductive Starts (s : Session) (e : Engine) (charterId : String) : String → Engine → Prop
  | closed {run : Run} (held : e.store.runs.get run.runId = some run) (hstate : run.state ≠ .open) :
    Starts s e charterId run.runId e
  | unpublished {parent recorded : Run} {subject : Subject} {fresh : Bool}
    (hopen : s.Open e.store parent subject)
    (hrow : s.world.latestDefinition s.scope.domain charterId = none)
    (happend : parent.append s.digest (parent.unpublishedRow charterId (s.draw e.drawn)) =
      .ok (recorded, fresh)) :
    Starts s e charterId parent.runId
      { written e recorded [.advance parent.runId] [] with drawn := e.drawn + 1 }
  | starts {parent recorded : Run} {subject : Subject} {row : DefinitionRow}
    {bindings : List (String × String)} {phaseRow : PhaseRow} {fresh : Bool} {e' : Engine}
    (hopen : s.Open e.store parent subject)
    (hrow : s.world.latestDefinition s.scope.domain charterId = some row)
    (hkind : row.definition.subject = subject.subjectKind)
    (hancestry : ancestry e.store charterId (e.store.runs.rows.length + 1) [] parent.runId = .ok ())
    (hphase : parent.currentPhaseId = some phaseRow.phaseId)
    (hphaseRow : parent.phaseRow phaseRow.phaseId = some phaseRow)
    (hbegins : s.Begins e row.definition (s.newRun row.definition (s.draw e.drawn)
      parent.subjectId subject.subjectEpoch parent.generation bindings (some parent.runId)) e')
    (happend : parent.append s.digest
      (parent.startedRow charterId (s.draw e.drawn) phaseRow.phaseId phaseRow.round) =
        .ok (recorded, fresh)) :
    Starts s e charterId parent.runId { e' with store := e'.store.put recorded }

/-- A run that is held is held after another is inserted. -/
theorem Begins.get {definition : Definition} {newRun : Run}
    (h : s.Begins e definition newRun e') (hget : e.store.runs.get runId = some run) :
    e'.store.runs.get runId = some run := by
  cases h with
  | begins hinsert _ _ _ _ _ henter =>
    have hid := henter.extends.runId
    have hne : runId ≠ newRun.runId := by
      rintro rfl
      rw [(Table.insert_eq_some.mp hinsert).1] at hget
      cases hget
    rw [started, Table.get_put_of_ne (by rw [hid]; exact hne), Table.get_insert hinsert,
      if_neg hne, hget]

theorem startChild_cases (h : s.startChild runId charterId e = .ok e') :
    s.Starts e charterId runId e' := by
  rw [startChild, bind_eq_ok] at h
  obtain ⟨⟨parent, subject⟩, hload, h⟩ := h
  obtain ⟨hget, hsubject⟩ := Store.loadRun_eq_some.mp (okOr_eq_ok.mp hload)
  obtain rfl := Table.key_of_get hget
  dsimp only at h
  by_cases hstate : parent.state = .open
  · rw [if_neg (not_not_intro hstate), seq_eq_ok] at h
    obtain ⟨hancestry, h⟩ := h
    cases hrow : s.world.latestDefinition s.scope.domain charterId with
    | none =>
      rw [hrow] at h
      obtain ⟨own, hown, h⟩ := bind_eq_ok.mp h
      obtain ⟨hown, hdomain⟩ := own_eq_ok.mp hown
      rw [hget, Option.some.injEq] at hown
      subst hown
      obtain ⟨⟨recorded, fresh⟩, happend, h⟩ := bind_eq_ok.mp h
      rw [← pure_eq_ok.mp h]
      exact .unpublished ⟨hget, hsubject, hdomain, hstate⟩ hrow happend
    | some row =>
      rw [hrow] at h
      obtain ⟨hkind, h⟩ := guard_eq_ok.mp h
      obtain ⟨phaseId, hphase, h⟩ := bind_eq_ok.mp h
      obtain ⟨own, hown, h⟩ := bind_eq_ok.mp h
      obtain ⟨hown, hdomain⟩ := own_eq_ok.mp hown
      rw [hget, Option.some.injEq] at hown
      subst hown
      obtain ⟨phaseRow, hphaseRow, h⟩ := bind_eq_ok.mp h
      obtain ⟨⟨e₁, childRunId⟩, hstart, h⟩ := bind_eq_ok.mp h
      obtain ⟨own', hown', h⟩ := bind_eq_ok.mp h
      obtain ⟨⟨recorded, fresh⟩, happend, h⟩ := bind_eq_ok.mp h
      rw [← pure_eq_ok.mp h]
      obtain ⟨hchild, hbegins⟩ := startRun_cases hstart
      rw [Store.subject?_of_get hsubject, Option.map_some, Option.getD_some] at hbegins
      -- starting the child has left the parent as it was read
      have hparent := hbegins.get hget
      rw [(own_eq_ok.mp hown').1, Option.some.injEq] at hparent
      subst hparent
      dsimp only at happend
      rw [hchild] at happend
      rw [okOr_eq_ok] at hphase hphaseRow
      obtain rfl : phaseRow.phaseId = phaseId := by
        simpa using List.find?_some hphaseRow
      exact .starts ⟨hget, hsubject, hdomain, hstate⟩ hrow (not_not.mp hkind) hancestry hphase
        hphaseRow hbegins happend
  · rw [if_pos hstate, pure_eq_ok] at h
    rw [← h]
    exact .closed hget hstate

/-! ## Settling -/

/-- What every item of work preserves holds when the queue is drained. -/
theorem settle_induction {P : Engine → Prop}
    (hstep : ∀ work rest e e', e.queue = work :: rest →
      s.perform work { e with queue := rest } = .ok e' → P e → P e')
    (h : s.settle e = .ok e') (he : P e) : P e' ∧ e'.queue = [] := by
  rw [settle] at h
  generalize stepLimit = limit at h
  induction limit generalizing e with
  | zero =>
    rw [settleWithin] at h
    cases hqueue : e.queue with
    | nil =>
      rw [hqueue] at h
      obtain rfl := pure_eq_ok.mp h
      exact ⟨he, hqueue⟩
    | cons work rest =>
      rw [hqueue] at h
      exact absurd h throw_ne_ok
  | succ limit ih =>
    rw [settleWithin] at h
    cases hqueue : e.queue with
    | nil =>
      rw [hqueue] at h
      obtain rfl := pure_eq_ok.mp h
      exact ⟨he, hqueue⟩
    | cons work rest =>
      rw [hqueue] at h
      obtain ⟨e₁, hperform, h⟩ := bind_eq_ok.mp h
      exact ih (hstep work rest e e₁ hqueue hperform he) h

/-- What the work of a session leaves of a store: subjects and triggers stay, closed runs and runs of
other domains do not change, and open runs keep their pins and their evidence. -/
structure Grows (s : Session) (store store' : Store) : Prop where
  subjects : store'.subjects = store.subjects
  triggers : store'.triggers = store.triggers
  kept : ∀ run, store.runs.get run.runId = some run →
    ∃ run', store'.runs.get run.runId = some run' ∧ run.Extends run' ∧
      (run.state ≠ .open ∨ run.policyDomain ≠ s.scope.domain → run' = run)
  added : ∀ run', store'.runs.get run'.runId = some run' → store.runs.get run'.runId = none →
    run'.policyDomain = s.scope.domain ∧ (store'.subjects.get run'.subjectId).isSome = true ∧
      ∀ parentId, run'.parentRunId = some parentId →
        ∃ parent, store'.runs.get parentId = some parent ∧ parent.policyDomain = s.scope.domain

variable {store store' store'' : Store}

/-- A run is new, or a later state of a run that was held. -/
theorem Grows.origin (h : s.Grows store store') (hrun : store'.runs.get run.runId = some run) :
    store.runs.get run.runId = none ∨
      ∃ old, store.runs.get old.runId = some old ∧ old.Extends run ∧
        (old.state ≠ .open ∨ old.policyDomain ≠ s.scope.domain → run = old) := by
  cases hold : store.runs.get run.runId with
  | none => exact Or.inl rfl
  | some old =>
    have hid := Table.key_of_get hold
    rw [← hid] at hold
    obtain ⟨run', hrun', hext, hsame⟩ := h.kept old hold
    rw [hid, hrun, Option.some.injEq] at hrun'
    subst hrun'
    exact Or.inr ⟨old, hold, hext, hsame⟩

/-- An open run was open before, unless it is new. -/
theorem Grows.origin_open (h : s.Grows store store')
    (hrun : store'.runs.get run.runId = some run) (hopen : run.state = .open) :
    store.runs.get run.runId = none ∨
      ∃ old, store.runs.get old.runId = some old ∧ old.state = .open ∧ old.Extends run := by
  refine (h.origin hrun).imp_right ?_
  rintro ⟨old, hold, hext, hsame⟩
  refine ⟨old, hold, ?_, hext⟩
  by_contra hclosed
  rw [hsame (Or.inl hclosed)] at hopen
  exact hclosed hopen

theorem Grows.refl (s : Session) (store : Store) : s.Grows store store where
  subjects := rfl
  triggers := rfl
  kept run h := ⟨run, h, Run.Extends.refl run, fun _ ↦ rfl⟩
  added run' h hnone := by rw [h] at hnone; cases hnone

theorem Grows.trans (h : s.Grows store store') (h' : s.Grows store' store'') :
    s.Grows store store'' where
  subjects := h'.subjects.trans h.subjects
  triggers := h'.triggers.trans h.triggers
  kept run hrun := by
    obtain ⟨run', hrun', hext, hsame⟩ := h.kept run hrun
    rw [← hext.runId] at hrun'
    obtain ⟨run'', hrun'', hext', hsame'⟩ := h'.kept run' hrun'
    refine ⟨run'', by rw [← hext.runId]; exact hrun'', hext.trans hext', fun hfixed ↦ ?_⟩
    obtain rfl := hsame hfixed
    exact hsame' hfixed
  added run'' hrun'' hnone := by
    cases hrun' : store'.runs.get run''.runId with
    | none => exact h'.added run'' hrun'' hrun'
    | some run' =>
      -- the run is new in the first step, and may have gone on in the second
      obtain rfl | hne := eq_or_ne run' run''
      · obtain ⟨hdomain, hsubject, hparent⟩ := h.added run' hrun' hnone
        refine ⟨hdomain, by rw [h'.subjects]; exact hsubject, fun parentId hid ↦ ?_⟩
        obtain ⟨parent, hget, hdomain'⟩ := hparent parentId hid
        obtain rfl := Table.key_of_get hget
        obtain ⟨parent', hget', hext, -⟩ := h'.kept parent hget
        exact ⟨parent', hget', hext.policyDomain.trans hdomain'⟩
      · have hid := Table.key_of_get hrun'
        rw [← hid] at hrun'
        obtain ⟨run₂, hrun₂, hext, -⟩ := h'.kept run' hrun'
        rw [hid, hrun'', Option.some.injEq] at hrun₂
        subst hrun₂
        rw [← hid] at hnone
        obtain ⟨hdomain, hsubject, hparent⟩ := h.added run' hrun' hnone
        refine ⟨hext.policyDomain.trans hdomain, ?_, fun parentId hp ↦ ?_⟩
        · rw [h'.subjects, hext.subjectId]
          exact hsubject
        · rw [hext.parentRunId] at hp
          obtain ⟨parent, hget, hdomain'⟩ := hparent parentId hp
          obtain rfl := Table.key_of_get hget
          obtain ⟨parent', hget', hext', -⟩ := h'.kept parent hget
          exact ⟨parent', hget', hext'.policyDomain.trans hdomain'⟩

/-- Writing back a later state of an open run of the domain. -/
theorem Open.grows (hopen : s.Open store run subject) {run' : Run} (hext : run.Extends run') :
    s.Grows store (store.put run') where
  subjects := rfl
  triggers := rfl
  kept held hheld := by
    have hget : store.runs.get run'.runId = some run := by rw [hext.runId]; exact hopen.held
    by_cases h : held.runId = run'.runId
    · have hsame : held = run := by
        rw [h, hget, Option.some.injEq] at hheld
        exact hheld.symm
      subst hsame
      refine ⟨run', by rw [h]; exact Table.get_put_self hget, hext, ?_⟩
      rintro (hstate | hdomain)
      · exact absurd hopen.state hstate
      · exact absurd hopen.domain hdomain
    · refine ⟨held, ?_, Run.Extends.refl held, fun _ ↦ rfl⟩
      rw [Store.put, Table.get_put_of_ne h, hheld]
  added new hnew hnone := by
    have hget : store.runs.get run'.runId = some run := by rw [hext.runId]; exact hopen.held
    rw [Store.put, Table.get_put hget] at hnew
    by_cases h : new.runId = run'.runId
    · rw [h, hget] at hnone
      cases hnone
    · rw [if_neg h, hnone] at hnew
      cases hnew

/-- After a run is started, the table answers its id by the entered run. -/
theorem get_started {definition : Definition} {newRun entered : Run}
    {runs : Table Run String Run.runId} {first : String} {events : List Event}
    {performs : List String} (hinsert : e.store.runs.insert newRun = some runs)
    (henters : Run.Enters s.digest definition newRun first entered events performs) (id : String) :
    (started e runs entered events performs).store.runs.get id =
      if id = newRun.runId then some entered else e.store.runs.get id := by
  have hself : runs.get entered.runId = some newRun := by
    rw [henters.extends.runId, Table.get_insert hinsert, if_pos rfl]
  rw [started, Table.get_put hself, Table.get_insert hinsert, henters.extends.runId]
  by_cases h : id = newRun.runId
  · rw [if_pos h, if_pos h]
  · rw [if_neg h, if_neg h, if_neg h]

theorem Begins.grows {definition : Definition} {newRun : Run}
    (hdomain : newRun.policyDomain = s.scope.domain)
    (h : s.Begins e definition newRun e') : s.Grows e.store e'.store := by
  cases h with
  | begins hinsert _ hparent hsubject _ _ henter =>
    have hget := get_started (e := e) hinsert henter
    have hfresh := (Table.insert_eq_some.mp hinsert).1
    refine ⟨rfl, rfl, fun run hrun ↦ ⟨run, ?_, Run.Extends.refl run, fun _ ↦ rfl⟩,
      fun run' hrun' hnone ↦ ?_⟩
    · have hne : run.runId ≠ newRun.runId := by
        intro h
        rw [h, hfresh] at hrun
        cases hrun
      rw [hget, if_neg hne, hrun]
    · rw [hget] at hrun'
      by_cases h : run'.runId = newRun.runId
      · rw [if_pos h, Option.some.injEq] at hrun'
        subst hrun'
        refine ⟨henter.extends.policyDomain.trans hdomain, ?_, fun parentId hid ↦ ?_⟩
        · rw [henter.extends.subjectId]
          exact Option.isSome_iff_exists.mpr ⟨_, hsubject⟩
        · rw [henter.extends.parentRunId] at hid
          obtain ⟨parent, hparent, hd⟩ := hparent parentId hid
          have hne : parentId ≠ newRun.runId := by
            rintro rfl
            rw [hfresh] at hparent
            cases hparent
          exact ⟨parent, by rw [hget, if_neg hne, hparent], hd⟩
      · rw [if_neg h, hnone] at hrun'
        cases hrun'

/-- An open run of the domain is open after work that does not touch it. -/
theorem Open.of_get (hopen : s.Open store run subject) (hsubjects : store'.subjects = store.subjects)
    (hget : store'.runs.get run.runId = some run) : s.Open store' run subject :=
  ⟨hget, by rw [hsubjects]; exact hopen.subject, hopen.domain, hopen.state⟩

/-- What the store answers after a later state of an open run is written back. -/
theorem Open.get_put (hopen : s.Open store run subject) {run' : Run} (hext : run.Extends run')
    (id : String) :
    (store.put run').runs.get id = if id = run.runId then some run' else store.runs.get id := by
  rw [Store.put, Table.get_put (y := run) (by rw [hext.runId]; exact hopen.held), hext.runId]

theorem perform_grows (h : s.perform work e = .ok e') : s.Grows e.store e'.store := by
  cases work with
  | advance runId =>
    cases advance_cases h with
    | closed => exact Grows.refl s _
    | stale => exact Grows.refl s _
    | moves hopen _ _ hmoves => exact hopen.grows hmoves.extends
  | «end» runId how reason =>
    cases endRun_cases h with
    | closed => exact Grows.refl s _
    | closes hopen happend hreport =>
      have hclose := hopen.grows ((Run.extends_left _).trans
        ((Run.extends_append happend).trans (Run.extends_finish _ how)))
      cases hreport with
      | unreported => exact hclose
      | reported _ hparent happend' =>
        exact hclose.trans (hparent.grows (Run.extends_append happend'))
  | startChild runId charterId =>
    cases startChild_cases h with
    | closed => exact Grows.refl s _
    | unpublished hopen _ happend => exact hopen.grows (Run.extends_append happend)
    | starts hopen _ _ _ _ _ hbegins happend =>
      have hgrows := hbegins.grows rfl
      exact hgrows.trans ((hopen.of_get hgrows.subjects (hbegins.get hopen.held)).grows
        (Run.extends_append happend))

/-- Work that is queued stays queued until it is performed. -/
theorem perform_queue (h : s.perform work e = .ok e') : ∀ w ∈ e.queue, w ∈ e'.queue := by
  intro w hw
  cases work with
  | advance runId =>
    cases advance_cases h with
    | closed => exact hw
    | stale => exact List.mem_cons_of_mem _ hw
    | moves => exact List.mem_append_left _ hw
  | «end» runId how reason =>
    cases endRun_cases h with
    | closed => exact hw
    | closes _ _ hreport =>
      cases hreport with
      | unreported => exact List.mem_append_right _ hw
      | reported => exact List.mem_append_left _ (List.mem_append_right _ hw)
  | startChild runId charterId =>
    cases startChild_cases h with
    | closed => exact hw
    | unpublished => exact List.mem_append_left _ hw
    | starts _ _ _ _ _ _ hbegins _ =>
      cases hbegins with
      | begins => exact List.mem_append_left _ hw

/-- A run that a start adds is to be advanced. -/
theorem Begins.new {definition : Definition} {newRun : Run} (h : s.Begins e definition newRun e')
    (hrun : e'.store.runs.get run.runId = some run) (hnone : e.store.runs.get run.runId = none) :
    .advance run.runId ∈ e'.queue := by
  cases h with
  | begins hinsert _ _ _ _ _ henter =>
    rw [get_started hinsert henter] at hrun
    by_cases hid : run.runId = newRun.runId
    · rw [if_pos hid, Option.some.injEq] at hrun
      subst hrun
      exact List.mem_append_right _ (List.mem_append_right _ List.mem_cons_self)
    · rw [if_neg hid, hnone] at hrun
      cases hrun

/-- Writing back a run adds none. -/
theorem Open.not_new (hopen : s.Open store run subject) {run' new : Run} (hext : run.Extends run')
    (hnew : (store.put run').runs.get new.runId = some new)
    (hnone : store.runs.get new.runId = none) : False := by
  rw [hopen.get_put hext] at hnew
  by_cases hid : new.runId = run.runId
  · rw [hid, hopen.held] at hnone
    cases hnone
  · rw [if_neg hid, hnone] at hnew
    cases hnew

/-- A run that work adds is to be advanced. -/
theorem perform_new (h : s.perform work e = .ok e')
    (hrun : e'.store.runs.get run.runId = some run) (hnone : e.store.runs.get run.runId = none) :
    .advance run.runId ∈ e'.queue := by
  cases work with
  | advance runId =>
    cases advance_cases h with
    | closed => rw [hnone] at hrun; cases hrun
    | stale => rw [hnone] at hrun; cases hrun
    | moves hopen _ _ hmoves => exact (hopen.not_new hmoves.extends hrun hnone).elim
  | «end» runId how reason =>
    cases endRun_cases h with
    | closed => rw [hnone] at hrun; cases hrun
    | @closes _ recorded _ _ _ hopen happend hreport =>
      have hext := (Run.extends_left _).trans
        ((Run.extends_append happend).trans (Run.extends_finish _ how))
      cases hreport with
      | unreported => exact (hopen.not_new hext hrun hnone).elim
      | reported _ hparent happend' =>
        refine (hparent.not_new (Run.extends_append happend') hrun ?_).elim
        cases hget : (e.store.put (recorded.finish how)).runs.get run.runId with
        | none => exact hget
        | some run' =>
          have hid := Table.key_of_get hget
          rw [← hid] at hget hnone
          exact (hopen.not_new hext hget hnone).elim
  | startChild runId charterId =>
    cases startChild_cases h with
    | closed => rw [hnone] at hrun; cases hrun
    | unpublished hopen _ happend =>
      exact (hopen.not_new (Run.extends_append happend) hrun hnone).elim
    -- the child is the only run that work adds
    | @starts parent _ _ _ _ _ _ _ hopen _ _ _ _ _ hbegins happend =>
      have hopen' := hopen.of_get (hbegins.grows rfl).subjects (hbegins.get hopen.held)
      rw [hopen'.get_put (Run.extends_append happend)] at hrun
      by_cases hid : run.runId = parent.runId
      · rw [hid, hopen.held] at hnone
        cases hnone
      · rw [if_neg hid] at hrun
        exact hbegins.new hrun hnone

/-- An ending leaves its run closed. -/
theorem endRun_closes (h : s.endRun runId how reason e = .ok e')
    (hrun : e'.store.runs.get runId = some run) : run.state ≠ .open := by
  cases endRun_cases h with
  | closed held hclosed =>
    rw [Option.some.inj (hrun.symm.trans held)]
    exact hclosed
  | @closes old recorded _ _ _ hopen happend hreport =>
    have hext := (Run.extends_left _).trans
      ((Run.extends_append happend).trans (Run.extends_finish recorded how))
    have hget := hopen.get_put hext old.runId
    rw [if_pos rfl] at hget
    have hclosed : (recorded.finish how).state ≠ .open := RunState.noConfusion
    cases hreport with
    | unreported =>
      rw [Option.some.inj (hrun.symm.trans hget)]
      exact hclosed
    | @reported parent _ _ _ _ hparent happend' =>
      -- the parent that the ending is reported to is open
      have hne : old.runId ≠ parent.runId := by
        intro hid
        have hsame := hparent.held
        rw [← hid] at hsame
        refine hclosed ?_
        rw [Option.some.inj (hget.symm.trans hsame)]
        exact hparent.state
      rw [written, hparent.get_put (Run.extends_append happend'), if_neg hne] at hrun
      rw [Option.some.inj (hrun.symm.trans hget)]
      exact hclosed

theorem settle_queue (h : s.settle e = .ok e') : e'.queue = [] :=
  (settle_induction (P := fun _ ↦ True) (fun _ _ _ _ _ _ h ↦ h) h trivial).2

end Session

end Charter

end Khive
