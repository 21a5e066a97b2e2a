import Khive.Charter.Command

/-!
# What a command commits

A command that is not refused prepares the store, queues work and settles it. An observation prepares
by keeping the receipt of a generation trigger and by moving its subject to the generation that the
trigger names; a start by inserting a subject that is not known and then a run.
-/

namespace Khive

namespace Charter

theorem Store.insertSubject_eq_ok {store store' : Store} {row : Subject}
    (h : store.insertSubject row = .ok store') :
    store'.runs = store.runs ∧ store'.triggers = store.triggers ∧
      store.subjects.get row.subjectId = none ∧
      ∀ id, store'.subjects.get id = if id = row.subjectId then some row
        else store.subjects.get id := by
  rw [insertSubject] at h
  by_cases hempty : row.subjectKind = "" ∨ row.subjectRef = ""
  · rw [if_pos hempty] at h
    cases h
  rw [if_neg hempty] at h
  by_cases hkey : row.key ∈ store.subjects.rows.map Subject.key
  · rw [dif_pos hkey] at h
    cases h
  rw [dif_neg hkey] at h
  by_cases hid : row.subjectId ∈ store.subjects.rows.map Subject.subjectId
  · rw [dif_pos hid] at h
    cases h
  rw [dif_neg hid] at h
  by_cases hdomain : row.policyDomain = ""
  · rw [if_pos hdomain] at h
    cases h
  rw [if_neg hdomain, Except.ok.injEq] at h
  subst h
  have hinsert : store.subjects.insert row =
      some ⟨store.subjects.rows ++ [row], Table.nodup_insert store.subjects.distinct hid⟩ :=
    dif_neg hid
  exact ⟨rfl, rfl, (Table.insert_eq_some.mp hinsert).1, Table.get_insert hinsert⟩

namespace Session

variable {s : Session} {o : Observation} {visible : List String} {store : Store}
  {e e' : Engine} {subject : Subject} {targets : Targets} {outcome : String}

/-! ## Observations -/

/-- What the receipt of an observation's trigger is kept under. -/
def receiptKey (s : Session) (o : Observation) (subject : Subject) : String × String × String :=
  (s.scope.domain, s.world.triggerCaller s.scope.domain subject.subjectId o.producer o.kind,
    o.eventId)

/-- The observation is of a trigger that was not received before, and names another generation than
the subject's. -/
def startsGeneration (s : Session) (o : Observation) (subject : Subject) (targets : Targets)
    (store : Store) : Bool :=
  targets.establishes && (store.triggers.get (s.receiptKey o subject)).isNone &&
    o.generation.any fun g ↦ subject.generation ≠ some g

/-- The receipts are kept, and the one of this trigger is held if it establishes. -/
structure Receives (s : Session) (o : Observation) (subject : Subject) (targets : Targets)
    (store store' : Store) : Prop where
  subjects : store'.subjects = store.subjects
  runs : store'.runs = store.runs
  kept : ∀ key row, store.triggers.get key = some row → store'.triggers.get key = some row
  held : targets.establishes = true →
    (store'.triggers.get (s.receiptKey o subject)).isSome = true

/-- The store and the queue before an observation is recorded, with the epoch and the generation that
it is recorded at. -/
inductive Prepares (s : Session) (o : Observation) (subject : Subject) (targets : Targets)
    (store : Store) : Engine → Nat → Option String → Prop
  | stays {store' : Store} (hreceives : s.Receives o subject targets store store')
    (hstays : s.startsGeneration o subject targets store = false) :
    Prepares s o subject targets store { store := store' } subject.subjectEpoch subject.generation
  | moves {store' : Store} {g : String} (hreceives : s.Receives o subject targets store store')
    (hmoves : s.startsGeneration o subject targets store = true)
    (hgeneration : o.generation = some g) :
    Prepares s o subject targets store
      { store := store'.advanceSubject subject.subjectId g
        queue := ((store'.advanceSubject subject.subjectId g).openRunsForSubject s.scope.domain
          subject.subjectId).map fun run ↦
            .end run.runId .superseded (some ("subject generation advanced to " ++ g)) }
      (subject.subjectEpoch + 1) (some g)

theorem recordGenerationTrigger_eq_ok {payload : Payload} {replayed : Bool}
    (h : s.recordGenerationTrigger subject.subjectId o.producer o.kind o.eventId payload
      { store := store } = .ok (e, replayed)) :
    (∃ store', e = { store := store' } ∧ store'.subjects = store.subjects ∧
      store'.runs = store.runs ∧
      (∀ key row, store.triggers.get key = some row → store'.triggers.get key = some row) ∧
      (store'.triggers.get (s.receiptKey o subject)).isSome = true) ∧
    replayed = (store.triggers.get (s.receiptKey o subject)).isSome := by
  rw [recordGenerationTrigger] at h
  dsimp only at h
  cases hget : store.triggers.get (s.receiptKey o subject) with
  | some held =>
    rw [show TriggerRow.key _ = s.receiptKey o subject from rfl, hget] at h
    dsimp only at h
    by_cases hdigest : held.requestDigest = s.digest payload
    · rw [if_pos hdigest] at h
      obtain ⟨rfl, rfl⟩ := Prod.mk.inj (pure_eq_ok.mp h)
      exact ⟨⟨store, rfl, rfl, rfl, fun _ _ h ↦ h, by rw [hget]; rfl⟩, rfl⟩
    · rw [if_neg hdigest] at h
      exact absurd h throw_ne_ok
  | none =>
    rw [show TriggerRow.key _ = s.receiptKey o subject from rfl, hget] at h
    obtain ⟨triggers, hinsert, h⟩ := bind_eq_ok.mp h
    rw [okOr_eq_ok] at hinsert
    obtain ⟨rfl, rfl⟩ := Prod.mk.inj (pure_eq_ok.mp h)
    have hget' := Table.get_insert hinsert
    refine ⟨⟨_, rfl, rfl, rfl, fun key row hrow ↦ ?_, ?_⟩, rfl⟩
    · rw [hget']
      refine (if_neg ?_).trans hrow
      rintro rfl
      rw [(Table.insert_eq_some.mp hinsert).1] at hrow
      cases hrow
    · rw [hget']
      exact (congrArg Option.isSome (if_pos rfl)).trans rfl

/-- What an observation commits. -/
inductive Observes (s : Session) (o : Observation) (visible : List String) (store : Store) :
    Engine → Prop
  | unknown (hsubject : store.subject? o.subjectKind o.subjectRef = none) :
    Observes s o visible store { store := store }
  | known {subject : Subject} {targets : Targets} {outcome : String} {e e₁ e' : Engine}
    {epoch : Nat} {current : Option String}
    (hsubject : store.subject? o.subjectKind o.subjectRef = some subject)
    (htargets : s.targets o visible store subject.subjectId = .ok targets)
    (houtcome : targets.outcome = some outcome)
    (hprepares : s.Prepares o subject targets store e epoch current)
    (hobserve : s.observeAll o subject.subjectId epoch (o.payload outcome epoch current)
      targets.runs e = .ok e₁)
    (hsettle : s.settle e₁ = .ok e') :
    Observes s o visible store e'

theorem subject_eq_ok {kind reference subjectId : String} {generation current : Option String}
    {establishes : Bool} {epoch : Nat}
    (hsubject : e.store.subject? kind reference = some subject)
    (h : s.subject kind reference generation establishes e = .ok (e', subjectId, epoch, current)) :
    subjectId = subject.subjectId ∧
      ((establishes && generation.any fun g ↦ subject.generation ≠ some g) = false ∧ e' = e ∧
        epoch = subject.subjectEpoch ∧ current = subject.generation ∨
      (establishes && generation.any fun g ↦ subject.generation ≠ some g) = true ∧
        ∃ g, generation = some g ∧ epoch = subject.subjectEpoch + 1 ∧ current = some g ∧
          e' = { e with
            store := e.store.advanceSubject subject.subjectId g
            queue := e.queue ++ ((e.store.advanceSubject subject.subjectId g).openRunsForSubject
              s.scope.domain subject.subjectId).map fun run ↦
                .end run.runId .superseded (some ("subject generation advanced to " ++ g)) }) := by
  rw [Session.subject, hsubject] at h
  cases generation with
  | none =>
    obtain ⟨rfl, rfl, rfl, rfl⟩ : _ ∧ _ ∧ _ ∧ _ := by
      simpa only [pure_eq_ok, Prod.mk.injEq] using h
    exact ⟨rfl, Or.inl ⟨by simp, rfl, rfl, rfl⟩⟩
  | some g =>
    dsimp only at h
    by_cases hmoves : subject.generation ≠ some g ∧ establishes = true
    · rw [if_pos hmoves] at h
      obtain ⟨rfl, rfl, rfl, rfl⟩ : _ ∧ _ ∧ _ ∧ _ := by
        simpa only [pure_eq_ok, Prod.mk.injEq] using h
      exact ⟨rfl, Or.inr ⟨by simp [hmoves.1, hmoves.2], g, rfl, rfl, rfl, rfl⟩⟩
    · rw [if_neg hmoves] at h
      obtain ⟨rfl, rfl, rfl, rfl⟩ : _ ∧ _ ∧ _ ∧ _ := by
        simpa only [pure_eq_ok, Prod.mk.injEq] using h
      refine ⟨rfl, Or.inl ⟨?_, rfl, rfl, rfl⟩⟩
      cases establishes with
      | false => rfl
      | true => simpa using hmoves

theorem observe_cases (h : s.commitObservation o visible store = .ok e') :
    s.Observes o visible store e' := by
  rw [commitObservation] at h
  cases hsubject : store.subject? o.subjectKind o.subjectRef with
  | none =>
    rw [hsubject] at h
    obtain ⟨_, -, h⟩ := bind_eq_ok.mp h
    rw [← pure_eq_ok.mp h]
    exact .unknown hsubject
  | some subject =>
    rw [hsubject] at h
    obtain ⟨targets, htargets, h⟩ := bind_eq_ok.mp h
    obtain ⟨outcome, houtcome, h⟩ := bind_eq_ok.mp h
    obtain ⟨⟨e, replayed⟩, hreceipt, h⟩ := bind_eq_ok.mp h
    obtain ⟨⟨e₁, subjectId, epoch, current⟩, hmove, h⟩ := bind_eq_ok.mp h
    obtain ⟨e₂, hobserve, hsettle⟩ := bind_eq_ok.mp h
    -- the receipt is looked up only if the trigger establishes
    have hreceives : ∃ store', e = { store := store' } ∧ s.Receives o subject targets store store' ∧
        (targets.establishes && !replayed) = (targets.establishes &&
          (store.triggers.get (s.receiptKey o subject)).isNone) := by
      rw [receive] at hreceipt
      by_cases hestablishes : targets.establishes = true
      · rw [if_pos hestablishes] at hreceipt
        obtain ⟨⟨store', rfl, hsubjects, hruns, hkept, hheld⟩, rfl⟩ :=
          recordGenerationTrigger_eq_ok hreceipt
        exact ⟨store', rfl, ⟨hsubjects, hruns, hkept, fun _ ↦ hheld⟩, by
          rw [Option.not_isSome]⟩
      · rw [if_neg hestablishes] at hreceipt
        obtain ⟨rfl, rfl⟩ := Prod.mk.inj (pure_eq_ok.mp hreceipt)
        exact ⟨store, rfl, ⟨rfl, rfl, fun _ _ h ↦ h, fun h ↦ absurd h hestablishes⟩, by
          simp [hestablishes]⟩
    obtain ⟨store', rfl, hreceives, hreplayed⟩ := hreceives
    have hsubject' : store'.subject? o.subjectKind o.subjectRef = some subject := by
      rw [Store.subject?, hreceives.subjects]
      exact hsubject
    obtain ⟨rfl, hcases⟩ := subject_eq_ok hsubject' hmove
    rw [hreplayed] at hcases
    have hprepares : s.Prepares o subject targets store e₁ epoch current := by
      rcases hcases with ⟨hstays, rfl, rfl, rfl⟩ | ⟨hmoves, g, hg, rfl, rfl, rfl⟩
      · exact .stays hreceives hstays
      · exact .moves hreceives hmoves hg
    exact .known hsubject htargets (okOr_eq_ok.mp houtcome) hprepares hobserve hsettle

/-! ## Starts -/

/-- The subject of a start, found or inserted. -/
inductive Finds (s : Session) (kind reference : String) (generation : Option String)
    (store : Store) : Store → Subject → Prop
  | known {subject : Subject} (hsubject : store.subject? kind reference = some subject) :
    Finds s kind reference generation store store subject
  | inserted {subject : Subject} {store' : Store}
    (hsubject : store.subject? kind reference = none)
    (hkey : subject.key = (kind, reference))
    (hinsert : store.insertSubject subject = .ok store') :
    Finds s kind reference generation store store' subject

theorem finds_of_subject {kind reference subjectId : String} {generation current : Option String}
    {epoch : Nat}
    (h : s.subject kind reference generation false { store := store } =
      .ok (e, subjectId, epoch, current)) :
    ∃ store' subject, s.Finds kind reference generation store store' subject ∧
      e = { store := store' } ∧ subjectId = subject.subjectId ∧ epoch = subject.subjectEpoch ∧
      current = subject.generation := by
  cases hsubject : store.subject? kind reference with
  | some subject =>
    obtain ⟨rfl, hcases⟩ := subject_eq_ok hsubject h
    rcases hcases with ⟨-, rfl, rfl, rfl⟩ | ⟨hmoves, -⟩
    · exact ⟨store, subject, .known hsubject, rfl, rfl, rfl, rfl⟩
    · cases hmoves
  | none =>
    rw [Session.subject, hsubject] at h
    obtain ⟨store', hinsert, h⟩ := bind_eq_ok.mp h
    obtain ⟨rfl, rfl, rfl, rfl⟩ : _ ∧ _ ∧ _ ∧ _ := by
      simpa only [pure_eq_ok, Prod.mk.injEq] using h
    exact ⟨store', _, .inserted hsubject rfl hinsert, rfl, rfl, rfl, rfl⟩

/-- What a start commits. -/
inductive Launches (s : Session) (r : StartRequest) (store : Store) :
    Engine → String → Bool → Prop
  | held {store' : Store} {subject : Subject} {run : Run}
    (hfinds : s.Finds r.subjectKind r.subjectRef r.generation store store' subject)
    (hrun : store'.openRunForCharter s.scope.domain r.charter subject.subjectId = some run) :
    Launches s r store { store := store' } run.runId false
  | started {store' : Store} {subject : Subject} {row : DefinitionRow} {e e' : Engine}
    (hfinds : s.Finds r.subjectKind r.subjectRef r.generation store store' subject)
    (hrow : s.requestedDefinition r.charter r.version = some row)
    (hkind : row.definition.subject = r.subjectKind)
    (hbegins : s.Begins { store := store' } row.definition (s.newRun row.definition (s.draw 0)
      subject.subjectId subject.subjectEpoch subject.generation r.bindings none) e)
    (hsettle : s.settle e = .ok e') :
    Launches s r store e' (s.draw 0) true

theorem start_cases {r : StartRequest} {runId : String} {started : Bool}
    (h : s.start r store = .ok (e', runId, started)) : s.Launches r store e' runId started := by
  rw [start] at h
  cases hbinding : r.bindings.find? fun binding ↦ binding.2 = "" with
  | some binding =>
    rw [hbinding] at h
    exact absurd h throw_ne_ok
  | none =>
    rw [hbinding] at h
    obtain ⟨row, hrow, h⟩ := bind_eq_ok.mp h
    obtain ⟨hkind, h⟩ := guard_eq_ok.mp h
    cases hrole : r.bindings.find? fun binding ↦
        !row.definition.roles.any fun role ↦ role.name = binding.1 with
    | some binding =>
      rw [hrole] at h
      exact absurd h throw_ne_ok
    | none =>
      rw [hrole] at h
      obtain ⟨⟨e, subjectId, epoch, current⟩, hsubject, h⟩ := bind_eq_ok.mp h
      obtain ⟨-, h⟩ := guard_eq_ok.mp h
      obtain ⟨store', subject, hfinds, rfl, rfl, rfl, rfl⟩ := finds_of_subject hsubject
      cases hrun : store'.openRunForCharter s.scope.domain r.charter subject.subjectId with
      | some run =>
        rw [hrun] at h
        obtain ⟨rfl, rfl, rfl⟩ : _ ∧ _ ∧ _ := by simpa only [pure_eq_ok, Prod.mk.injEq] using h
        exact .held hfinds hrun
      | none =>
        rw [hrun] at h
        obtain ⟨⟨e₁, runId₁⟩, hstart, h⟩ := bind_eq_ok.mp h
        obtain ⟨e₂, hsettle, h⟩ := bind_eq_ok.mp h
        obtain ⟨rfl, rfl, rfl⟩ : _ ∧ _ ∧ _ := by simpa only [pure_eq_ok, Prod.mk.injEq] using h
        obtain ⟨hid, hbegins⟩ := startRun_cases hstart
        rw [hid]
        exact .started hfinds (okOr_eq_ok.mp hrow) (not_not.mp hkind) hbegins hsettle

theorem cancel_cases {runId : String} {reason : Option String}
    (h : s.cancel runId reason visible store = .ok e') :
    (∃ run subject, s.Open store run subject ∧ run.runId = runId) ∧
      s.settle { store := store, queue := [.end runId .cancelled reason] } = .ok e' := by
  rw [cancel] at h
  obtain ⟨⟨run, subject⟩, hload, h⟩ := bind_eq_ok.mp h
  obtain ⟨hscope, h⟩ := guard_eq_ok.mp h
  obtain ⟨hstate, h⟩ := guard_eq_ok.mp h
  obtain ⟨hget, hsubject⟩ := Store.loadRun_eq_some.mp (okOr_eq_ok.mp hload)
  obtain rfl := Table.key_of_get hget
  rw [not_or, not_not] at hscope
  exact ⟨⟨run, subject, ⟨hget, hsubject, hscope.1, not_not.mp hstate⟩, rfl⟩, h⟩

end Session

/-! ## One step after another -/

/-- The row that an observation records at its subject's epoch. -/
def Observation.row (o : Observation) (subject : Subject) (outcome : String) : Evidence where
  kind := o.kind
  producer := o.producer
  sourceIdentity := subject.subjectId ++ "@" ++ toString subject.subjectEpoch
  sourceEventId := o.eventId
  payload := o.payload outcome subject.subjectEpoch subject.generation

/-- A later state of a subject: another generation is of a later epoch. -/
def Subject.Follows (subject subject' : Subject) : Prop :=
  ∃ epoch generation,
    subject' = { subject with subjectEpoch := epoch, generation := generation } ∧
      subject.subjectEpoch ≤ epoch ∧
      (epoch = subject.subjectEpoch → generation = subject.generation)

theorem Subject.Follows.refl (subject : Subject) : subject.Follows subject :=
  ⟨subject.subjectEpoch, subject.generation, rfl, le_rfl, fun _ ↦ rfl⟩

theorem Subject.Follows.trans {subject subject' subject'' : Subject} (h : subject.Follows subject')
    (h' : subject'.Follows subject'') : subject.Follows subject'' := by
  obtain ⟨epoch, generation, rfl, hle, hsame⟩ := h
  obtain ⟨epoch', generation', rfl, hle', hsame'⟩ := h'
  refine ⟨epoch', generation', rfl, hle.trans hle', fun heq ↦ ?_⟩
  have hepoch : epoch = subject.subjectEpoch := le_antisymm (heq ▸ hle') hle
  exact (hsame' (heq.trans hepoch.symm)).trans (hsame hepoch)

theorem Subject.follows_advanced (subject : Subject) (g : String) :
    subject.Follows (subject.advanced g) :=
  ⟨subject.subjectEpoch + 1, some g, rfl, Nat.le_succ _, fun h ↦ absurd h (Nat.succ_ne_self _)⟩

namespace Session

/-- The entry of an observation's kind, by the definition that a run pins. -/
def entryFor (s : Session) (o : Observation) (run : Run) : Option EntryDef := do
  let row ← s.world.getDefinition s.scope.domain run.charterId run.definitionVersion
  (row.definition.registry.get o.kind).or (row.pinned.get o.kind)

/-- The observation is admitted for a run with this outcome. -/
def Admits (s : Session) (o : Observation) (run : Run) (outcome : String) : Prop :=
  validateObservation o.verb o.kind (s.entryFor o run) o.requestedOutcome o.args = .ok outcome

/-- What a command does to its engine, step by step. Only a subject in `M` is moved to another
generation. -/
inductive Steps (s : Session) (M : Subject → Prop) : Engine → Engine → Prop
  | insertSubject {e : Engine} {subject : Subject} {store : Store}
    (hinsert : e.store.insertSubject subject = .ok store) :
    Steps s M e { e with store := store }
  | receive {e : Engine} {store : Store} (hsubjects : store.subjects = e.store.subjects)
    (hruns : store.runs = e.store.runs)
    (hkept : ∀ key row, e.store.triggers.get key = some row → store.triggers.get key = some row) :
    Steps s M e { e with store := store }
  | moveSubject {e : Engine} {subject : Subject} {g : String}
    (hsubject : e.store.subjects.get subject.subjectId = some subject) (hmoved : M subject)
    (hgeneration : subject.generation ≠ some g) :
    Steps s M e { e with
      store := e.store.advanceSubject subject.subjectId g
      queue := e.queue ++ ((e.store.advanceSubject subject.subjectId g).openRunsForSubject
        s.scope.domain subject.subjectId).map fun run ↦
          .end run.runId .superseded (some ("subject generation advanced to " ++ g)) }
  | observe {e : Engine} {run recorded : Run} {subject : Subject} {o : Observation}
    {outcome : String} {fresh : Bool} (hopen : s.Open e.store run subject)
    (hadmits : s.Admits o run outcome) (hproducer : o.producer ≠ engineProducer)
    (happend : run.append s.digest (o.row subject outcome) = .ok (recorded, fresh)) :
    Steps s M e (written e recorded (if fresh then [.advance run.runId] else []) [])
  | launch {e e' : Engine} {subject : Subject} {row : DefinitionRow} {charterId : String}
    {version : Option Int} {bindings : List (String × String)}
    (hsubject : e.store.subjects.get subject.subjectId = some subject)
    (hrow : s.requestedDefinition charterId version = some row)
    (hkind : row.definition.subject = subject.subjectKind)
    (hbegins : s.Begins e row.definition (s.newRun row.definition (s.draw e.drawn)
      subject.subjectId subject.subjectEpoch subject.generation bindings none) e') :
    Steps s M e e'
  | cancel {e : Engine} {run : Run} {subject : Subject} {reason : Option String}
    (hopen : s.Open e.store run subject) :
    Steps s M e { e with queue := e.queue ++ [.end run.runId .cancelled reason] }
  | work {e e' : Engine} {work : Work} {rest : List Work} (hqueue : e.queue = work :: rest)
    (hperform : s.perform work { e with queue := rest } = .ok e') :
    Steps s M e e'

variable {s : Session} {M : Subject → Prop} {e e' : Engine}

theorem get_advanceSubject {store : Store} {subjectId g : String} (id : String) :
    (store.advanceSubject subjectId g).subjects.get id =
      if id = subjectId then (store.subjects.get subjectId).map (Subject.advanced · g)
      else store.subjects.get id :=
  Table.get_update (Subject.advanced · g) (fun _ ↦ rfl) id

theorem startsGeneration_ne {o : Observation} {subject : Subject} {targets : Targets}
    {store : Store} {g : String} (h : s.startsGeneration o subject targets store = true)
    (hg : o.generation = some g) : subject.generation ≠ some g := by
  rw [startsGeneration, hg, Bool.and_eq_true, Option.any_some, decide_eq_true_iff] at h
  exact h.2

/-- Preparing an observation is a run of steps, and leaves the subject that it is recorded at. -/
theorem Prepares.steps {o : Observation} {subject : Subject} {targets : Targets} {store : Store}
    {epoch : Nat} {current : Option String}
    (hsubject : store.subjects.get subject.subjectId = some subject)
    (hmoved : s.startsGeneration o subject targets store = true → M subject)
    (h : s.Prepares o subject targets store e epoch current) :
    Relation.ReflTransGen (s.Steps M) { store := store } e ∧ e.store.runs = store.runs ∧
      ∃ subject', e.store.subjects.get subject.subjectId = some subject' ∧
        subject'.subjectId = subject.subjectId ∧ epoch = subject'.subjectEpoch ∧
        current = subject'.generation := by
  cases h with
  | @stays store' hreceives hstays =>
    have hreceive : s.Steps M { store := store } { store := store' } :=
      .receive hreceives.subjects hreceives.runs hreceives.kept
    refine ⟨.single hreceive, hreceives.runs, subject, ?_, rfl, rfl, rfl⟩
    rw [hreceives.subjects, hsubject]
  | @moves store' g hreceives hmoves hgeneration =>
    have hreceive : s.Steps M { store := store } { store := store' } :=
      .receive hreceives.subjects hreceives.runs hreceives.kept
    have hsubject' : store'.subjects.get subject.subjectId = some subject := by
      rw [hreceives.subjects, hsubject]
    refine ⟨(Relation.ReflTransGen.single hreceive).tail (.moveSubject hsubject' (hmoved hmoves)
      (startsGeneration_ne hmoves hgeneration)), hreceives.runs, subject.advanced g, ?_, rfl, rfl,
      rfl⟩
    rw [get_advanceSubject, if_pos rfl, hsubject', Option.map_some]

/-! ### What lasts -/

/-- What the commands of a session leave of a store. -/
structure Lasts (s : Session) (store store' : Store) : Prop where
  subjects : ∀ subject, store.subjects.get subject.subjectId = some subject →
    ∃ subject', store'.subjects.get subject.subjectId = some subject' ∧ subject.Follows subject'
  triggers : ∀ key row, store.triggers.get key = some row → store'.triggers.get key = some row
  runs : ∀ run, store.runs.get run.runId = some run →
    ∃ run', store'.runs.get run.runId = some run' ∧ run.Extends run' ∧
      (run.state ≠ .open ∨ run.policyDomain ≠ s.scope.domain → run' = run)

/-! ### Targets -/

variable {o : Observation} {visible : List String} {store : Store} {outcome : String}

/-- Every target is an open run that admits the observation with the outcome that is held. -/
theorem addTarget_spec {runs : List Run} {targets targets' : Targets}
    (h : runs.foldlM (s.addTarget o) targets = .ok targets')
    (htargets : ∀ run ∈ targets.runs, ∃ outcome, targets.outcome = some outcome ∧
      s.Admits o run outcome) :
    ∀ run ∈ targets'.runs, (run ∈ targets.runs ∨ run ∈ runs) ∧
      ∃ outcome, targets'.outcome = some outcome ∧ s.Admits o run outcome := by
  induction runs generalizing targets with
  | nil =>
    rw [List.foldlM_nil, pure_eq_ok] at h
    subst h
    exact fun run hrun ↦ ⟨Or.inl hrun, htargets run hrun⟩
  | cons target runs ih =>
    rw [List.foldlM_cons] at h
    obtain ⟨targets₁, hadd, h⟩ := bind_eq_ok.mp h
    rw [addTarget] at hadd
    by_cases hcharter : (o.onlyCharter.any fun charter ↦ charter ≠ target.charterId) = true
    · rw [if_pos hcharter, pure_eq_ok] at hadd
      subst hadd
      intro run hrun
      obtain ⟨hmem, hadmits⟩ := ih h htargets run hrun
      exact ⟨hmem.imp_right (List.mem_cons_of_mem _), hadmits⟩
    · rw [if_neg hcharter] at hadd
      obtain ⟨row, hrow, hadd⟩ := bind_eq_ok.mp hadd
      obtain ⟨outcome, hvalidate, hadd⟩ := bind_eq_ok.mp hadd
      -- the outcome of this target is the one that is held, if one is
      obtain ⟨hsame, hadd⟩ := guard_eq_ok.mp hadd
      rw [pure_eq_ok] at hadd
      subst hadd
      have hadmits : s.Admits o target outcome := by
        rw [Admits, entryFor, okOr_eq_ok.mp hrow]
        exact hvalidate
      intro run hrun
      obtain ⟨hmem, houtcome⟩ := ih h (fun run hrun ↦ by
        rcases List.mem_append.mp hrun with hrun | hrun
        · obtain ⟨held, hheld, hadmits'⟩ := htargets run hrun
          rw [hheld, Option.any_some, decide_eq_true_iff, not_not] at hsame
          exact ⟨outcome, rfl, hsame ▸ hadmits'⟩
        · rw [List.mem_singleton.mp hrun]
          exact ⟨outcome, rfl, hadmits⟩) run hrun
      refine ⟨?_, houtcome⟩
      rcases hmem with hmem | hmem
      · rcases List.mem_append.mp hmem with hmem | hmem
        · exact Or.inl hmem
        · exact Or.inr (by rw [List.mem_singleton.mp hmem]; exact List.mem_cons_self)
      · exact Or.inr (List.mem_cons_of_mem _ hmem)

theorem targets_spec {targets : Targets} {subjectId : String}
    (h : s.targets o visible store subjectId = .ok targets) (houtcome : targets.outcome = some outcome)
    {run : Run} (hrun : run ∈ targets.runs) :
    run ∈ store.openRunsForSubject s.scope.domain subjectId ∧ s.Admits o run outcome := by
  rw [Session.targets] at h
  obtain ⟨targets₁, hfold, h⟩ := bind_eq_ok.mp h
  by_cases hempty : targets₁.runs = []
  · rw [if_pos hempty, addScope] at h
    obtain ⟨registry, -, h⟩ := bind_eq_ok.mp h
    obtain ⟨_, -, h⟩ := bind_eq_ok.mp h
    rw [← pure_eq_ok.mp h] at hrun
    exact absurd hrun List.not_mem_nil
  · rw [if_neg hempty, pure_eq_ok] at h
    subst h
    obtain ⟨hmem, held, hheld, hadmits⟩ := addTarget_spec hfold
      (fun _ h ↦ absurd h List.not_mem_nil) run hrun
    rw [houtcome, Option.some.injEq] at hheld
    exact ⟨hmem.resolve_left List.not_mem_nil, hheld ▸ hadmits⟩

/-- Recording on every target is a run of steps. -/
theorem observeAll_steps {runs : List Run} {subject : Subject}
    (hproducer : o.producer ≠ engineProducer)
    (hsubject : e.store.subjects.get subject.subjectId = some subject)
    (hruns : ∀ run ∈ runs, run.subjectId = subject.subjectId ∧ s.Admits o run outcome ∧
      ∃ held, e.store.runs.get run.runId = some held ∧ run.Extends held ∧ held.state = .open)
    (h : s.observeAll o subject.subjectId subject.subjectEpoch
      (o.payload outcome subject.subjectEpoch subject.generation) runs e = .ok e') :
    Relation.ReflTransGen (s.Steps M) e e' := by
  induction runs generalizing e with
  | nil =>
    rw [observeAll, List.foldlM_nil, pure_eq_ok] at h
    rw [h]
  | cons run runs ih =>
    rw [observeAll, List.foldlM_cons] at h
    obtain ⟨e₁, hfirst, h⟩ := bind_eq_ok.mp h
    obtain ⟨⟨e₂, fresh⟩, hobserve, he⟩ := bind_eq_ok.mp hfirst
    rw [← pure_eq_ok.mp he] at h
    rw [Session.observe] at hobserve
    obtain ⟨own, hown, hrecord⟩ := bind_eq_ok.mp hobserve
    obtain ⟨⟨recorded, fresh'⟩, happend, hwritten⟩ := bind_eq_ok.mp hrecord
    obtain ⟨he₂, -⟩ := Prod.mk.inj (pure_eq_ok.mp hwritten)
    obtain ⟨hown, hdomain⟩ := own_eq_ok.mp hown
    obtain ⟨hid, hadmits, held, hheld, hext, hstate⟩ := hruns run List.mem_cons_self
    rw [hown, Option.some.injEq] at hheld
    subst hheld
    have hrunId := Table.key_of_get hown
    have hopen : s.Open e.store own subject :=
      ⟨by rw [hrunId]; exact hown, by rw [hext.subjectId, hid]; exact hsubject, hdomain, hstate⟩
    have hadmits' : s.Admits o own outcome := by
      rw [Admits, entryFor, hext.charterId, hext.definitionVersion]
      exact hadmits
    have hstep : s.Steps M e e₂ := by
      rw [← he₂, ← hrunId]
      exact .observe hopen hadmits' hproducer happend
    refine .head hstep (ih ?_ ?_ h)
    · rw [← he₂]
      exact hsubject
    · -- the other targets are as they were read, or further along
      intro run' hrun'
      obtain ⟨hid', hadmits'', held', hheld', hext', hstate'⟩ :=
        hruns run' (List.mem_cons_of_mem _ hrun')
      refine ⟨hid', hadmits'', ?_⟩
      have hget : e.store.runs.get recorded.runId = some own := by
        rw [(Run.extends_append happend).runId, hrunId]
        exact hown
      rw [← he₂, written, Store.put, Table.get_put hget]
      by_cases hsame : run'.runId = recorded.runId
      · rw [hsame, hget, Option.some.injEq] at hheld'
        subst hheld'
        rw [if_pos hsame]
        exact ⟨recorded, rfl, hext'.trans (Run.extends_append happend),
          (Run.append_fields happend).1.trans hstate'⟩
      · rw [if_neg hsame]
        exact ⟨held', hheld', hext', hstate'⟩

/-- Settling is a run of steps. -/
theorem settle_steps (h : s.settle e = .ok e') : Relation.ReflTransGen (s.Steps M) e e' :=
  (settle_induction (P := fun e₁ ↦ Relation.ReflTransGen (s.Steps M) e e₁)
    (fun _ _ _ _ hqueue hperform hsteps ↦ hsteps.tail (.work hqueue hperform)) h .refl).1

/-- Recording an observation that was prepared and settling are a run of steps. -/
theorem observed_steps {e₀ e₁ : Engine} {subject : Subject} {targets : Targets} {epoch : Nat}
    {current : Option String} (hproducer : o.producer ≠ engineProducer)
    (hsubject : store.subject? o.subjectKind o.subjectRef = some subject)
    (htargets : s.targets o visible store subject.subjectId = .ok targets)
    (houtcome : targets.outcome = some outcome)
    (hprepares : s.Prepares o subject targets store e₀ epoch current)
    (hobserve : s.observeAll o subject.subjectId epoch (o.payload outcome epoch current)
      targets.runs e₀ = .ok e₁) (hsettle : s.settle e₁ = .ok e') :
    Relation.ReflTransGen (s.Steps M) e₀ e' := by
  obtain ⟨hmem, -⟩ := Store.subject?_eq_some.mp hsubject
  obtain ⟨-, hruns, subject', hsubject', hid, rfl, rfl⟩ :=
    hprepares.steps (M := fun _ ↦ True) (Table.get_of_mem hmem) fun _ ↦ trivial
  rw [← hid] at hobserve hsubject'
  refine (observeAll_steps hproducer hsubject' ?_ hobserve).trans (settle_steps hsettle)
  intro run hrun
  obtain ⟨hopen, hadmits⟩ := targets_spec htargets houtcome hrun
  obtain ⟨hget, -, hsubjectId, hstate⟩ := Store.mem_openRunsForSubject.mp hopen
  exact ⟨hsubjectId.trans hid.symm, hadmits, run, by rw [hruns]; exact hget,
    Run.Extends.refl run, hstate⟩

theorem Lasts.refl (s : Session) (store : Store) : s.Lasts store store where
  subjects subject h := ⟨subject, h, Subject.Follows.refl subject⟩
  triggers _ _ h := h
  runs run h := ⟨run, h, Run.Extends.refl run, fun _ ↦ rfl⟩

theorem Lasts.trans {store store' store'' : Store} (h : s.Lasts store store')
    (h' : s.Lasts store' store'') : s.Lasts store store'' where
  subjects subject hsubject := by
    obtain ⟨subject', hsubject', hfollows⟩ := h.subjects subject hsubject
    have hid := Table.key_of_get hsubject'
    rw [← hid] at hsubject'
    obtain ⟨subject'', hsubject'', hfollows'⟩ := h'.subjects subject' hsubject'
    exact ⟨subject'', by rw [← hid]; exact hsubject'', hfollows.trans hfollows'⟩
  triggers key row hrow := h'.triggers key row (h.triggers key row hrow)
  runs run hrun := by
    obtain ⟨run', hrun', hext, hsame⟩ := h.runs run hrun
    rw [← hext.runId] at hrun'
    obtain ⟨run'', hrun'', hext', hsame'⟩ := h'.runs run' hrun'
    refine ⟨run'', by rw [← hext.runId]; exact hrun'', hext.trans hext', fun hfixed ↦ ?_⟩
    obtain rfl := hsame hfixed
    exact hsame' hfixed

theorem Grows.lasts {store store' : Store} (h : s.Grows store store') : s.Lasts store store' where
  subjects subject hsubject := ⟨subject, by rw [h.subjects, hsubject], Subject.Follows.refl subject⟩
  triggers key row hrow := by rw [h.triggers, hrow]
  runs := h.kept

theorem Steps.lasts (h : s.Steps M e e') : s.Lasts e.store e'.store := by
  cases h with
  | @insertSubject subject store hinsert =>
    obtain ⟨hruns, htriggers, hnone, hget⟩ := Store.insertSubject_eq_ok hinsert
    refine ⟨fun held hheld ↦ ⟨held, ?_, Subject.Follows.refl held⟩, fun key row hrow ↦ ?_,
      fun run hrun ↦ ⟨run, ?_, Run.Extends.refl run, fun _ ↦ rfl⟩⟩
    · have hne : held.subjectId ≠ subject.subjectId := by
        intro hid
        rw [hid, hnone] at hheld
        cases hheld
      exact (hget held.subjectId).trans ((if_neg hne).trans hheld)
    · rw [htriggers, hrow]
    · rw [hruns, hrun]
  | receive hsubjects hruns hkept =>
    refine ⟨fun held hheld ↦ ⟨held, by rw [hsubjects, hheld], Subject.Follows.refl held⟩, hkept,
      fun run hrun ↦ ⟨run, by rw [hruns, hrun], Run.Extends.refl run, fun _ ↦ rfl⟩⟩
  | @moveSubject subject g hsubject _ _ =>
    refine ⟨fun held hheld ↦ ?_, fun _ _ hrow ↦ hrow,
      fun run hrun ↦ ⟨run, hrun, Run.Extends.refl run, fun _ ↦ rfl⟩⟩
    rw [get_advanceSubject]
    by_cases hid : held.subjectId = subject.subjectId
    · rw [if_pos hid, ← hid, hheld]
      exact ⟨held.advanced g, rfl, held.follows_advanced g⟩
    · rw [if_neg hid]
      exact ⟨held, hheld, Subject.Follows.refl held⟩
  | observe hopen _ _ happend => exact (hopen.grows (Run.extends_append happend)).lasts
  | launch _ _ _ hbegins => exact (hbegins.grows rfl).lasts
  | cancel => exact Lasts.refl s _
  | @work _ work rest hqueue hperform =>
    exact Grows.lasts (perform_grows (e := { e with queue := rest }) hperform)

theorem lasts_of_steps (h : Relation.ReflTransGen (s.Steps M) e e') :
    s.Lasts e.store e'.store := by
  induction h with
  | refl => exact Lasts.refl s _
  | tail _ hstep ih => exact ih.trans hstep.lasts

end Session

/-! ## Runs of commands -/

/-- A command that was committed: the stores before and after it, and what a start answered. -/
structure Commit where
  before : Store
  call : Call
  after : Store
  answer : Option (String × Bool)

/-- The store, with the calls that have been checked and are to be committed. -/
structure System where
  store : Store
  checked : List Call

def Store.empty : Store where
  subjects := .empty
  keys := List.nodup_nil
  runs := .empty
  triggers := .empty

/-- The systems that calls lead to, with what they committed. Calls of different callers are checked
and committed in any order; a unit that fails commits nothing. -/
inductive Interleaved (world : World) : List Commit → System → Prop
  | empty : Interleaved world [] ⟨.empty, []⟩
  | check {commits : List Commit} {σ : System} {call : Call} (h : Interleaved world commits σ)
    (hallowed : call.allowed world σ.store = true) :
    Interleaved world commits { σ with checked := call :: σ.checked }
  | commit {commits : List Commit} {store : Store} (earlier later : List Call) {call : Call}
    {e : Engine} {answer : Option (String × Bool)}
    (h : Interleaved world commits ⟨store, earlier ++ call :: later⟩)
    (hunit : call.unit world store = .ok (e, answer)) :
    Interleaved world (commits ++ [⟨store, call, e.store, answer⟩]) ⟨e.store, earlier ++ later⟩

/-- The observation of a call, which its actor produces. -/
def Call.observation? (call : Call) : Option Observation :=
  match call.request with
  | .observe o => some { o with producer := call.scope.actor }
  | _ => none

/-- What a committed call did. -/
inductive Call.Commits (world : World) (call : Call) (store : Store) :
    Engine → Option (String × Bool) → Prop
  | start {r : StartRequest} {e : Engine} {runId : String} {started : Bool}
    (hrequest : call.request = .start r)
    (hlaunches : (call.session world).Launches r store e runId started) :
    Call.Commits world call store e (some (runId, started))
  | observe {o : Observation} {e : Engine} (hobservation : call.observation? = some o)
    (hreserved : o.producer ≠ engineProducer ∧ o.producer ≠ storeProducer)
    (hobserves : (call.session world).Observes o call.visible store e) :
    Call.Commits world call store e none
  | cancel {run : Run} {subject : Subject} {reason : Option String} {e : Engine}
    (hrequest : call.request = .cancel run.runId reason)
    (hopen : (call.session world).Open store run subject)
    (hsettle : (call.session world).settle
      { store := store, queue := [.end run.runId .cancelled reason] } = .ok e) :
    Call.Commits world call store e none

theorem Call.unit_cases {world : World} {call : Call} {store : Store} {e : Engine}
    {answer : Option (String × Bool)} (h : call.unit world store = .ok (e, answer)) :
    call.Commits world store e answer := by
  rw [unit] at h
  cases hrequest : call.request with
  | start r =>
    rw [hrequest] at h
    obtain ⟨⟨e', runId, started⟩, hstart, h⟩ := bind_eq_ok.mp h
    obtain ⟨rfl, rfl⟩ := Prod.mk.inj (pure_eq_ok.mp h)
    exact .start hrequest (Session.start_cases hstart)
  | observe o =>
    rw [hrequest] at h
    obtain ⟨e', hobserve, h⟩ := bind_eq_ok.mp h
    obtain ⟨rfl, rfl⟩ := Prod.mk.inj (pure_eq_ok.mp h)
    rw [Session.observeVerb] at hobserve
    by_cases hreserved : (call.session world).scope.actor = engineProducer ∨
        (call.session world).scope.actor = storeProducer
    · rw [if_pos hreserved] at hobserve
      exact absurd hobserve throw_ne_ok
    · rw [if_neg hreserved] at hobserve
      refine .observe ?_ (not_or.mp hreserved) (Session.observe_cases hobserve)
      rw [observation?, hrequest]
      rfl
  | cancel runId reason =>
    rw [hrequest] at h
    obtain ⟨e', hcancel, h⟩ := bind_eq_ok.mp h
    obtain ⟨rfl, rfl⟩ := Prod.mk.inj (pure_eq_ok.mp h)
    obtain ⟨⟨run, subject, hopen, rfl⟩, hsettle⟩ := Session.cancel_cases hcancel
    exact .cancel hrequest hopen hsettle

/-- The call moves the subject to another generation. -/
def Call.Moves (world : World) (call : Call) (store : Store) (subject : Subject) : Prop :=
  ∃ o targets, call.observation? = some o ∧
    store.subject? o.subjectKind o.subjectRef = some subject ∧
    (call.session world).targets o call.visible store subject.subjectId = .ok targets ∧
    (call.session world).startsGeneration o subject targets store = true

theorem Session.Finds.steps {s : Session} {kind reference : String} {generation : Option String}
    {store store' : Store} {subject : Subject} {M : Subject → Prop}
    (h : s.Finds kind reference generation store store' subject) :
    Relation.ReflTransGen (s.Steps M) { store := store } { store := store' } ∧
      store'.subjects.get subject.subjectId = some subject ∧ subject.subjectKind = kind := by
  cases h with
  | known hsubject =>
    obtain ⟨hmem, hkey⟩ := Store.subject?_eq_some.mp hsubject
    exact ⟨.refl, Table.get_of_mem hmem, congrArg Prod.fst hkey⟩
  | inserted _ hkey hinsert =>
    have hstep : s.Steps M { store := store } { store := store' } := .insertSubject hinsert
    refine ⟨.single hstep, ?_, congrArg Prod.fst hkey⟩
    rw [(Store.insertSubject_eq_ok hinsert).2.2.2, if_pos rfl]

/-- A committed call is a run of steps, and leaves no work. -/
theorem Call.Commits.steps {world : World} {call : Call} {store : Store} {e : Engine}
    {answer : Option (String × Bool)} (h : call.Commits world store e answer) :
    Relation.ReflTransGen ((call.session world).Steps (call.Moves world store)) { store := store } e ∧
      e.queue = [] := by
  cases h with
  | start hrequest hlaunches =>
    cases hlaunches with
    | held hfinds _ => exact ⟨hfinds.steps.1, rfl⟩
    | started hfinds hrow hkind hbegins hsettle =>
      obtain ⟨hsteps, hsubject, hk⟩ := hfinds.steps (M := call.Moves world store)
      exact ⟨(hsteps.tail (.launch hsubject hrow (hkind.trans hk.symm) hbegins)).trans
        (Session.settle_steps hsettle), Session.settle_queue hsettle⟩
  | observe hobservation hreserved hobserves =>
    cases hobserves with
    | unknown => exact ⟨.refl, rfl⟩
    | known hsubject htargets houtcome hprepares hobserve hsettle =>
      obtain ⟨hmem, -⟩ := Store.subject?_eq_some.mp hsubject
      obtain ⟨hsteps, -⟩ :=
        hprepares.steps (M := call.Moves world store) (Table.get_of_mem hmem)
          fun hmoves ↦ ⟨_, _, hobservation, hsubject, htargets, hmoves⟩
      exact ⟨hsteps.trans (Session.observed_steps hreserved.1 hsubject htargets houtcome hprepares
        hobserve hsettle), Session.settle_queue hsettle⟩
  | @cancel run subject reason _ _ hopen hsettle =>
    have hstep : (call.session world).Steps (call.Moves world store) { store := store }
        { store := store, queue := [.end run.runId .cancelled reason] } := .cancel hopen
    exact ⟨.head hstep (Session.settle_steps hsettle), Session.settle_queue hsettle⟩

/-- A call that moves a subject leaves it at a later epoch. -/
theorem Call.Commits.moves {world : World} {call : Call} {store : Store} {e : Engine}
    {answer : Option (String × Bool)} {subject : Subject} (h : call.Commits world store e answer)
    (hmoves : call.Moves world store subject) :
    ∃ subject', e.store.subjects.get subject.subjectId = some subject' ∧
      subject.subjectEpoch < subject'.subjectEpoch := by
  obtain ⟨o, targets, hobservation, hsubject, htargets, hstarts⟩ := hmoves
  cases h with
  | start hrequest _ =>
    rw [Call.observation?, hrequest] at hobservation
    cases hobservation
  | cancel hrequest _ _ =>
    rw [Call.observation?, hrequest] at hobservation
    cases hobservation
  | observe hobservation' hreserved hobserves =>
    rw [hobservation, Option.some.injEq] at hobservation'
    subst hobservation'
    cases hobserves with
    | unknown hnone =>
      rw [hsubject] at hnone
      cases hnone
    | known hsubject' htargets' houtcome hprepares hobserve hsettle =>
      rw [hsubject, Option.some.injEq] at hsubject'
      subst hsubject'
      rw [htargets, Except.ok.injEq] at htargets'
      subst htargets'
      have hlasts := Session.lasts_of_steps (Session.observed_steps (M := fun _ ↦ True)
        hreserved.1 hsubject htargets houtcome hprepares hobserve hsettle)
      cases hprepares with
      | stays _ hstays =>
        rw [hstarts] at hstays
        cases hstays
      | @moves store' g hreceives _ _ =>
        have hget : (store'.advanceSubject subject.subjectId g).subjects.get subject.subjectId =
            some (subject.advanced g) := by
          rw [Session.get_advanceSubject, if_pos rfl, hreceives.subjects,
            Table.get_of_mem (Store.subject?_eq_some.mp hsubject).1, Option.map_some]
        obtain ⟨subject', hsubject', epoch, _, rfl, hle, -⟩ :=
          hlasts.subjects (subject.advanced g) hget
        exact ⟨_, hsubject', hle⟩

theorem Interleaved.commits {world : World} {commits : List Commit} {σ : System}
    (h : Interleaved world commits σ) :
    ∀ c ∈ commits, ∃ e, c.call.Commits world c.before e c.answer ∧ e.store = c.after := by
  induction h with
  | empty => exact fun _ hc ↦ absurd hc List.not_mem_nil
  | check _ _ ih => exact ih
  | commit _ _ _ hunit ih =>
    rw [List.forall_mem_append, List.forall_mem_singleton]
    exact ⟨ih, _, Call.unit_cases hunit, rfl⟩

/-- What every committed call preserves holds in every state reached. -/
theorem Interleaved.induction {world : World} {P : Store → Prop} {Q : Commit → Prop}
    (hempty : P .empty)
    (hstep : ∀ call store e answer, call.Commits world store e answer → P store →
      Q ⟨store, call, e.store, answer⟩ → P e.store)
    {commits : List Commit} {σ : System} (h : Interleaved world commits σ)
    (hcommits : ∀ c ∈ commits, Q c) : P σ.store ∧ ∀ c ∈ commits, P c.before ∧ P c.after := by
  induction h with
  | empty => exact ⟨hempty, fun _ hc ↦ absurd hc List.not_mem_nil⟩
  | check _ _ ih => exact ih hcommits
  | @commit commits store earlier later call e answer _ hunit ih =>
    rw [List.forall_mem_append, List.forall_mem_singleton] at hcommits
    obtain ⟨hstore, hearlier⟩ := ih hcommits.1
    have hafter := hstep call store e answer (Call.unit_cases hunit) hstore hcommits.2
    refine ⟨hafter, ?_⟩
    rw [List.forall_mem_append, List.forall_mem_singleton]
    exact ⟨hearlier, hstore, hafter⟩

end Charter

end Khive
