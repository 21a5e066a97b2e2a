import Khive.Charter.Commit

/-!
# Generations

A new generation of a subject supersedes the runs that are open on it. They are found by the domain of
the command, while a subject is found by its kind and reference alone; the check that a subject and its
runs are of one domain is made before the unit begins. So every open run is of the epoch and
generation of its subject as long as no command moves a subject on which a run is open in another
domain, and no longer.

While a command is settled, an open run is of its subject's generation or is attended: the queue holds
an advance of it, which will find that it is stale, or an ending.
-/

namespace Khive

namespace Charter

/-- Every open run is of the epoch and generation of its subject. -/
def Store.UpToDate (store : Store) : Prop :=
  ∀ run, store.runs.get run.runId = some run → run.state = .open →
    ∃ subject, store.subjects.get run.subjectId = some subject ∧ run.Current subject

/-- The queue holds an advance or an ending of the run. -/
def Engine.attends (e : Engine) (runId : String) : Prop :=
  .advance runId ∈ e.queue ∨ ∃ how reason, .end runId how reason ∈ e.queue

theorem Engine.attends_mono {e e' : Engine} {runId : String}
    (hqueue : ∀ work ∈ e.queue, work ∈ e'.queue) (h : e.attends runId) : e'.attends runId := by
  rcases h with h | ⟨how, reason, h⟩
  · exact Or.inl (hqueue _ h)
  · exact Or.inr ⟨how, reason, hqueue _ h⟩

/-- The run is of the epoch and generation of its subject in the store. -/
def Store.IsCurrent (store : Store) (run : Run) : Prop :=
  ∃ subject, store.subjects.get run.subjectId = some subject ∧ run.Current subject

theorem Store.IsCurrent.extends {store store' : Store} {run run' : Run}
    (h : store.IsCurrent run) (hsubjects : store'.subjects = store.subjects)
    (hext : run.Extends run') : store'.IsCurrent run' := by
  obtain ⟨subject, hget, hepoch, hgeneration⟩ := h
  refine ⟨subject, ?_, hext.subjectEpoch.trans hepoch, hext.generation.trans hgeneration⟩
  rw [hsubjects, hext.subjectId, hget]

namespace Session

variable {s : Session} {base : Store} {e e' : Engine} {moved : Subject → Prop} {work : Work}

/-- The open runs of the session's domain are up to date or attended, and those of other domains are
as they were and up to date. -/
structure Attended (s : Session) (base : Store) (e : Engine) : Prop where
  others : ∀ run, e.store.runs.get run.runId = some run → run.policyDomain ≠ s.scope.domain →
    base.runs.get run.runId = some run
  current : ∀ run, e.store.runs.get run.runId = some run → run.state = .open →
    e.store.IsCurrent run ∨ run.policyDomain = s.scope.domain ∧ e.attends run.runId

/-- What work of the session leaves attended. -/
theorem Attended.grow (h : s.Attended base e) (hgrows : s.Grows e.store e'.store)
    (hattend : ∀ run, e'.store.runs.get run.runId = some run → run.state = .open →
      e.attends run.runId → e'.store.IsCurrent run ∨ e'.attends run.runId)
    (hnew : ∀ run, e'.store.runs.get run.runId = some run → run.state = .open →
      e.store.runs.get run.runId = none → e'.attends run.runId) : s.Attended base e' where
  others run hrun hdomain := by
    rcases hgrows.origin hrun with hnone | ⟨old, hold, hext, hsame⟩
    · exact absurd (hgrows.added run hrun hnone).1 hdomain
    · rw [hext.policyDomain] at hdomain
      obtain rfl := hsame (Or.inr hdomain)
      exact h.others run hold hdomain
  current run hrun hopen := by
    rcases hgrows.origin_open hrun hopen with hnone | ⟨old, hold, hopen', hext⟩
    · exact Or.inr ⟨(hgrows.added run hrun hnone).1, hnew run hrun hopen hnone⟩
    · rcases h.current old hold hopen' with hcurrent | ⟨hdomain, hattends⟩
      · exact Or.inl (hcurrent.extends hgrows.subjects hext)
      · rw [← hext.runId] at hattends
        exact (hattend run hrun hopen hattends).imp_right
          fun hattends' ↦ ⟨hext.policyDomain.trans hdomain, hattends'⟩

/-- An advance finds its run current, or queues its ending. -/
theorem advance_attends {runId : String} {run : Run} (h : s.advance runId e = .ok e')
    (hrun : e'.store.runs.get runId = some run) (hopen : run.state = .open) :
    e'.store.IsCurrent run ∨ e'.attends runId := by
  cases advance_cases h with
  | closed held hclosed =>
    rw [Option.some.inj (hrun.symm.trans held)] at hopen
    exact absurd hopen hclosed
  | stale => exact Or.inr (Or.inr ⟨_, _, List.mem_cons_self⟩)
  | moves hopen' hcurrent _ hmoves =>
    rw [written, hopen'.get_put hmoves.extends, if_pos rfl, Option.some.injEq] at hrun
    rw [← hrun]
    exact Or.inl (Store.IsCurrent.extends ⟨_, hopen'.subject, hcurrent⟩ rfl hmoves.extends)

theorem perform_attended {rest : List Work} (hqueue : e.queue = work :: rest)
    (h : s.perform work { e with queue := rest } = .ok e') (he : s.Attended base e) :
    s.Attended base e' := by
  have hgrows : s.Grows e.store e'.store := perform_grows (e := { e with queue := rest }) h
  have hrest := perform_queue (e := { e with queue := rest }) h
  refine he.grow hgrows ?_ fun run hrun _ hnone ↦ Or.inl (perform_new h hrun hnone)
  intro run hrun hopen hattends
  rw [Engine.attends, hqueue] at hattends
  rcases hattends with hw | ⟨how, reason, hw⟩
  · rcases List.mem_cons.mp hw with hw | hw
    · rw [← hw] at h
      exact advance_attends h hrun hopen
    · exact Or.inr (Or.inl (hrest _ hw))
  · rcases List.mem_cons.mp hw with hw | hw
    · rw [← hw] at h
      exact absurd hopen (endRun_closes h hrun)
    · exact Or.inr (Or.inr ⟨how, reason, hrest _ hw⟩)

/-- A step keeps open runs attended, if the subjects it moves have their open runs in the session's
domain. -/
theorem Steps.attended (h : s.Steps moved e e') (he : s.Attended base e)
    (hmoved : ∀ subject, moved subject → ∀ run, base.runs.get run.runId = some run →
      run.state = .open → run.subjectId = subject.subjectId → run.policyDomain = s.scope.domain) :
    s.Attended base e' := by
  cases h with
  | @insertSubject subject store hinsert =>
    obtain ⟨hruns, -, hnone, hget⟩ := Store.insertSubject_eq_ok hinsert
    refine ⟨fun run hrun ↦ he.others run (by rw [← hruns]; exact hrun), fun run hrun hopen ↦ ?_⟩
    rw [show store.runs = e.store.runs from hruns] at hrun
    refine (he.current run hrun hopen).imp_left ?_
    rintro ⟨held, hheld, hcurrent⟩
    refine ⟨held, ?_, hcurrent⟩
    -- the subject is new, so it is not the subject of a run that is up to date
    have hne : run.subjectId ≠ subject.subjectId := by
      intro hid
      rw [hid, hnone] at hheld
      cases hheld
    exact (hget run.subjectId).trans ((if_neg hne).trans hheld)
  | @receive store hsubjects hruns hkept =>
    refine ⟨fun run hrun ↦ he.others run (by rw [← hruns]; exact hrun), fun run hrun hopen ↦ ?_⟩
    rw [show store.runs = e.store.runs from hruns] at hrun
    exact (he.current run hrun hopen).imp_left
      fun hcurrent ↦ hcurrent.extends hsubjects (Run.Extends.refl run)
  | @moveSubject subject g hsubject hmoves _ =>
    refine ⟨he.others, fun run hrun hopen ↦ ?_⟩
    by_cases hid : run.subjectId = subject.subjectId
    · -- the run is superseded, and of the session's domain
      have hdomain : run.policyDomain = s.scope.domain := by
        by_contra hne
        exact hne (hmoved subject hmoves run (he.others run hrun hne) hopen hid)
      refine Or.inr ⟨hdomain, Or.inr ⟨_, _, List.mem_append_right _ (List.mem_map.mpr ⟨run, ?_, rfl⟩)⟩⟩
      exact Store.mem_openRunsForSubject.mpr ⟨hrun, hdomain, hid, hopen⟩
    · rcases he.current run hrun hopen with ⟨held, hheld, hcurrent⟩ | ⟨hdomain, hattends⟩
      · refine Or.inl ⟨held, ?_, hcurrent⟩
        rw [get_advanceSubject, if_neg hid, hheld]
      · exact Or.inr ⟨hdomain, Engine.attends_mono (fun _ ↦ List.mem_append_left _) hattends⟩
  | observe hopen _ _ happend =>
    have hext := Run.extends_append happend
    refine he.grow (hopen.grows hext) (fun run _ _ hattends ↦ Or.inr ?_)
      fun run hrun _ hnone ↦ (hopen.not_new hext hrun hnone).elim
    exact Engine.attends_mono (fun _ ↦ List.mem_append_left _) hattends
  | @launch _ subject row _ _ _ _ _ _ hbegins =>
    refine he.grow (hbegins.grows rfl) (fun run _ _ hattends ↦ Or.inr ?_)
      fun run hrun _ hnone ↦ Or.inl (hbegins.new hrun hnone)
    cases hbegins with
    | begins => exact Engine.attends_mono (fun _ ↦ List.mem_append_left _) hattends
  | cancel _ =>
    refine ⟨he.others, fun run hrun hopen ↦ (he.current run hrun hopen).imp_right ?_⟩
    exact And.imp_right (Engine.attends_mono fun _ ↦ List.mem_append_left _)
  | work hqueue hperform => exact perform_attended hqueue hperform he

theorem attended_of_steps (h : Relation.ReflTransGen (s.Steps moved) e e')
    (hmoved : ∀ subject, moved subject → ∀ run, base.runs.get run.runId = some run →
      run.state = .open → run.subjectId = subject.subjectId → run.policyDomain = s.scope.domain)
    (he : s.Attended base e) : s.Attended base e' := by
  induction h with
  | refl => exact he
  | tail _ hstep ih => exact hstep.attended ih hmoved

end Session

/-! ## Runs of commands -/

section Runs

variable {world : World} {call : Call} {store : Store} {e : Engine}
  {answer : Option (String × Bool)} {commits : List Commit} {σ : System} {c : Commit}

/-- A subject that the commit moves has its open runs in the domain of the call. -/
def Commit.Contained (world : World) (c : Commit) : Prop :=
  ∀ subject, c.call.Moves world c.before subject →
    ∀ run, c.before.runs.get run.runId = some run → run.state = .open →
      run.subjectId = subject.subjectId → run.policyDomain = c.call.scope.domain

/-- A start that answers with a run that was open answers with one of its subject's generation. -/
def Commit.AnswersUpToDate (c : Commit) : Prop :=
  ∀ runId, c.answer = some (runId, false) →
    ∃ run, c.after.runs.get runId = some run ∧ run.state = .open ∧ c.after.IsCurrent run

theorem Call.Commits.upToDate (h : call.Commits world store e answer) (hstore : store.UpToDate)
    (hcontained : (⟨store, call, e.store, answer⟩ : Commit).Contained world) :
    e.store.UpToDate := by
  obtain ⟨hsteps, hqueue⟩ := h.steps
  have hattended : (call.session world).Attended store e :=
    Session.attended_of_steps hsteps hcontained
      ⟨fun _ hrun _ ↦ hrun, fun run hrun hopen ↦ Or.inl (hstore run hrun hopen)⟩
  intro run hrun hopen
  refine (hattended.current run hrun hopen).resolve_right ?_
  rintro ⟨-, hattends | ⟨_, _, hattends⟩⟩
  · rw [hqueue] at hattends
    exact List.not_mem_nil hattends
  · rw [hqueue] at hattends
    exact List.not_mem_nil hattends

/-- A commit after which open runs are up to date moved no subject under a run of another domain. -/
theorem Call.Commits.contained (h : call.Commits world store e answer) (hstore : store.UpToDate)
    (hafter : e.store.UpToDate) : (⟨store, call, e.store, answer⟩ : Commit).Contained world := by
  intro subject hmoves run hrun hopen hid
  by_contra hdomain
  have hlasts := Session.lasts_of_steps h.steps.1
  obtain ⟨run', hrun', -, hsame⟩ := hlasts.runs run hrun
  obtain rfl := hsame (Or.inr hdomain)
  obtain ⟨held, hheld, hepoch, -⟩ := hstore run' hrun hopen
  obtain ⟨later, hlater, hepoch', -⟩ := hafter run' hrun' hopen
  obtain ⟨moved, hmoved, hlt⟩ := h.moves hmoves
  obtain ⟨o, _, -, hsubject, -⟩ := hmoves
  have hget : store.subjects.get run'.subjectId = some subject := by
    rw [hid]
    exact Table.get_of_mem (Store.subject?_eq_some.mp hsubject).1
  obtain rfl := Option.some.inj (hheld.symm.trans hget)
  rw [← hid] at hmoved
  obtain rfl := Option.some.inj (hlater.symm.trans hmoved)
  omega

theorem Call.Commits.answersUpToDate (h : call.Commits world store e answer)
    (hafter : e.store.UpToDate) :
    (⟨store, call, e.store, answer⟩ : Commit).AnswersUpToDate := by
  intro runId hanswer
  cases h with
  | start _ hlaunches =>
    cases hlaunches with
    | held _ hrun =>
      obtain ⟨hget, -, -, -, hopen⟩ := Store.openRunForCharter_eq_some hrun
      obtain rfl : _ = runId := congrArg Prod.fst (Option.some.inj hanswer)
      exact ⟨_, hget, hopen, hafter _ hget hopen⟩
    | started => cases hanswer
  | observe => cases hanswer
  | cancel => cases hanswer

theorem Store.upToDate_empty : Store.empty.UpToDate := by
  intro run hrun
  cases hrun

/-- In a run of checked and committed calls, every open run is of its subject's epoch and generation
after every commit exactly when no commit moves a subject on which a run of another domain is
open. -/
theorem runs_are_upToDate_iff_contained (h : Interleaved world commits σ) :
    (∀ c ∈ commits, c.after.UpToDate ∧ c.AnswersUpToDate) ↔
      ∀ c ∈ commits, c.Contained world := by
  constructor
  · intro hupToDate c hc
    obtain ⟨-, hbefore⟩ := h.induction (P := Store.UpToDate) (Q := fun c ↦ c.after.UpToDate)
      Store.upToDate_empty (fun _ _ _ _ _ _ hafter ↦ hafter) fun c hc ↦ (hupToDate c hc).1
    obtain ⟨e, hcommits, he⟩ := h.commits c hc
    have hcontained := hcommits.contained (hbefore c hc).1 (by rw [he]; exact (hupToDate c hc).1)
    rw [he] at hcontained
    exact hcontained
  · intro hcontained c hc
    obtain ⟨-, hafter⟩ := h.induction (P := Store.UpToDate) (Q := Commit.Contained world)
      Store.upToDate_empty (fun _ _ _ _ hcommits hstore ↦ hcommits.upToDate hstore) hcontained
    obtain ⟨e, hcommits, he⟩ := h.commits c hc
    refine ⟨(hafter c hc).2, ?_⟩
    have hanswers := hcommits.answersUpToDate (by rw [he]; exact (hafter c hc).2)
    rw [he] at hanswers
    exact hanswers

/-- A call that is allowed by the very store it is committed to is contained. -/
theorem Call.contained_of_allowed {after : Store} (h : call.allowed world store = true) :
    (⟨store, call, after, answer⟩ : Commit).Contained world := by
  rintro subject ⟨o, targets, hobservation, hsubject, -⟩ run hrun - hid
  rw [Call.observation?] at hobservation
  cases hrequest : call.request with
  | start r => rw [hrequest] at hobservation; cases hobservation
  | cancel runId reason => rw [hrequest] at hobservation; cases hobservation
  | observe o' =>
    rw [hrequest, Option.some.injEq] at hobservation
    subst hobservation
    rw [allowed, hrequest] at h
    dsimp only at h hsubject
    rw [Store.subjectInScope, hsubject, Option.all_some, decide_eq_true_iff] at h
    exact (h.2.2 run (Table.mem_of_get hrun) hid).1

end Runs

/-! ## Two domains on one subject -/

namespace Sample

/-- A subject kind whose trigger starts a new generation. -/
def pull : EntryDef where
  kind := .subject
  name := "pull"
  description := none
  producerClass := "forge"
  outcomes := []
  passes := []
  ceiling := .advisory
  params := []
  newGeneration := ["pushed"]
  vocabulary := "forge"
  vocabularyVersion := 1

def pushed : EntryDef where
  kind := .trigger
  name := "pushed"
  description := none
  producerClass := "forge"
  outcomes := ["observed"]
  passes := ["observed"]
  ceiling := .advisory
  params := []
  newGeneration := []
  vocabulary := "forge"
  vocabularyVersion := 1

def registry : Registry := (OrderedMap.empty.insert "pull" pull).insert "pushed" pushed

/-- Wait for a push, and complete. -/
def wait : PhaseDef where
  id := "wait"
  ordinal := 1
  owner := none
  awaits := [["pushed"]]
  actions := []
  performs := []
  requires := []
  whens := []
  evidence := []
  grants := []
  maxRounds := none
  next := .complete

def ship : Definition where
  id := "ship"
  version := 1
  title := none
  subject := "pull"
  roles := []
  triggers := []
  phases := [wait]
  breakGlass := none
  registry := registry

def world : World where
  libraries := ⟨fun _ ↦ false, id, fun _ ↦ .error []⟩
  payloadDigest payload := payload.outcome.getD "" ++ payload.generation.getD "" ++
    payload.phase.getD "" ++ toString (payload.round.getD 0)
  triggerCaller domain subjectId producer kind :=
    "charter-generation-event:" ++ ",".intercalate [domain, subjectId, producer, kind]
  vocabularies := []
  definitions := [⟨"a", "local", ship, registry⟩, ⟨"b", "local", ship, registry⟩]
  versions := by decide

def call (domain actor run : String) (request : Request) : Call where
  scope := ⟨domain, "local", actor, 1⟩
  visible := ["local"]
  draw n := run ++ "-" ++ toString n
  request := request

def startIn (domain : String) : Call :=
  call domain "starter" ("run-" ++ domain) (.start ⟨"ship", "pull", "1", [], none, none⟩)

/-- The push of a second generation. -/
def push (domain : String) : Call :=
  call domain "forge" "none" (.observe {
    verb := "charter.observe"
    subjectKind := "pull"
    subjectRef := "1"
    kind := "pushed"
    requestedOutcome := none
    args := []
    detail := []
    generation := some "g2"
    onlyCharter := none
    producer := "forge"
    eventId := "e1" })

/-- The store that a call leaves. -/
def after (store : Store) (call : Call) : Store :=
  ((call.unit world store).map fun result ↦ result.1.store).toOption.getD store

theorem unit_eq_ok {store : Store} {call : Call}
    (h : (call.unit world store).toOption.isSome = true) :
    ∃ e answer, call.unit world store = .ok (e, answer) ∧ e.store = after store call := by
  rw [after]
  cases hunit : call.unit world store with
  | error error => rw [hunit] at h; cases h
  | ok result => exact ⟨result.1, result.2, rfl, rfl⟩

def inA : Store := after .empty (startIn "a")

def inB : Store := after inA (startIn "b")

def moved : Store := after inB (push "a")

/-- A start in the first domain after the push. -/
def again : Call :=
  call "a" "starter" "run-again" (.start ⟨"ship", "pull", "1", [], none, none⟩)

def pushed₁ : Store := after inA (push "a")

def restarted : Store := after pushed₁ again

theorem facts : ((startIn "a").allowed world .empty = true ∧
    (startIn "b").allowed world .empty = true ∧ (push "a").allowed world inA = true) ∧
    ((startIn "a").unit world .empty).toOption.isSome = true ∧
    ((startIn "b").unit world inA).toOption.isSome = true ∧
    ((push "a").unit world inB).toOption.isSome = true ∧
    (moved.runs.rows.any fun run ↦ run.state = .open ∧
      (moved.subjects.get run.subjectId).all fun subject ↦
        run.subjectEpoch ≠ subject.subjectEpoch) = true := by
  decide +kernel

theorem allowed_alone : (startIn "a").allowed world .empty = true ∧
    (push "a").allowed world inA = true ∧ again.allowed world pushed₁ = true ∧
    again.allowed world restarted = true := by
  decide +kernel

theorem accepted_alone : ((startIn "a").unit world .empty).toOption.isSome = true ∧
    ((push "a").unit world inA).toOption.isSome = true ∧
    (again.unit world pushed₁).toOption.isSome = true ∧
    (again.unit world restarted).toOption.any (fun result ↦ result.2.any fun answer ↦ !answer.2) =
      true := by
  decide +kernel

theorem push_moves : (inA.subjects.rows.any fun subject ↦
    (pushed₁.subjects.get subject.subjectId).any fun later ↦
      subject.subjectEpoch < later.subjectEpoch) = true := by
  decide +kernel

theorem again_held : ∃ e runId, again.unit world restarted = .ok (e, some (runId, false)) := by
  have hheld := accepted_alone.2.2.2
  cases hunit : again.unit world restarted with
  | error error => rw [hunit] at hheld; cases hheld
  | ok result =>
    rw [hunit] at hheld
    obtain ⟨e, answer⟩ := result
    cases answer with
    | none => cases hheld
    | some answer =>
      obtain ⟨runId, started⟩ := answer
      cases started with
      | true => cases hheld
      | false => exact ⟨e, runId, rfl⟩

end Sample

/-- Starts in two domains are checked before the subject exists, and a push in the first before the
run of the second does: the push leaves that run open at the generation it was started at. -/
theorem pushed_run_is_not_upToDate : ∃ commits σ, Interleaved Sample.world commits σ ∧
    ¬∀ c ∈ commits, c.after.UpToDate ∧ c.AnswersUpToDate := by
  obtain ⟨⟨hallowA, hallowB, hallowPush⟩, hunitA, hunitB, hunitPush, hstale⟩ := Sample.facts
  obtain ⟨eA, answerA, hA, hstoreA⟩ := Sample.unit_eq_ok hunitA
  obtain ⟨eB, answerB, hB, hstoreB⟩ := Sample.unit_eq_ok hunitB
  obtain ⟨eP, answerP, hP, hstoreP⟩ := Sample.unit_eq_ok hunitPush
  rw [← Sample.inA] at hstoreA
  rw [← Sample.inB] at hstoreB
  rw [← Sample.moved] at hstoreP
  have hrunA := ((Interleaved.empty : Interleaved Sample.world [] ⟨.empty, []⟩).check hallowB).check hallowA
  have hafterA := Interleaved.commit [] [Sample.startIn "b"] hrunA hA
  rw [hstoreA] at hafterA
  have hafterB := Interleaved.commit [Sample.push "a"] []
    (hafterA.check hallowPush) hB
  rw [hstoreB] at hafterB
  have hafterP := Interleaved.commit [] [] hafterB hP
  rw [hstoreP] at hafterP
  refine ⟨_, _, hafterP, fun hupToDate ↦ ?_⟩
  have hlast := (hupToDate _ (List.mem_append_right _ List.mem_cons_self)).1
  obtain ⟨run, hrun, hopen⟩ := List.any_eq_true.mp hstale
  rw [decide_eq_true_iff] at hopen
  obtain ⟨subject, hsubject, hepoch, -⟩ := hlast run (Table.get_of_mem hrun) hopen.1
  rw [hsubject, Option.all_some, decide_eq_true_iff] at hopen
  exact hopen.2 hepoch

/-- One call after another, each checked against the store it is committed to. -/
theorem Interleaved.alone {world : World} {commits : List Commit} {store : Store} {call : Call}
    {e : Engine} {answer : Option (String × Bool)} (h : Interleaved world commits ⟨store, []⟩)
    (hallowed : call.allowed world store = true) (hunit : call.unit world store = .ok (e, answer)) :
    Interleaved world (commits ++ [⟨store, call, e.store, answer⟩]) ⟨e.store, []⟩ :=
  Interleaved.commit [] [] (h.check hallowed) hunit

/-- A start, a push that moves the subject, a start of the new generation, and one that is answered
with the run of it: every commit leaves the open runs up to date. -/
theorem started_runs_are_upToDate : ∃ commits σ, Interleaved Sample.world commits σ ∧
    (∃ c ∈ commits, ∃ subject ∈ c.before.subjects.rows,
      ∃ later, c.after.subjects.get subject.subjectId = some later ∧
        subject.subjectEpoch < later.subjectEpoch) ∧
    (∃ c ∈ commits, ∃ runId, c.answer = some (runId, false)) ∧
    ∀ c ∈ commits, c.after.UpToDate ∧ c.AnswersUpToDate := by
  obtain ⟨hallow, hallow₁, hallow₂, hallow₃⟩ := Sample.allowed_alone
  obtain ⟨hunit, hunit₁, hunit₂, -⟩ := Sample.accepted_alone
  obtain ⟨e, answer, he, hstore⟩ := Sample.unit_eq_ok hunit
  obtain ⟨e₁, answer₁, he₁, hstore₁⟩ := Sample.unit_eq_ok hunit₁
  obtain ⟨e₂, answer₂, he₂, hstore₂⟩ := Sample.unit_eq_ok hunit₂
  obtain ⟨e₃, runId, he₃⟩ := Sample.again_held
  rw [← Sample.inA] at hstore
  rw [← Sample.pushed₁] at hstore₁
  rw [← Sample.restarted] at hstore₂
  have hrun := (Interleaved.empty : Interleaved Sample.world [] ⟨.empty, []⟩).alone hallow he
  rw [hstore] at hrun
  have hrun₁ := hrun.alone hallow₁ he₁
  rw [hstore₁] at hrun₁
  have hrun₂ := hrun₁.alone hallow₂ he₂
  rw [hstore₂] at hrun₂
  have hrun₃ := hrun₂.alone hallow₃ he₃
  refine ⟨_, _, hrun₃, ?_, ⟨_, List.mem_append_right _ List.mem_cons_self, runId, rfl⟩,
    (runs_are_upToDate_iff_contained hrun₃).mpr ?_⟩
  · obtain ⟨subject, hsubject, hlater⟩ := List.any_eq_true.mp Sample.push_moves
    obtain ⟨later, hget, hlt⟩ := (Option.any_eq_true _ _).mp hlater
    rw [decide_eq_true_iff] at hlt
    exact ⟨⟨Sample.inA, Sample.push "a", Sample.pushed₁, answer₁⟩,
      List.mem_append_left _ (List.mem_append_left _ (List.mem_append_right _ List.mem_cons_self)),
      subject, hsubject, later, hget, hlt⟩
  · intro c hc
    simp only [List.nil_append, List.cons_append, List.mem_cons, List.not_mem_nil, or_false] at hc
    obtain rfl | rfl | rfl | rfl := hc
    · exact Call.contained_of_allowed hallow
    · exact Call.contained_of_allowed hallow₁
    · exact Call.contained_of_allowed hallow₂
    · exact Call.contained_of_allowed hallow₃

end Charter

end Khive
