import Khive.Capability.Catalog
import Khive.Foundation.Covering

/-!
# Coverage is a sound preorder

A grant may hand on what its giver holds, and `coversRights` decides what that is. The delegation
tree rests on three facts about it. It is reflexive on rights that pass validation, it is transitive,
and it is sound: a submission that some covered right admits is admitted by a covering right. So
whatever the length of a chain of delegations, its last grantee gets no further than the bootstrap
source that the chain starts from.

The three shapes of subject selector meet in `coversSubject`: exact references are looked up one by
one, repositories are compared as sets, and the selector of all subjects covers itself. A chain can
pass from one shape to another only towards exact references, which is why transitivity holds.
-/

namespace Khive

namespace Capability

namespace ClosedCatalog

variable {catalog : ClosedCatalog}

/-! ## Subjects -/

section Subjects

variable {a b c : SubjectScope} {kind : ContractRef} {reference : ExactBytes}

/-- How one subject scope covers another of its kind: reference by reference, repository by
repository, or all subjects by all subjects. -/
theorem coversSubject_iff :
    catalog.coversSubject a b = true ↔ a.kind = b.kind ∧
      ((∃ refs, b.selector = .exact refs ∧ ∀ r ∈ refs, catalog.subjectContains a r = true) ∨
        (∃ held wanted, a.selector = .repositories held ∧ b.selector = .repositories wanted ∧
          ∀ r ∈ wanted, r ∈ held) ∨
        (a.selector = .allSubjectsOfKind ∧ b.selector = .allSubjectsOfKind ∧
          (catalog.subject? a.kind).any (·.repositoryIndependent) = true)) := by
  by_cases hkind : a.kind = b.kind
  · cases ha : a.selector <;> cases hb : b.selector <;> simp [coversSubject, hkind, ha, hb]
  · simp [coversSubject, hkind]

/-- Exact references are looked up one by one, whatever the shape of the covering selector. -/
theorem coversSubject_exact {refs : List ExactBytes} :
    catalog.coversSubject a ⟨kind, .exact refs⟩ = true ↔
      a.kind = kind ∧ ∀ r ∈ refs, catalog.subjectContains a r = true := by
  rw [coversSubject_iff]
  simp

/-- Repositories are covered by repositories alone. -/
theorem coversSubject_repositories {repositories : List RepositoryIdentity} :
    catalog.coversSubject a ⟨kind, .repositories repositories⟩ = true ↔
      a.kind = kind ∧ ∃ held, a.selector = .repositories held ∧ ∀ r ∈ repositories, r ∈ held := by
  rw [coversSubject_iff]
  simp

/-- All subjects are covered by all subjects alone. -/
theorem coversSubject_all :
    catalog.coversSubject a ⟨kind, .allSubjectsOfKind⟩ = true ↔
      a.kind = kind ∧ a.selector = .allSubjectsOfKind ∧
        (catalog.subject? kind).any (·.repositoryIndependent) = true := by
  rw [coversSubject_iff]
  refine and_congr_right fun hkind ↦ ?_
  simp [hkind]

theorem kind_eq_of_coversSubject (h : catalog.coversSubject a b = true) : a.kind = b.kind := by
  obtain ⟨kind, selector⟩ := b
  cases selector with
  | exact refs => exact (coversSubject_exact.mp h).1
  | repositories held => exact (coversSubject_repositories.mp h).1
  | allSubjectsOfKind => exact (coversSubject_all.mp h).1

/-- What a scope contains: a reference of a known kind that its selector admits. -/
theorem subjectContains_iff :
    catalog.subjectContains a reference = true ↔
      ∃ contract, catalog.subject? a.kind = some contract ∧
        ((∃ refs, a.selector = .exact refs ∧ reference ∈ refs) ∨
          (a.selector = .allSubjectsOfKind ∧ contract.repositoryIndependent = true) ∨
          ∃ held, a.selector = .repositories held ∧
            ∃ repository ∈ held, (reference, repository) ∈ contract.membership) := by
  rw [subjectContains]
  cases hcontract : catalog.subject? a.kind with
  | none => simp
  | some contract =>
    cases a.selector with
    | exact refs => simp
    | allSubjectsOfKind => simp
    | repositories held =>
      simp only [List.any_eq_true, Bool.and_eq_true, decide_eq_true_eq, List.contains_iff_mem,
        Option.some.injEq, exists_eq_left', reduceCtorEq, false_and, exists_false, false_or,
        SubjectSelector.repositories.injEq]
      constructor
      · rintro ⟨⟨r, repository⟩, hmem, rfl, hheld⟩
        exact ⟨repository, hheld, hmem⟩
      · rintro ⟨repository, hheld, hmem⟩
        exact ⟨(reference, repository), hmem, rfl, hheld⟩

theorem subjectContains_exact {refs : List ExactBytes} :
    catalog.subjectContains ⟨kind, .exact refs⟩ reference = true ↔
      (catalog.subject? kind).isSome = true ∧ reference ∈ refs := by
  rw [subjectContains_iff, Option.isSome_iff_exists]
  simp

theorem subjectContains_repositories {held : List RepositoryIdentity} :
    catalog.subjectContains ⟨kind, .repositories held⟩ reference = true ↔
      ∃ contract, catalog.subject? kind = some contract ∧
        ∃ repository ∈ held, (reference, repository) ∈ contract.membership := by
  rw [subjectContains_iff]
  simp

/-- **Coverage of subjects is sound**: what the covered scope contains, the covering one does. -/
theorem subjectContains_of_coversSubject (h : catalog.coversSubject a b = true)
    (hb : catalog.subjectContains b reference = true) :
    catalog.subjectContains a reference = true := by
  obtain ⟨kind, selector⟩ := b
  cases selector with
  | exact refs =>
    exact (coversSubject_exact.mp h).2 reference (subjectContains_exact.mp hb).2
  | repositories repositories =>
    obtain ⟨akind, aselector⟩ := a
    obtain ⟨rfl, held, rfl, hsub⟩ := coversSubject_repositories.mp h
    obtain ⟨contract, hcontract, repository, hrepository, hmem⟩ := subjectContains_repositories.mp hb
    exact subjectContains_repositories.mpr ⟨contract, hcontract, repository, hsub _ hrepository, hmem⟩
  | allSubjectsOfKind =>
    obtain ⟨akind, aselector⟩ := a
    obtain ⟨rfl, rfl, -⟩ := coversSubject_all.mp h
    exact hb

theorem coversSubject_trans (h₁ : catalog.coversSubject a b = true)
    (h₂ : catalog.coversSubject b c = true) : catalog.coversSubject a c = true := by
  have hkind := (kind_eq_of_coversSubject h₁).trans (kind_eq_of_coversSubject h₂)
  obtain ⟨kind, selector⟩ := c
  cases selector with
  | exact refs =>
    refine coversSubject_exact.mpr ⟨hkind, fun r hr ↦ ?_⟩
    exact subjectContains_of_coversSubject h₁ ((coversSubject_exact.mp h₂).2 r hr)
  | repositories repositories =>
    obtain ⟨bkind, bselector⟩ := b
    obtain ⟨rfl, middle, rfl, hsub⟩ := coversSubject_repositories.mp h₂
    obtain ⟨-, held, hheld, hsub'⟩ := coversSubject_repositories.mp h₁
    exact coversSubject_repositories.mpr ⟨hkind, held, hheld, fun r hr ↦ hsub' r (hsub r hr)⟩
  | allSubjectsOfKind =>
    obtain ⟨bkind, bselector⟩ := b
    obtain ⟨rfl, rfl, -⟩ := coversSubject_all.mp h₂
    exact h₁

/-- A scope that passes validation covers itself. -/
theorem coversSubject_self {parseUuid : String → Option Id128}
    (h : catalog.validateSubject parseUuid a = .ok ()) : catalog.coversSubject a a = true := by
  obtain ⟨kind, selector⟩ := a
  rw [validateSubject] at h
  cases hcontract : catalog.subject? kind with
  | none => simp [hcontract, throw_ne_ok] at h
  | some contract =>
    simp only [hcontract] at h
    cases selector with
    | exact refs =>
      refine coversSubject_exact.mpr ⟨rfl, fun r hr ↦ ?_⟩
      exact subjectContains_exact.mpr ⟨Option.isSome_iff_exists.mpr ⟨_, hcontract⟩, hr⟩
    | repositories held => exact coversSubject_repositories.mpr ⟨rfl, held, rfl, fun _ hr ↦ hr⟩
    | allSubjectsOfKind =>
      refine coversSubject_all.mpr ⟨rfl, rfl, ?_⟩
      simp only [hcontract, Option.any_some]
      by_contra hdependent
      rw [Bool.not_eq_true] at hdependent
      simp [hdependent, throw_ne_ok] at h

end Subjects

end ClosedCatalog

/-! ## Sources and actors -/

section Bindings

variable {a b c : SourceBinding} {p q r : SubmissionBinding}

theorem sourceCovers_iff :
    sourceCovers a b = true ↔ a.contract = b.contract ∧ (∀ i ∈ b.identities, i ∈ a.identities) ∧
      ∀ args ∈ b.arguments, args ∈ a.arguments := by
  simp [sourceCovers, and_assoc]

theorem sourceCovers_self : sourceCovers a a = true :=
  sourceCovers_iff.mpr ⟨rfl, fun _ h ↦ h, fun _ h ↦ h⟩

theorem sourceCovers_trans (h₁ : sourceCovers a b = true) (h₂ : sourceCovers b c = true) :
    sourceCovers a c = true := by
  obtain ⟨hcontract, hidentities, harguments⟩ := sourceCovers_iff.mp h₁
  obtain ⟨hcontract', hidentities', harguments'⟩ := sourceCovers_iff.mp h₂
  exact sourceCovers_iff.mpr ⟨hcontract.trans hcontract', fun i hi ↦ hidentities i (hidentities' i hi),
    fun i hi ↦ harguments i (harguments' i hi)⟩

/-- Two instruments, two relays of one response, or the same binding. -/
theorem bindingCovers_iff :
    bindingCovers p q = true ↔
      (∃ a b, p = .instrument a ∧ q = .instrument b ∧ sourceCovers a b = true) ∨
      (∃ a b response, p = .platformRelay a response ∧ q = .platformRelay b response ∧
        sourceCovers a b = true) ∨ p = q := by
  constructor
  · intro h
    unfold bindingCovers at h
    split at h
    · exact .inl ⟨_, _, rfl, rfl, h⟩
    · simp only [Bool.and_eq_true, decide_eq_true_eq] at h
      obtain ⟨rfl, h⟩ := h
      exact .inr (.inl ⟨_, _, _, rfl, rfl, h⟩)
    · exact .inr (.inr (of_decide_eq_true h))
  · rintro (⟨a, b, rfl, rfl, h⟩ | ⟨a, b, response, rfl, rfl, h⟩ | rfl)
    · exact h
    · simp [bindingCovers, h]
    · cases p <;> simp [bindingCovers, sourceCovers_self]

theorem bindingCovers_self : bindingCovers p p = true :=
  bindingCovers_iff.mpr (.inr (.inr rfl))

theorem bindingCovers_trans (h₁ : bindingCovers p q = true) (h₂ : bindingCovers q r = true) :
    bindingCovers p r = true := by
  rcases bindingCovers_iff.mp h₁ with ⟨a, b, rfl, rfl, h⟩ | ⟨a, b, response, rfl, rfl, h⟩ | rfl
  · rcases bindingCovers_iff.mp h₂ with ⟨b', c, hb, rfl, h'⟩ | ⟨b', c, response, hb, -, -⟩ | rfl
    · obtain rfl := SubmissionBinding.instrument.inj hb
      exact bindingCovers_iff.mpr (.inl ⟨a, c, rfl, rfl, sourceCovers_trans h h'⟩)
    · exact SubmissionBinding.noConfusion hb
    · exact h₁
  · rcases bindingCovers_iff.mp h₂ with ⟨b', c, hb, -, -⟩ | ⟨b', c, response', hb, rfl, h'⟩ | rfl
    · exact SubmissionBinding.noConfusion hb
    · obtain ⟨rfl, rfl⟩ := SubmissionBinding.platformRelay.inj hb
      exact bindingCovers_iff.mpr (.inr (.inl ⟨a, c, response, rfl, rfl, sourceCovers_trans h h'⟩))
    · exact h₁
  · exact h₂

end Bindings

namespace ClosedCatalog

variable {catalog : ClosedCatalog}

/-! ## Permissions and rights -/

section Permissions

variable {a b c : ObservationPermission}

theorem coversObservationPermission_iff :
    catalog.coversObservationPermission a b = true ↔
      a.policyDomain = b.policyDomain ∧ a.entry = b.entry ∧ a.producerClass = b.producerClass ∧
        a.channel = b.channel ∧ catalog.coversSubject a.subject b.subject = true ∧
        bindingCovers a.binding b.binding = true := by
  simp [coversObservationPermission, and_assoc]

theorem coversObservationPermission_trans (h₁ : catalog.coversObservationPermission a b = true)
    (h₂ : catalog.coversObservationPermission b c = true) :
    catalog.coversObservationPermission a c = true := by
  rw [coversObservationPermission_iff] at h₁ h₂ ⊢
  obtain ⟨hdomain, hentry, hclass, hchannel, hsubject, hbinding⟩ := h₁
  obtain ⟨hdomain', hentry', hclass', hchannel', hsubject', hbinding'⟩ := h₂
  exact ⟨hdomain.trans hdomain', hentry.trans hentry', hclass.trans hclass',
    hchannel.trans hchannel', coversSubject_trans hsubject hsubject',
    bindingCovers_trans hbinding hbinding'⟩

end Permissions

section Scopes

variable {a b c : ObservationScope}

theorem coversScope_iff :
    catalog.coversScope a b = true ↔
      Covering (fun held wanted ↦ catalog.coversObservationPermission held wanted = true)
        a.permissions b.permissions :=
  covering_all_any

theorem coversScope_trans (h₁ : catalog.coversScope a b = true)
    (h₂ : catalog.coversScope b c = true) : catalog.coversScope a c = true :=
  coversScope_iff.mpr ((coversScope_iff.mp h₁).trans
    (fun _ _ _ ↦ coversObservationPermission_trans) (coversScope_iff.mp h₂))

end Scopes

section Rights

variable {x y z : RightSpec} {as bs cs : List RightSpec}

/-- Rights of one kind, in one namespace, whose scopes cover one another. -/
theorem coversRight_iff :
    catalog.coversRight x y = true ↔
      (∃ a b, x = .recordObservation a ∧ y = .recordObservation b ∧
        catalog.coversScope a b = true) ∨
      ∃ ns a b, x = .grantAdmin ⟨ns, .recordObservation a⟩ ∧
        y = .grantAdmin ⟨ns, .recordObservation b⟩ ∧ catalog.coversScope a b = true := by
  constructor
  · intro h
    unfold coversRight at h
    split at h
    · exact .inl ⟨_, _, rfl, rfl, h⟩
    · rename_i a b
      obtain ⟨ns, target⟩ := a
      obtain ⟨ns', target'⟩ := b
      simp only [Bool.and_eq_true, decide_eq_true_eq] at h
      obtain ⟨rfl, h⟩ := h
      split at h
      · exact .inr ⟨ns, _, _, rfl, rfl, h⟩
      · exact absurd h Bool.false_ne_true
    · exact absurd h Bool.false_ne_true
  · rintro (⟨a, b, rfl, rfl, h⟩ | ⟨ns, a, b, rfl, rfl, h⟩)
    · exact h
    · simp [coversRight, h]

theorem coversRight_trans (h₁ : catalog.coversRight x y = true)
    (h₂ : catalog.coversRight y z = true) : catalog.coversRight x z = true := by
  rcases coversRight_iff.mp h₁ with ⟨a, b, rfl, rfl, h⟩ | ⟨ns, a, b, rfl, rfl, h⟩
  · rcases coversRight_iff.mp h₂ with ⟨b', c, hb, rfl, h'⟩ | ⟨ns, b', c, hb, -, -⟩
    · obtain rfl := RightSpec.recordObservation.inj hb
      exact coversRight_iff.mpr (.inl ⟨a, c, rfl, rfl, coversScope_trans h h'⟩)
    · exact RightSpec.noConfusion hb
  · rcases coversRight_iff.mp h₂ with ⟨b', c, hb, -, -⟩ | ⟨ns', b', c, hb, rfl, h'⟩
    · exact RightSpec.noConfusion hb
    · obtain ⟨rfl, hscope⟩ := AdminScope.mk.inj (RightSpec.grantAdmin.inj hb)
      obtain rfl := AdminTarget.recordObservation.inj hscope
      exact coversRight_iff.mpr (.inr ⟨ns, a, c, rfl, rfl, coversScope_trans h h'⟩)

theorem coversRights_iff :
    catalog.coversRights as bs = true ↔
      Covering (fun held child ↦ catalog.coversRight held child = true) as bs :=
  covering_all_any

theorem coversRights_trans (h₁ : catalog.coversRights as bs = true)
    (h₂ : catalog.coversRights bs cs = true) : catalog.coversRights as cs = true :=
  coversRights_iff.mpr ((coversRights_iff.mp h₁).trans (fun _ _ _ ↦ coversRight_trans)
    (coversRights_iff.mp h₂))

end Rights

/-! ## Rights that pass validation cover themselves -/

section Validated

variable {parseUuid : String → Option Id128} {«namespace» : String} {principal : Principal}
  {grantee : Option Principal} {bindProducer : Bool}

theorem validateSubject_of_validatePermission {p : ObservationPermission}
    (h : catalog.validatePermission parseUuid p grantee = .ok ()) :
    catalog.validateSubject parseUuid p.subject = .ok () := by
  rw [validatePermission] at h
  obtain ⟨-, h⟩ := seq_eq_ok.mp h
  obtain ⟨-, h⟩ := guard_eq_ok.mp h
  obtain ⟨-, h⟩ := guard_eq_ok.mp h
  split at h
  · exact absurd h throw_ne_ok
  · obtain ⟨-, h⟩ := guard_eq_ok.mp h
    exact (seq_eq_ok.mp h).1

theorem validatePermission_of_mem {before rest : List ObservationPermission}
    (h : catalog.validatePermissions parseUuid grantee before rest = .ok ())
    {p : ObservationPermission} (hp : p ∈ rest) :
    catalog.validatePermission parseUuid p grantee = .ok () := by
  induction rest generalizing before with
  | nil => exact absurd hp List.not_mem_nil
  | cons permission rest ih =>
    rw [validatePermissions] at h
    obtain ⟨-, h⟩ := guard_eq_ok.mp h
    obtain ⟨hpermission, h⟩ := seq_eq_ok.mp h
    rcases List.mem_cons.mp hp with rfl | hp
    · exact hpermission
    · exact ih h hp

/-- The scope of a right that passes. -/
theorem rightScope_eq_ok {carriers carriers' : Rights} {right : RightSpec} {scope : ObservationScope}
    (h : rightScope «namespace» principal carriers right = .ok (carriers', scope)) :
    right = .recordObservation scope ∨
      right = .grantAdmin ⟨«namespace», .recordObservation scope⟩ := by
  unfold rightScope at h
  split at h
  · exact .inl (congrArg RightSpec.recordObservation (Prod.mk.inj (pure_eq_ok.mp h)).2)
  · rename_i admin
    obtain ⟨ns, target⟩ := admin
    obtain ⟨-, hguarded⟩ := guard_eq_ok.mp h
    obtain ⟨hns, htarget⟩ := guard_eq_ok.mp hguarded
    obtain rfl : ns = «namespace» := not_not.mp hns
    cases target with
    | recordObservation scope' =>
      obtain ⟨-, rfl⟩ := Prod.mk.inj (pure_eq_ok.mp htarget)
      exact .inr rfl
    | read | create | write | delete | send => exact absurd htarget throw_ne_ok
  · exact absurd h throw_ne_ok

theorem coversScope_self {scope : ObservationScope}
    (h : catalog.validatePermissions parseUuid grantee [] scope.permissions = .ok ()) :
    catalog.coversScope scope scope = true := by
  refine coversScope_iff.mpr (Covering.refl fun p hp ↦ ?_)
  have hsubject := validateSubject_of_validatePermission (validatePermission_of_mem h hp)
  exact coversObservationPermission_iff.mpr
    ⟨rfl, rfl, rfl, rfl, coversSubject_self hsubject, bindingCovers_self⟩

theorem coversRight_self {carriers carriers' : Rights} {right : RightSpec}
    (h : catalog.validateRight parseUuid «namespace» principal bindProducer carriers right =
      .ok carriers') : catalog.coversRight right right = true := by
  rw [validateRight] at h
  obtain ⟨⟨carriers, scope⟩, hscope, h⟩ := bind_eq_ok.mp h
  obtain ⟨-, h⟩ := seq_eq_ok.mp h
  obtain ⟨hpermissions, -⟩ := seq_eq_ok.mp h
  have hself := coversScope_self hpermissions
  rcases rightScope_eq_ok hscope with rfl | rfl
  · exact coversRight_iff.mpr (.inl ⟨scope, scope, rfl, rfl, hself⟩)
  · exact coversRight_iff.mpr (.inr ⟨_, scope, scope, rfl, rfl, hself⟩)

theorem coversRights_self {rights : List RightSpec} {carriers : Rights}
    (h : catalog.validateRightsInner parseUuid rights «namespace» principal bindProducer =
      .ok carriers) : catalog.coversRights rights rights = true := by
  rw [validateRightsInner] at h
  obtain ⟨-, h⟩ := seq_eq_ok.mp h
  obtain ⟨-, h⟩ := seq_eq_ok.mp h
  obtain ⟨-, h⟩ := seq_eq_ok.mp h
  refine coversRights_iff.mpr (Covering.refl fun right hright ↦ ?_)
  obtain ⟨_, _, hstep⟩ := exists_of_mem_foldlM h hright
  exact coversRight_self hstep

end Validated

end ClosedCatalog

/-! ## Submissions -/

/-- What a right is exercised for. -/
inductive Act where
  | record
  | administer
  deriving DecidableEq

/-- Where a submission comes from: a source with its arguments, or an exact actor binding. -/
inductive Origin where
  | instrument (contract : ContractRef) (identity : ExactBytes) (arguments : ExactArguments)
  | platformRelay (contract : ContractRef) (identity : ExactBytes) (arguments : ExactArguments)
      (responseContract : ContractRef)
  | actor (binding : SubmissionBinding)

/-- A concrete submission. -/
structure Submission where
  act : Act
  «namespace» : String
  policyDomain : String
  entry : ContractRef
  producerClass : ProducerClass
  channel : SubmissionChannel
  subjectKind : ContractRef
  subject : ExactBytes
  origin : Origin

def SourceBinding.Admits (b : SourceBinding) (contract : ContractRef) (identity : ExactBytes)
    (arguments : ExactArguments) : Prop :=
  b.contract = contract ∧ identity ∈ b.identities ∧ arguments ∈ b.arguments

/-- A source admits its identities with its argument tuples, and an actor binding itself. -/
def SubmissionBinding.Admits : SubmissionBinding → Origin → Prop
  | .instrument b, .instrument contract identity arguments => b.Admits contract identity arguments
  | .platformRelay b response, .platformRelay contract identity arguments response' =>
    b.Admits contract identity arguments ∧ response = response'
  | .instrument _, _ | .platformRelay .., _ => False
  | binding, .actor binding' => binding = binding'
  | _, _ => False

namespace ClosedCatalog

variable (catalog : ClosedCatalog)

def PermissionAdmits (p : ObservationPermission) (s : Submission) : Prop :=
  p.policyDomain = s.policyDomain ∧ p.entry = s.entry ∧ p.producerClass = s.producerClass ∧
    p.channel = s.channel ∧ p.subject.kind = s.subjectKind ∧
    catalog.subjectContains p.subject s.subject = true ∧ p.binding.Admits s.origin

def ScopeAdmits (scope : ObservationScope) (s : Submission) : Prop :=
  ∃ p ∈ scope.permissions, catalog.PermissionAdmits p s

/-- What a right of a grant in a namespace admits. -/
def RightAdmits («namespace» : String) (s : Submission) : RightSpec → Prop
  | .recordObservation scope =>
    s.act = .record ∧ s.namespace = «namespace» ∧ catalog.ScopeAdmits scope s
  | .grantAdmin ⟨ns, .recordObservation scope⟩ =>
    s.act = .administer ∧ s.namespace = ns ∧ catalog.ScopeAdmits scope s
  | _ => False

/-- What the rights of a grant in a namespace admit. -/
def Admits («namespace» : String) (rights : List RightSpec) (s : Submission) : Prop :=
  ∃ right ∈ rights, catalog.RightAdmits «namespace» s right

end ClosedCatalog

/-! ## Coverage is sound -/

section Sound

variable {catalog : ClosedCatalog} {s : Submission}

theorem SourceBinding.Admits.of_covers {a b : SourceBinding} {contract : ContractRef}
    {identity : ExactBytes} {arguments : ExactArguments} (h : sourceCovers a b = true)
    (hb : b.Admits contract identity arguments) : a.Admits contract identity arguments := by
  obtain ⟨hcontract, hidentities, harguments⟩ := sourceCovers_iff.mp h
  exact ⟨hcontract.trans hb.1, hidentities identity hb.2.1, harguments arguments hb.2.2⟩

theorem SubmissionBinding.Admits.of_covers {p q : SubmissionBinding} {origin : Origin}
    (h : bindingCovers p q = true) (hq : q.Admits origin) : p.Admits origin := by
  rcases bindingCovers_iff.mp h with
    ⟨a, b, rfl, rfl, hsource⟩ | ⟨a, b, response, rfl, rfl, hsource⟩ | rfl
  · cases origin with
    | instrument contract identity arguments => exact SourceBinding.Admits.of_covers hsource hq
    | platformRelay _ _ _ _ | actor _ => exact hq.elim
  · cases origin with
    | platformRelay contract identity arguments response' =>
      exact ⟨SourceBinding.Admits.of_covers hsource hq.1, hq.2⟩
    | instrument _ _ _ | actor _ => exact hq.elim
  · exact hq

namespace ClosedCatalog

theorem PermissionAdmits.of_covers {a b : ObservationPermission}
    (h : catalog.coversObservationPermission a b = true) (hb : catalog.PermissionAdmits b s) :
    catalog.PermissionAdmits a s := by
  obtain ⟨hdomain, hentry, hclass, hchannel, hsubject, hbinding⟩ :=
    coversObservationPermission_iff.mp h
  obtain ⟨hdomain', hentry', hclass', hchannel', hkind, hcontains, horigin⟩ := hb
  exact ⟨hdomain.trans hdomain', hentry.trans hentry', hclass.trans hclass',
    hchannel.trans hchannel', (kind_eq_of_coversSubject hsubject).trans hkind,
    subjectContains_of_coversSubject hsubject hcontains,
    SubmissionBinding.Admits.of_covers hbinding horigin⟩

theorem ScopeAdmits.of_covers {a b : ObservationScope} (h : catalog.coversScope a b = true)
    (hb : catalog.ScopeAdmits b s) : catalog.ScopeAdmits a s :=
  (coversScope_iff.mp h).admits (fun _ _ ↦ PermissionAdmits.of_covers) hb

theorem RightAdmits.of_covers {«namespace» : String} {x y : RightSpec}
    (h : catalog.coversRight x y = true) (hy : catalog.RightAdmits «namespace» s y) :
    catalog.RightAdmits «namespace» s x := by
  rcases coversRight_iff.mp h with ⟨a, b, rfl, rfl, hscope⟩ | ⟨ns, a, b, rfl, rfl, hscope⟩
  · exact ⟨hy.1, hy.2.1, ScopeAdmits.of_covers hscope hy.2.2⟩
  · exact ⟨hy.1, hy.2.1, ScopeAdmits.of_covers hscope hy.2.2⟩

/-- **Covered rights admit nothing that the covering rights do not.** -/
theorem Admits.of_covers {«namespace» : String} {as bs : List RightSpec}
    (h : catalog.coversRights as bs = true) (hs : catalog.Admits «namespace» bs s) :
    catalog.Admits «namespace» as s :=
  (coversRights_iff.mp h).admits (fun _ _ ↦ RightAdmits.of_covers) hs

end ClosedCatalog

end Sound

end Capability

end Khive
