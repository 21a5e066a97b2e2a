import Khive.Capability.Coverage

/-!
# Chains of delegations

A grant is issued from a bootstrap source or handed on from another grant. Either way the rights of
the new grant must be covered, in the same namespace and within the interval of the giver, and the
giver must be the holder. The checks are those that the issuer makes before it mints the native
capability and seals the record; what comes after can only refuse.
-/

namespace Khive

namespace Capability

/-- Finite composition-root source; this is not a persisted unsealed capability. -/
structure BootstrapSource where
  storeId : Id128
  epochId : Id128
  rootAnchorId : Id128
  owner : Principal
  «namespace» : String
  slot : String
  manifestDigest : ContractDigest
  rights : List RightSpec
  validity : Validity

section Checks

/- `Uuid::parse_str`. -/
variable (parseUuid : String → Option Id128) (catalog : ClosedCatalog)

def validateDraft (grant : EnvelopeDraft) : EnvelopeResult Unit := do
  grant.issuer.validate
  grant.grantee.validate
  grant.validity.validate
  nonempty grant.namespace
  nonempty grant.key.id
  if grant.issuer.leg.isSome then throw (.reject "subactor cannot issue grants")
  if grant.grantee.leg.isSome ∧ grant.grantee.parent ≠ grant.issuer then
    throw (.reject "only parent can grant to its leg")
  match grant.operation, grant.configurationSource with
  | .import, some source => nonempty source
  | .grant, none => pure ()
  | _, _ => throw (.invalidInput "creation provenance does not match operation")
  let _ ← catalog.validateRights parseUuid grant.rights grant.namespace grant.grantee

/-- `check_parent_scope`. -/
def checkParentScope (parent child : EnvelopeDraft) : EnvelopeResult Unit :=
  if parent.id = child.id ∨ parent.issuanceId = child.issuanceId ∨
      parent.storeId ≠ child.storeId ∨ parent.epochId ≠ child.epochId ∨
      parent.rootAnchorId ≠ child.rootAnchorId ∨ parent.namespace ≠ child.namespace ∨
      parent.grantee ≠ child.issuer ∨ ¬ parent.validity.covers child.validity ∨
      ¬ catalog.coversRights parent.rights child.rights then
    throw (.reject "parent holder, scope or interval does not cover child")
  else pure ()

/-- The checks of `issue_from_bootstrap`. -/
def checkIssue (source : BootstrapSource) (grant : EnvelopeDraft) : EnvelopeResult Unit := do
  let length ← encodedLen grant
  bound "unsigned grant" length maxRecordBytes
  validateDraft parseUuid catalog grant
  source.owner.validate
  source.validity.validate
  nonempty source.slot
  let _ ← catalog.validateSourceRights parseUuid source.rights source.namespace source.owner
  if source.owner.leg.isSome ∨ source.owner ≠ grant.issuer ∨ source.storeId ≠ grant.storeId ∨
      source.epochId ≠ grant.epochId ∨ source.rootAnchorId ≠ grant.rootAnchorId ∨
      source.namespace ≠ grant.namespace ∨ ¬ source.validity.covers grant.validity ∨
      ¬ catalog.coversRights source.rights grant.rights then
    throw (.reject "bootstrap source does not cover issued record")

/-- The checks of `delegate`, of a parent that has been verified. -/
def checkDelegate (parent grant : EnvelopeDraft) : EnvelopeResult Unit := do
  let length ← encodedLen grant
  bound "unsigned grant" length maxRecordBytes
  validateDraft parseUuid catalog grant
  checkParentScope catalog parent grant

/-- A delegation that is accepted. -/
def Delegates (parent grant : EnvelopeDraft) : Prop :=
  checkDelegate parseUuid catalog parent grant = .ok ()

/-- The end of a chain of accepted delegations, of any length, from a bootstrap source. -/
def DescendsFrom (source : BootstrapSource) (grant : EnvelopeDraft) : Prop :=
  ∃ first, checkIssue parseUuid catalog source first = .ok () ∧
    Relation.ReflTransGen (Delegates parseUuid catalog) first grant

end Checks

/-- What a source keeps of a grant: namespace, interval and rights. -/
structure BootstrapSource.Bounds (catalog : ClosedCatalog) (source : BootstrapSource)
    (grant : EnvelopeDraft) : Prop where
  «namespace» : source.namespace = grant.namespace
  validity : source.validity.covers grant.validity = true
  rights : catalog.coversRights source.rights grant.rights = true

section Chains

variable {parseUuid : String → Option Id128} {catalog : ClosedCatalog} {source : BootstrapSource}
  {parent grant : EnvelopeDraft}

theorem bounds_of_checkIssue (h : checkIssue parseUuid catalog source grant = .ok ()) :
    source.Bounds catalog grant := by
  rw [checkIssue] at h
  obtain ⟨length, -, h⟩ := bind_eq_ok.mp h
  obtain ⟨-, h⟩ := seq_eq_ok.mp h
  obtain ⟨-, h⟩ := seq_eq_ok.mp h
  obtain ⟨-, h⟩ := seq_eq_ok.mp h
  obtain ⟨-, h⟩ := seq_eq_ok.mp h
  obtain ⟨-, h⟩ := seq_eq_ok.mp h
  obtain ⟨carriers, -, h⟩ := bind_eq_ok.mp h
  split at h
  · exact absurd h throw_ne_ok
  · rename_i hscope
    push Not at hscope
    exact ⟨hscope.2.2.2.2.2.1, hscope.2.2.2.2.2.2.1, hscope.2.2.2.2.2.2.2⟩

theorem of_delegates (h : Delegates parseUuid catalog parent grant) :
    parent.namespace = grant.namespace ∧ parent.validity.covers grant.validity = true ∧
      catalog.coversRights parent.rights grant.rights = true := by
  rw [Delegates, checkDelegate] at h
  obtain ⟨length, -, h⟩ := bind_eq_ok.mp h
  obtain ⟨-, h⟩ := seq_eq_ok.mp h
  obtain ⟨-, h⟩ := seq_eq_ok.mp h
  rw [checkParentScope] at h
  split at h
  · exact absurd h throw_ne_ok
  · rename_i hscope
    push Not at hscope
    exact ⟨hscope.2.2.2.2.2.1, hscope.2.2.2.2.2.2.2.1, hscope.2.2.2.2.2.2.2.2⟩

theorem Validity.covers_trans {a b c : Validity} (h₁ : a.covers b = true)
    (h₂ : b.covers c = true) : a.covers c = true := by
  simp only [Validity.covers, Bool.and_eq_true, decide_eq_true_eq] at h₁ h₂ ⊢
  refine ⟨UInt64.le_trans h₁.1 h₂.1, ?_⟩
  cases ha : a.expiresAt with
  | none => rfl
  | some x =>
    cases hb : b.expiresAt with
    | none => simp [ha, hb] at h₁
    | some y =>
      cases hc : c.expiresAt with
      | none => simp [hb, hc] at h₂
      | some z =>
        simp only [ha, hb, hc, decide_eq_true_eq] at h₁ h₂ ⊢
        exact UInt64.le_trans h₂.2 h₁.2

/-- A source bounds the end of every chain of delegations from it. -/
theorem bounds_of_descendsFrom (h : DescendsFrom parseUuid catalog source grant) :
    source.Bounds catalog grant := by
  obtain ⟨first, hfirst, hchain⟩ := h
  refine chain_induction (P := source.Bounds catalog) hchain (bounds_of_checkIssue hfirst) ?_
  intro parent child hstep hparent
  obtain ⟨hns, hvalid, hrights⟩ := of_delegates hstep
  exact ⟨hparent.namespace.trans hns, Validity.covers_trans hparent.validity hvalid,
    ClosedCatalog.coversRights_trans hparent.rights hrights⟩

/-- **Coverage is a sound preorder.** Over a provisioned catalog, rights that pass validation cover
themselves, coverage is transitive, and covered rights admit no submission that the covering rights
do not. So the end of a chain of accepted delegations admits nothing outside the source of the
chain. -/
theorem coverage_sound_preorder (parseUuid : String → Option Id128)
    (subjects : List SubjectContract) (sources : List SourceContract) (entries : List EntryContract)
    (definitions : List DefinitionContract) (runs : List RunContract) (catalog : ClosedCatalog)
    (_ : ClosedCatalog.provision parseUuid subjects sources entries definitions runs = .ok catalog) :
    (∀ rights «namespace» principal carriers,
      catalog.validateRights parseUuid rights «namespace» principal = .ok carriers ∨
        catalog.validateSourceRights parseUuid rights «namespace» principal = .ok carriers →
      catalog.coversRights rights rights = true) ∧
    (∀ as bs cs, catalog.coversRights as bs = true → catalog.coversRights bs cs = true →
      catalog.coversRights as cs = true) ∧
    (∀ parent child «namespace» s, catalog.coversRights parent child = true →
      catalog.Admits «namespace» child s → catalog.Admits «namespace» parent s) ∧
    ∀ source grant s, DescendsFrom parseUuid catalog source grant →
      catalog.Admits grant.namespace grant.rights s →
      catalog.Admits source.namespace source.rights s := by
  refine ⟨?_, fun _ _ _ ↦ ClosedCatalog.coversRights_trans,
    fun _ _ _ _ ↦ ClosedCatalog.Admits.of_covers, ?_⟩
  · intro rights ns principal carriers h
    rcases h with h | h
    · exact ClosedCatalog.coversRights_self h
    · exact ClosedCatalog.coversRights_self h
  · intro source grant s h hs
    have hbounds := bounds_of_descendsFrom h
    rw [hbounds.namespace]
    exact ClosedCatalog.Admits.of_covers hbounds.rights hs

end Chains

/-! ## A chain of two grants -/

section Sample

def sampleDigest : ContractDigest := ⟨⟨List.replicate 32 0, rfl⟩⟩

def sampleContract (name : String) : ContractRef := ⟨name, 1, sampleDigest⟩

/-- A catalog of one kind of subject, one source and one entry. -/
def sampleCatalog : ClosedCatalog where
  subjects := [⟨sampleContract "subject", .anyBytes, true, [], []⟩]
  sources := [⟨sampleContract "source", .anyBytes, [⟨[1]⟩]⟩]
  entries := [⟨sampleContract "entry", .instrument, sampleContract "subject",
    some (sampleContract "source"), none, []⟩]
  definitions := []
  runs := []

def sampleRights (selector : SubjectSelector) : List RightSpec :=
  [.recordObservation ⟨[⟨"domain", sampleContract "entry", .instrument, .observe,
    ⟨sampleContract "subject", selector⟩,
    .instrument ⟨sampleContract "source", [⟨[1]⟩], [⟨[]⟩]⟩⟩]⟩]

def sampleValidity : Validity := ⟨0, none⟩

def samplePrincipal (id : String) : Principal := ⟨"actor", id, none⟩

def sampleSource : BootstrapSource where
  storeId := 1
  epochId := 2
  rootAnchorId := 3
  owner := samplePrincipal "owner"
  «namespace» := "ns"
  slot := "slot"
  manifestDigest := sampleDigest
  rights := sampleRights .allSubjectsOfKind
  validity := sampleValidity

def sampleGrant (id : Id128) (issuer grantee : String) (selector : SubjectSelector) :
    EnvelopeDraft where
  id := id
  storeId := 1
  epochId := 2
  rootAnchorId := 3
  issuer := samplePrincipal issuer
  grantee := samplePrincipal grantee
  «namespace» := "ns"
  rights := sampleRights selector
  validity := sampleValidity
  createdAt := 0
  assurance := .configuredLocal
  operation := .grant
  actionId := 4
  configurationSource := none
  issuanceId := id
  key := ⟨"key", 0⟩

theorem provision_sample : ClosedCatalog.provision (fun _ ↦ none) sampleCatalog.subjects
    sampleCatalog.sources sampleCatalog.entries [] [] = .ok sampleCatalog := by
  rfl

/-- An outcome is evaluated up to its constructor only. -/
private theorem eq_ok_of_isOk {ε : Type} : ∀ {x : Except ε Unit}, x.isOk = true → x = .ok ()
  | .ok (), _ => rfl

theorem descendsFrom_sample : DescendsFrom (fun _ ↦ none) sampleCatalog sampleSource
    (sampleGrant 6 "first" "second" (.exact [⟨[7]⟩])) :=
  ⟨sampleGrant 5 "owner" "first" .allSubjectsOfKind, eq_ok_of_isOk (by decide +kernel),
    .single (eq_ok_of_isOk (by decide +kernel))⟩

def sampleSubmission : Submission where
  act := .record
  «namespace» := "ns"
  policyDomain := "domain"
  entry := sampleContract "entry"
  producerClass := .instrument
  channel := .observe
  subjectKind := sampleContract "subject"
  subject := ⟨[7]⟩
  origin := .instrument (sampleContract "source") ⟨[1]⟩ ⟨[]⟩

/-- All subjects, then one of them: the second grantee stays within the source. -/
theorem coverage_sound_preorder_sample :
    sampleCatalog.coversRights (sampleRights .allSubjectsOfKind) (sampleRights .allSubjectsOfKind) =
        true ∧
      sampleCatalog.coversRights (sampleRights .allSubjectsOfKind) (sampleRights (.exact [⟨[7]⟩])) =
        true ∧
      sampleCatalog.Admits "ns" (sampleRights .allSubjectsOfKind) sampleSubmission := by
  obtain ⟨hrefl, htrans, -, hchain⟩ := coverage_sound_preorder (fun _ ↦ none)
    sampleCatalog.subjects sampleCatalog.sources sampleCatalog.entries [] [] sampleCatalog
    provision_sample
  have hadmits : sampleCatalog.Admits "ns" (sampleRights (.exact [⟨[7]⟩])) sampleSubmission :=
    ⟨_, List.mem_cons_self, rfl, rfl, _, List.mem_cons_self, rfl, rfl, rfl, rfl, rfl, rfl, rfl,
      List.mem_cons_self, List.mem_cons_self⟩
  exact ⟨hrefl _ "ns" (samplePrincipal "owner") 4 (.inr rfl),
    htrans _ (sampleRights (.exact [⟨[7]⟩, ⟨[8]⟩])) _ rfl rfl,
    hchain sampleSource _ _ descendsFrom_sample hadmits⟩

end Sample

end Capability

end Khive
