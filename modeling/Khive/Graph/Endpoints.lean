import Khive.Graph.Resolve

/-!
# Edge endpoints

Which records an edge of a relation may join is one contract with three cases. `annotates` goes from
a note to anything that the graph stores. `supersedes`, `supports` and `refutes` stay within one
substrate. Every other relation joins what the base table or the rules of the loaded packs name.
`Admits` states that contract.

The code states it twice for records it has read: once resolving the two identifiers itself, once on
records that the caller resolved on two backends. Both are compared with the contract here. The
second does not ask whether the target of `annotates` is private to a pack; it meets the contract all
the same, for resolution finds no such record.
-/

namespace Khive

/-! ## Rules -/

/-- `endpoint_matches`. -/
def endpointMatches (spec : EndpointKind) (substrate kind : String) (entityType : Option String) :
    Bool :=
  match spec with
  | .entityOfKind k => substrate == "entity" && k == kind
  | .noteOfKind k => substrate == "note" && k == kind
  | .entityOfType k t => substrate == "entity" && k == kind && entityType == some t

open EdgeRelation in
/-- `BASE_ENTITY_ENDPOINT_RULES`. -/
def baseEntityEndpointRules : List (String × EdgeRelation × String) :=
  [("concept", contains, "concept"), ("project", contains, "project"),
    ("project", contains, "artifact"), ("org", contains, "project"), ("org", contains, "service"),
    ("concept", partOf, "concept"), ("project", partOf, "project"), ("project", partOf, "org"),
    ("*", instanceOf, "concept"), ("service", instanceOf, "project"),
    ("document", linksTo, "document"),
    ("concept", locatedIn, "concept"), ("org", locatedIn, "concept"),
    ("person", owns, "org"), ("org", owns, "org"),
    ("concept", .extends, "concept"), ("concept", variantOf, "concept"),
    ("artifact", variantOf, "artifact"),
    ("concept", introducedBy, "document"), ("concept", introducedBy, "person"),
    ("artifact", introducedBy, "document"), ("project", introducedBy, "document"),
    ("service", introducedBy, "document"), ("document", introducedBy, "person"),
    ("document", introducedBy, "org"), ("concept", introducedBy, "org"),
    ("artifact", derivedFrom, "dataset"), ("artifact", derivedFrom, "document"),
    ("artifact", derivedFrom, "project"), ("artifact", derivedFrom, "artifact"),
    ("document", derivedFrom, "document"),
    ("document", precedes, "document"), ("dataset", precedes, "dataset"),
    ("artifact", precedes, "artifact"), ("service", precedes, "service"),
    ("project", precedes, "project"),
    ("project", dependsOn, "project"), ("service", dependsOn, "project"),
    ("service", dependsOn, "service"), ("service", dependsOn, "artifact"),
    ("service", dependsOn, "dataset"), ("artifact", dependsOn, "project"),
    ("artifact", dependsOn, "service"), ("document", dependsOn, "document"),
    ("concept", enables, "concept"), ("service", enables, "concept"),
    ("dataset", enables, "concept"),
    ("project", implements, "concept"), ("service", implements, "concept"),
    ("artifact", implements, "concept"),
    ("concept", competesWith, "concept"), ("project", competesWith, "project"),
    ("service", competesWith, "service"), ("org", competesWith, "org"),
    ("concept", composedWith, "concept"), ("project", composedWith, "project"),
    ("concept", supersedes, "concept"), ("document", supersedes, "document"),
    ("artifact", supersedes, "artifact"), ("service", supersedes, "service"),
    ("dataset", supersedes, "dataset"),
    ("concept", supports, "concept"), ("document", supports, "concept"),
    ("dataset", supports, "concept"), ("artifact", supports, "concept"),
    ("concept", refutes, "concept"), ("document", refutes, "concept"),
    ("dataset", refutes, "concept"), ("artifact", refutes, "concept")]

/-- Whether a source pattern of the base table, where `*` is any kind, takes the kind. -/
def baseSourceMatches (pattern kind : String) : Bool := pattern == "*" || pattern == kind

/-- `base_entity_rule_allows`. -/
def baseEntityRuleAllows (sourceKind : String) (relation : EdgeRelation) (targetKind : String) :
    Bool :=
  baseEntityEndpointRules.any fun (source, rel, target) ↦
    rel == relation && baseSourceMatches source sourceKind && target == targetKind

/-- `SPECIAL_RELATIONS`. -/
def specialRelations : List EdgeRelation := [.supersedes, .supports, .refutes]

/-- `is_special_relation`. -/
def isSpecialRelation (relation : EdgeRelation) : Bool := specialRelations.contains relation

/-! ## Resolved records -/

/-- `EdgeEndpointKind`. -/
inductive EdgeEndpointKind where
  | entity | note | event | edge
deriving DecidableEq, Repr

/-- `resolved_pair`: the substrate, the kind and the type that rules are matched with. -/
def resolvedPair : Option Resolved → Option (String × String × Option String)
  | some (.entity e) => some ("entity", e.kind, e.entityType)
  | some (.note kind) => some ("note", kind, none)
  | some .event | some (.packRecord ..) | none => none

/-- Whether a rule is for the relation and matches both endpoints. -/
def EdgeEndpointRule.allows (rule : EdgeEndpointRule) (relation : EdgeRelation)
    (source target : String × String × Option String) : Bool :=
  rule.relation == relation && endpointMatches rule.source source.1 source.2.1 source.2.2 &&
    endpointMatches rule.target target.1 target.2.1 target.2.2

/-- `pack_rule_allows`. -/
def packRuleAllows (rules : List EdgeEndpointRule) (relation : EdgeRelation)
    (source target : Option Resolved) : Bool :=
  match resolvedPair source, resolvedPair target with
  | some s, some t => rules.any fun rule ↦ rule.allows relation s t
  | _, _ => false

/-! ## Texts -/

/-- The relation as `Debug` writes it. -/
def EdgeRelation.debugName : EdgeRelation → String
  | .contains => "Contains"
  | .partOf => "PartOf"
  | .instanceOf => "InstanceOf"
  | .linksTo => "LinksTo"
  | .locatedIn => "LocatedIn"
  | .extends => "Extends"
  | .variantOf => "VariantOf"
  | .introducedBy => "IntroducedBy"
  | .supersedes => "Supersedes"
  | .derivedFrom => "DerivedFrom"
  | .precedes => "Precedes"
  | .dependsOn => "DependsOn"
  | .enables => "Enables"
  | .implements => "Implements"
  | .competesWith => "CompetesWith"
  | .composedWith => "ComposedWith"
  | .annotates => "Annotates"
  | .supports => "Supports"
  | .refutes => "Refutes"
  | .owns => "Owns"

/-- `sort_by_key(as_str)` and `dedup`. -/
def sortRelations (relations : List EdgeRelation) : List EdgeRelation :=
  (relations.insertionSort fun a b ↦ a.asStr ≤ b.asStr).destutter (· ≠ ·)

/-- `accepted_pack_relations_for_entities`. -/
def acceptedPackRelationsForEntities (rules : List EdgeEndpointRule)
    (source target : ResolvedEntity) : List EdgeRelation :=
  sortRelations ((rules.filter fun rule ↦
    endpointMatches rule.source "entity" source.kind source.entityType &&
      endpointMatches rule.target "entity" target.kind target.entityType).map (·.relation))

/-- `accepted_entity_relations_for_entities`. -/
def acceptedEntityRelationsForEntities (rules : List EdgeEndpointRule)
    (source target : ResolvedEntity) : List EdgeRelation :=
  let base := (baseEntityEndpointRules.filter fun (s, _, t) ↦
    baseSourceMatches s source.kind && t == target.kind).map fun (_, relation, _) ↦ relation
  let packs := (acceptedPackRelationsForEntities rules source target).filter fun relation ↦
    relation != .annotates && !isSpecialRelation relation
  sortRelations (base ++ packs)

/-- `accepted_entity_relations_description`. -/
def acceptedEntityRelationsDescription (rules : List EdgeEndpointRule)
    (source target : ResolvedEntity) : String :=
  match acceptedEntityRelationsForEntities rules source target with
  | [] => "none"
  | relations => ", ".intercalate (relations.map EdgeRelation.asStr)

namespace RuntimeError

variable (relation : EdgeRelation) (source target : Id128)

def selfLoop : RuntimeError :=
  .invalidInput "self-loop edges are not allowed: source_id and target_id must be different"

def sourceNotFound : RuntimeError := .notFound s!"link source {uuidText source} not found"

def targetNotFound : RuntimeError := .notFound s!"link target {uuidText target} not found"

def annotatesSource : RuntimeError :=
  .invalidInput s!"annotates source {uuidText source} must be a note"

/-- A pack-private record as an endpoint. -/
def packPrivate (relation : EdgeRelation) : RuntimeError :=
  .invalidInput s!"pack-private record is not a valid edge endpoint for {relation.asStr}"

/-- Neither a note nor an entity, but an edge. -/
def gotEdge (side : String) (id : Id128) : RuntimeError :=
  .invalidInput s!"{relation.asStr} {side} {uuidText id} must be a note or entity (got edge)"

def appliesToEvent (side : String) (id : Id128) : RuntimeError :=
  .invalidInput s!"{relation.asStr} does not apply to events; {side} {uuidText id} is an event"

def notEvents : RuntimeError :=
  .invalidInput s!"{relation.asStr} endpoints must be notes or entities (not events)"

def mixedSubstrates (sourceSubstrate targetSubstrate : String) : RuntimeError :=
  .invalidInput (s!"{relation.asStr} endpoints must be the same substrate " ++
    (s!"(note→note or entity→entity); got source={uuidText source} ({sourceSubstrate}) " ++
      s!"target={uuidText target} ({targetSubstrate})"))

def mustBeEntity (side : String) (id : Id128) : RuntimeError :=
  .invalidInput (s!"link {side} {uuidText id} must be an entity for relation " ++
    s!"{relation.debugName} (only `annotates` crosses substrates)")

def ruleHint : EdgeRelation → String
  | .supports | .refutes =>
    "requires concept|document|dataset|artifact -> concept (or same-substrate note -> note)"
  | _ => "requires same-kind entity endpoints"

def specialNotAllowed (rules : List EdgeEndpointRule) (s t : ResolvedEntity) : RuntimeError :=
  .invalidInput (s!"({s.kind}) -[{relation.asStr}]-> ({t.kind}) is not in the base endpoint " ++
    (s!"allowlist; {relation.asStr} {ruleHint relation}; currently legal relations for " ++
      (s!"{s.kind} -> {t.kind} under the loaded endpoint rules: " ++
        acceptedEntityRelationsDescription rules s t)))

def notAllowed (rules : List EdgeEndpointRule) (s t : ResolvedEntity) : RuntimeError :=
  .invalidInput (s!"({s.kind}) -[{relation.asStr}]-> ({t.kind}) is not in the base endpoint " ++
    ("allowlist; use pack EDGE_RULES to extend the allowlist; currently legal relations for " ++
      (s!"{s.kind} -> {t.kind} under the loaded endpoint rules: " ++
        acceptedEntityRelationsDescription rules s t)))

end RuntimeError

/-! ## The live check -/

namespace Runtime

variable (rt : Runtime) (relation : EdgeRelation) (source target : Id128)

/-- The source of `annotates`: a note. -/
def annotatesSource : Except RuntimeError Unit := do
  match ← rt.resolveEdgeEndpoint source with
  | some (.note _) => pure ()
  | some _ => throw (.annotatesSource source)
  | none =>
    if (← rt.getEdge source).isSome then throw (.annotatesSource source)
    throw (.sourceNotFound source)

/-- The target of `annotates`: any substrate. -/
def annotatesTarget : Except RuntimeError EdgeEndpointKind := do
  match ← rt.resolveEdgeEndpoint target with
  | some (.entity _) => pure .entity
  | some (.note _) => pure .note
  | some .event => pure .event
  | some (.packRecord ..) => throw (.packPrivate .annotates)
  | none =>
    match rt.getEdge target with
    | .ok (some _) => pure .edge
    | .ok none | .error (.notFound _) => throw (.targetNotFound target)
    | .error e => throw e

/-- An endpoint of `supersedes`, `supports` or `refutes`. -/
def specialEndpoint (side : String) (id : Id128) (notFound : RuntimeError) :
    Except RuntimeError Resolved := do
  match ← rt.resolveEdgeEndpoint id with
  | some r => pure r
  | none =>
    if (← rt.getEdge id).isSome then throw (.gotEdge relation side id)
    throw notFound

/-- The branch of `supersedes`, `supports` and `refutes`. -/
def validateSpecial : Except RuntimeError (EdgeEndpointKind × EdgeEndpointKind) := do
  let src ← rt.specialEndpoint relation "source" source (.sourceNotFound source)
  let tgt ← rt.specialEndpoint relation "target" target (.targetNotFound target)
  match src, tgt with
  | .entity s, .entity t =>
    if !baseEntityRuleAllows s.kind relation t.kind then
      throw (.specialNotAllowed relation rt.packEdgeRules s t)
    pure (.entity, .entity)
  | .note _, .note _ => pure (.note, .note)
  | .event, _ => throw (.appliesToEvent relation "source" source)
  | _, .event => throw (.appliesToEvent relation "target" target)
  | .entity _, .note _ => throw (.mixedSubstrates relation source target "entity" "note")
  | .note _, .entity _ => throw (.mixedSubstrates relation source target "note" "entity")
  | .packRecord .., _ | _, .packRecord .. => throw (.packPrivate relation)

/-- The substrate of an endpoint that a pack rule has matched. -/
def ruleSubstrate : Option Resolved → Option EdgeEndpointKind
  | some (.entity _) => some .entity
  | some (.note _) => some .note
  | _ => none

/-- An endpoint of a relation of the base table: an entity. -/
def entityEndpoint (side : String) (id : Id128) (notFound : RuntimeError) :
    Option Resolved → Except RuntimeError ResolvedEntity
  | some (.entity e) => pure e
  | some _ => throw (.mustBeEntity relation side id)
  | none => do
    if (← rt.getEdge id).isSome then throw (.mustBeEntity relation side id)
    throw notFound

/-- The branch of the remaining relations: the pack rules, then the base table. -/
def validateAllowlisted : Except RuntimeError (EdgeEndpointKind × EdgeEndpointKind) := do
  let src ← rt.resolveEdgeEndpoint source
  let tgt ← rt.resolveEdgeEndpoint target
  if packRuleAllows rt.packEdgeRules relation src tgt then
    match ruleSubstrate src, ruleSubstrate tgt with
    | some s, some t => return (s, t)
    | _, _ => throw (.internal "pack endpoint rule admitted an unsupported substrate")
  let s ← rt.entityEndpoint relation "source" source (.sourceNotFound source) src
  let t ← rt.entityEndpoint relation "target" target (.targetNotFound target) tgt
  if !baseEntityRuleAllows s.kind relation t.kind then
    throw (.notAllowed relation rt.packEdgeRules s t)
  pure (.entity, .entity)

/-- `validate_edge_relation_endpoints`. -/
def validateEdgeRelationEndpoints :
    Except RuntimeError (EdgeEndpointKind × EdgeEndpointKind) := do
  if source = target then throw .selfLoop
  if relation = .annotates then
    rt.annotatesSource source
    let kind ← rt.annotatesTarget target
    pure (.note, kind)
  else if isSpecialRelation relation then rt.validateSpecial relation source target
  else rt.validateAllowlisted relation source target

end Runtime

/-! ## The check of resolved records -/

namespace ByResolved

variable (relation : EdgeRelation) (sourceId targetId : Id128) (source target : Option Resolved)
  (rules : List EdgeEndpointRule)

/-- The branch of `annotates`, which asks of the target that there is one. -/
def validateAnnotates : Except RuntimeError Unit := do
  match source with
  | some (.note _) => pure ()
  | some _ => throw (.annotatesSource sourceId)
  | none => throw (.sourceNotFound sourceId)
  if target.isNone then throw (.targetNotFound targetId)

/-- The branch of `supersedes`, `supports` and `refutes`. -/
def validateSpecial : Except RuntimeError Unit := do
  let src ← source.elim (throw (.sourceNotFound sourceId)) pure
  let tgt ← target.elim (throw (.targetNotFound targetId)) pure
  match src, tgt with
  | .entity s, .entity t =>
    if !baseEntityRuleAllows s.kind relation t.kind then
      throw (.specialNotAllowed relation rules s t)
  | .note _, .note _ => pure ()
  | .entity _, .note _ => throw (.mixedSubstrates relation sourceId targetId "entity" "note")
  | .note _, .entity _ => throw (.mixedSubstrates relation sourceId targetId "note" "entity")
  | .packRecord .., _ | _, .packRecord .. => throw (.packPrivate relation)
  | _, _ => throw (.notEvents relation)

/-- An endpoint of a relation of the base table: an entity. -/
def entityEndpoint (side : String) (id : Id128) (notFound : RuntimeError) :
    Option Resolved → Except RuntimeError ResolvedEntity
  | some (.entity e) => pure e
  | some _ => throw (.mustBeEntity relation side id)
  | none => throw notFound

/-- The branch of the remaining relations: the pack rules, then the base table. -/
def validateAllowlisted : Except RuntimeError Unit := do
  if packRuleAllows rules relation source target then return
  let s ← entityEndpoint relation "source" sourceId (.sourceNotFound sourceId) source
  let t ← entityEndpoint relation "target" targetId (.targetNotFound targetId) target
  if !baseEntityRuleAllows s.kind relation t.kind then throw (.notAllowed relation rules s t)

end ByResolved

/-- `validate_link_endpoints_by_resolved_with_rules`. -/
def validateLinkEndpointsByResolvedWithRules (sourceId targetId : Id128) (relation : EdgeRelation)
    (source target : Option Resolved) (rules : List EdgeEndpointRule) :
    Except RuntimeError Unit := do
  if sourceId = targetId then throw .selfLoop
  if relation = .annotates then ByResolved.validateAnnotates sourceId targetId source target
  else if isSpecialRelation relation then
    ByResolved.validateSpecial relation sourceId targetId source target rules
  else ByResolved.validateAllowlisted relation sourceId targetId source target rules

/-! ## The contract -/

namespace Endpoint

def entity? : Endpoint → Option ResolvedEntity
  | entity e => some e
  | _ => none

def IsNote : Endpoint → Prop
  | note _ => True
  | _ => False

/-- Something that the graph stores. -/
def Stored : Endpoint → Prop
  | packRecord | nothing => False
  | _ => True

end Endpoint

/-- Two entities that the base table lets the relation join. -/
def BaseAllows (relation : EdgeRelation) (source target : Endpoint) : Prop :=
  ∃ s t, source.entity? = some s ∧ target.entity? = some t ∧
    baseEntityRuleAllows s.kind relation t.kind = true

/-- Two records that a special relation may join. -/
def SpecialPair (relation : EdgeRelation) : Resolved → Resolved → Prop
  | .entity s, .entity t => baseEntityRuleAllows s.kind relation t.kind = true
  | .note _, .note _ => True
  | _, _ => False

/-- **The endpoint contract.** -/
def Admits (rules : List EdgeEndpointRule) (relation : EdgeRelation) (source target : Endpoint) :
    Prop :=
  if relation = .annotates then source.IsNote ∧ target.Stored
  else if isSpecialRelation relation then
    source.IsNote ∧ target.IsNote ∨ BaseAllows relation source target
  else packRuleAllows rules relation source.resolved target.resolved = true ∨
    BaseAllows relation source target

/-- The check was passed. -/
def Accepts {ε α : Type} (check : Except ε α) : Prop := ∃ a, check = .ok a

section Accepts

variable {ε α β : Type}

theorem accepts_bind {x : Except ε α} {f : α → Except ε β} :
    Accepts (x >>= f) ↔ ∃ a, x = .ok a ∧ Accepts (f a) := by
  constructor
  · rintro ⟨b, h⟩
    obtain ⟨a, ha, hb⟩ := bind_eq_ok.mp h
    exact ⟨a, ha, b, hb⟩
  · rintro ⟨a, ha, b, hb⟩
    exact ⟨b, bind_eq_ok.mpr ⟨a, ha, hb⟩⟩

@[simp] theorem accepts_pure (a : α) : Accepts (pure a : Except ε α) := ⟨a, rfl⟩

@[simp] theorem not_accepts_throw (e : ε) : ¬ Accepts (throw e : Except ε α) :=
  fun ⟨_, h⟩ ↦ throw_ne_ok h

theorem accepts_unit {x : Except ε Unit} : Accepts x ↔ x = .ok () :=
  ⟨fun ⟨(), h⟩ ↦ h, fun h ↦ ⟨(), h⟩⟩

/-- A check that passes, before more work. -/
theorem accepts_guard {condition : Prop} [Decidable condition] {e : ε} {k : Unit → Except ε α} :
    Accepts (if condition then throw e >>= k else k ()) ↔ ¬ condition ∧ Accepts (k ()) := by
  by_cases h : condition
  · simp [h, accepts_bind, throw_ne_ok]
  · simp [h]

/-- A check that is the last. -/
theorem accepts_check {condition : Prop} [Decidable condition] {e : ε} {a : α} :
    Accepts (if condition then throw e else pure a : Except ε α) ↔ ¬ condition := by
  by_cases h : condition <;> simp [h]

end Accepts

/-! ## Endpoints and records -/

namespace Endpoint

variable {source target endpoint : Endpoint}

theorem entity?_eq_some {e : ResolvedEntity} :
    endpoint.entity? = some e ↔ endpoint.resolved = some (.entity e) := by
  cases endpoint <;> simp [entity?, resolved]

theorem isNote_iff : endpoint.IsNote ↔ ∃ kind, endpoint.resolved = some (.note kind) := by
  cases endpoint <;> simp [IsNote, resolved]

/-- What is stored and is no edge is what resolution finds. -/
theorem isSome_resolved_iff (h : endpoint ≠ .edge) :
    endpoint.resolved.isSome ↔ endpoint.Stored := by
  cases endpoint with
  | edge => exact absurd rfl h
  | entity _ | note _ | event | packRecord | nothing => simp [resolved, Stored]

/-- Notes with notes and entities with entities, read off the records. -/
theorem exists_specialPair {relation : EdgeRelation} :
    (∃ r, source.resolved = some r ∧ ∃ t, target.resolved = some t ∧ SpecialPair relation r t) ↔
      source.IsNote ∧ target.IsNote ∨ BaseAllows relation source target := by
  constructor
  · rintro ⟨r, hr, t, ht, hpair⟩
    cases r with
    | entity s =>
      cases t with
      | entity t => exact .inr ⟨s, t, entity?_eq_some.mpr hr, entity?_eq_some.mpr ht, hpair⟩
      | note _ | event | packRecord _ => exact hpair.elim
    | note _ =>
      cases t with
      | note _ => exact .inl ⟨isNote_iff.mpr ⟨_, hr⟩, isNote_iff.mpr ⟨_, ht⟩⟩
      | entity _ | event | packRecord _ => exact hpair.elim
    | event | packRecord _ => exact hpair.elim
  · rintro (⟨hs, ht⟩ | ⟨s, t, hs, ht, hbase⟩)
    · obtain ⟨_, hs⟩ := isNote_iff.mp hs
      obtain ⟨_, ht⟩ := isNote_iff.mp ht
      exact ⟨_, hs, _, ht, trivial⟩
    · exact ⟨_, entity?_eq_some.mp hs, _, entity?_eq_some.mp ht, hbase⟩

end Endpoint

/-! ## The live check meets the contract -/

section Live

variable {rt : Runtime} {relation : EdgeRelation} {sourceId targetId id : Id128}
  {source target endpoint : Endpoint}

/-- Where resolution finds nothing, the checks ask whether the identifier is that of an edge only to
choose an error. -/
theorem not_accepts_edge_error (h : rt.Names id endpoint) (hresolved : endpoint.resolved = none)
    {α : Type} {isEdge notFound : RuntimeError} :
    ¬ Accepts (do
      if (← rt.getEdge id).isSome then throw isEdge
      throw notFound : Except RuntimeError α) := by
  obtain ⟨row, hrow, -⟩ := Runtime.getEdge_of_names h hresolved
  rw [hrow, ok_bind, accepts_guard]
  exact fun haccepts ↦ not_accepts_throw _ haccepts.2

theorem annotatesSource_eq_ok (h : rt.Names id endpoint) :
    rt.annotatesSource id = .ok () ↔ endpoint.IsNote := by
  rw [← accepts_unit, Runtime.annotatesSource, Runtime.resolveEdgeEndpoint_of_names h, ok_bind]
  cases endpoint with
  | note _ => exact iff_of_true (accepts_pure ()) trivial
  | entity _ | event => exact iff_of_false (not_accepts_throw _) not_false
  | edge | packRecord | nothing => exact iff_of_false (not_accepts_edge_error h rfl) not_false

theorem accepts_annotatesTarget (h : rt.Names id endpoint) :
    Accepts (rt.annotatesTarget id) ↔ endpoint.Stored := by
  rw [Runtime.annotatesTarget, Runtime.resolveEdgeEndpoint_of_names h, ok_bind]
  cases endpoint with
  | entity _ | note _ | event => exact iff_of_true (accepts_pure _) trivial
  | edge =>
    obtain ⟨-, row, hrow⟩ := h
    simp [Endpoint.resolved, hrow, Endpoint.Stored]
  | packRecord | nothing => simp [Endpoint.resolved, h.2.1, Endpoint.Stored]

theorem specialEndpoint_eq_ok (h : rt.Names id endpoint) {side : String} {e : RuntimeError}
    {r : Resolved} :
    rt.specialEndpoint relation side id e = .ok r ↔ endpoint.resolved = some r := by
  rw [Runtime.specialEndpoint, Runtime.resolveEdgeEndpoint_of_names h, ok_bind]
  cases hresolved : endpoint.resolved with
  | some r' => simp [pure_eq_ok]
  | none =>
    exact iff_of_false (fun hok ↦ not_accepts_edge_error h hresolved ⟨r, hok⟩)
      (Option.some_ne_none r).symm

theorem entityEndpoint_eq_ok (h : rt.Names id endpoint) {side : String} {error : RuntimeError}
    {e : ResolvedEntity} :
    rt.entityEndpoint relation side id error endpoint.resolved = .ok e ↔
      endpoint.entity? = some e := by
  cases endpoint with
  | entity _ | note _ | event =>
    simp [Runtime.entityEndpoint, Endpoint.resolved, Endpoint.entity?, pure_eq_ok, throw_ne_ok]
  | edge | packRecord | nothing =>
    exact iff_of_false (fun hok ↦ not_accepts_edge_error h rfl ⟨e, hok⟩)
      (Option.some_ne_none e).symm

theorem accepts_validateSpecial (hsource : rt.Names sourceId source)
    (htarget : rt.Names targetId target) :
    Accepts (rt.validateSpecial relation sourceId targetId) ↔
      source.IsNote ∧ target.IsNote ∨ BaseAllows relation source target := by
  simp only [Runtime.validateSpecial, accepts_bind, specialEndpoint_eq_ok hsource,
    specialEndpoint_eq_ok htarget]
  rw [← Endpoint.exists_specialPair]
  refine exists_congr fun r ↦ and_congr_right fun _ ↦ exists_congr fun t ↦ and_congr_right fun _ ↦ ?_
  cases r with
  | entity s =>
    cases t with
    | entity t =>
      rw [accepts_guard]
      simp [SpecialPair]
    | note _ | event | packRecord _ => simp [SpecialPair]
  | note _ | event | packRecord _ => cases t <;> simp [SpecialPair]

theorem exists_ruleSubstrate {r : Option Resolved} {pair : String × String × Option String}
    (h : resolvedPair r = some pair) : ∃ s, Runtime.ruleSubstrate r = some s := by
  cases r with
  | none => exact absurd h (by simp [resolvedPair])
  | some r =>
    cases r with
    | entity _ | note _ => exact ⟨_, rfl⟩
    | event | packRecord _ => exact absurd h (by simp [resolvedPair])

/-- Rules name notes and entities only. -/
theorem ruleSubstrate_of_packRuleAllows {rules : List EdgeEndpointRule} {r t : Option Resolved}
    (h : packRuleAllows rules relation r t = true) :
    ∃ s k, Runtime.ruleSubstrate r = some s ∧ Runtime.ruleSubstrate t = some k := by
  unfold packRuleAllows at h
  split at h
  · rename_i hr ht
    obtain ⟨s, hs⟩ := exists_ruleSubstrate hr
    obtain ⟨k, hk⟩ := exists_ruleSubstrate ht
    exact ⟨s, k, hs, hk⟩
  · exact absurd h Bool.false_ne_true

theorem accepts_validateAllowlisted (hsource : rt.Names sourceId source)
    (htarget : rt.Names targetId target) :
    Accepts (rt.validateAllowlisted relation sourceId targetId) ↔
      packRuleAllows rt.packEdgeRules relation source.resolved target.resolved = true ∨
        BaseAllows relation source target := by
  rw [Runtime.validateAllowlisted, Runtime.resolveEdgeEndpoint_of_names hsource, ok_bind,
    Runtime.resolveEdgeEndpoint_of_names htarget, ok_bind]
  by_cases hrule : packRuleAllows rt.packEdgeRules relation source.resolved target.resolved = true
  · obtain ⟨s, t, hs, ht⟩ := ruleSubstrate_of_packRuleAllows hrule
    simp [hrule, hs, ht]
  · simp only [hrule, Bool.false_eq_true, if_false, false_or, accepts_bind,
      entityEndpoint_eq_ok hsource, entityEndpoint_eq_ok htarget, accepts_guard, accepts_pure]
    simp [BaseAllows]

/-- **The live check accepts what the contract admits.** -/
theorem accepts_validateEdgeRelationEndpoints (hne : sourceId ≠ targetId)
    (hsource : rt.Names sourceId source) (htarget : rt.Names targetId target) :
    Accepts (rt.validateEdgeRelationEndpoints relation sourceId targetId) ↔
      Admits rt.packEdgeRules relation source target := by
  rw [Runtime.validateEdgeRelationEndpoints, accepts_guard, Admits]
  simp only [hne, not_false_eq_true, true_and]
  split
  · rw [← annotatesSource_eq_ok hsource, ← accepts_annotatesTarget htarget]
    constructor
    · rintro ⟨_, h⟩
      obtain ⟨hs, h⟩ := seq_eq_ok.mp h
      obtain ⟨k, hk, -⟩ := bind_eq_ok.mp h
      exact ⟨hs, k, hk⟩
    · rintro ⟨hs, k, hk⟩
      rw [hs, ok_bind, hk, ok_bind]
      exact accepts_pure _
  · split
    · exact accepts_validateSpecial hsource htarget
    · exact accepts_validateAllowlisted hsource htarget

end Live

/-! ## The check of resolved records and the contract -/

section ByResolved

variable {relation : EdgeRelation} {sourceId targetId : Id128} {source target : Endpoint}
  {rules : List EdgeEndpointRule}

theorem entityEndpoint_byResolved_eq_ok {side : String} {id : Id128} {error : RuntimeError}
    {e : ResolvedEntity} {endpoint : Endpoint} :
    ByResolved.entityEndpoint relation side id error endpoint.resolved = .ok e ↔
      endpoint.entity? = some e := by
  cases endpoint with
  | entity _ | note _ | event =>
    simp [ByResolved.entityEndpoint, Endpoint.resolved, Endpoint.entity?, pure_eq_ok, throw_ne_ok]
  | edge | packRecord | nothing =>
    simp [ByResolved.entityEndpoint, Endpoint.resolved, Endpoint.entity?, throw_ne_ok]

theorem elim_throw_eq_ok {o : Option Resolved} {e : RuntimeError} {r : Resolved} :
    o.elim (throw e) (pure : Resolved → Except RuntimeError Resolved) = .ok r ↔ o = some r := by
  cases o with
  | none => simp [throw_ne_ok]
  | some r' => simp [pure_eq_ok]

theorem accepts_validateSpecial_byResolved :
    Accepts (ByResolved.validateSpecial relation sourceId targetId source.resolved target.resolved
        rules) ↔
      source.IsNote ∧ target.IsNote ∨ BaseAllows relation source target := by
  simp only [ByResolved.validateSpecial, accepts_bind, elim_throw_eq_ok]
  rw [← Endpoint.exists_specialPair]
  refine exists_congr fun r ↦ and_congr_right fun _ ↦ exists_congr fun t ↦ and_congr_right fun _ ↦ ?_
  cases r with
  | entity s =>
    cases t with
    | entity t => simp [SpecialPair, accepts_check]
    | note _ | event | packRecord _ => simp [SpecialPair]
  | note _ | event | packRecord _ => cases t <;> simp [SpecialPair]

theorem accepts_validateAllowlisted_byResolved :
    Accepts (ByResolved.validateAllowlisted relation sourceId targetId source.resolved
        target.resolved rules) ↔
      packRuleAllows rules relation source.resolved target.resolved = true ∨
        BaseAllows relation source target := by
  rw [ByResolved.validateAllowlisted]
  by_cases hrule : packRuleAllows rules relation source.resolved target.resolved = true
  · simp [hrule]
  · simp only [hrule, Bool.false_eq_true, if_false, false_or, accepts_bind,
      entityEndpoint_byResolved_eq_ok, Bool.not_eq_true']
    refine exists_congr fun s ↦ ?_
    rw [← exists_and_left]
    refine exists_congr fun t ↦ and_congr_right fun _ ↦ and_congr_right fun _ ↦ ?_
    simp [accepts_check]

/-- A handed target of `annotates` is only asked to be there, and resolution finds what is stored. -/
theorem accepts_validateAnnotates_byResolved (htarget : target ≠ .edge) :
    Accepts (ByResolved.validateAnnotates sourceId targetId source.resolved target.resolved) ↔
      source.IsNote ∧ target.Stored := by
  rw [← Endpoint.isSome_resolved_iff htarget]
  cases source with
  | note _ =>
    have hchecked : Accepts (if target.resolved.isNone then throw (.targetNotFound targetId)
        else pure () : Except RuntimeError Unit) ↔ target.resolved.isSome := by
      rw [accepts_check, Option.isNone_iff_eq_none, Option.isSome_iff_ne_none]
    exact hchecked.trans (iff_of_eq (true_and _)).symm
  | entity _ | event | edge | packRecord | nothing =>
    simp [ByResolved.validateAnnotates, Endpoint.resolved, Endpoint.IsNote, accepts_bind,
      throw_ne_ok]

/-- **The check of resolved records accepts what the contract admits**, of records that resolution
has found. -/
theorem accepts_validateLinkEndpointsByResolvedWithRules (hne : sourceId ≠ targetId)
    (htarget : target ≠ .edge) :
    Accepts (validateLinkEndpointsByResolvedWithRules sourceId targetId relation source.resolved
        target.resolved rules) ↔ Admits rules relation source target := by
  rw [validateLinkEndpointsByResolvedWithRules, accepts_guard, Admits]
  simp only [hne, not_false_eq_true, true_and]
  by_cases hannotates : relation = .annotates
  · simp only [hannotates, if_true]
    exact accepts_validateAnnotates_byResolved htarget
  · simp only [hannotates, if_false]
    by_cases hspecial : isSpecialRelation relation
    · simp only [hspecial, if_true]
      exact accepts_validateSpecial_byResolved
    · simp only [hspecial, Bool.false_eq_true, if_false]
      exact accepts_validateAllowlisted_byResolved

end ByResolved

end Khive
