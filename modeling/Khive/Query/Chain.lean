import Khive.Query.Compile

/-!
# Patterns as chains

A validated pattern alternates between nodes and edges. Along such a chain the part of a node can be
read off the two edges next to it, so that the loop of the compiler, which looks it up in two sets
that were collected before, is a recursion over the chain (`lowerElements_eq_lowerChain`). Validation
changes the names of relations and nothing else.
-/

namespace Khive

namespace Query

open Sql (Expr Value Statement Placeholder push oneOf run_bind_eq_ok run_pure_eq_ok run_lift_eq_ok
  run_guard_eq_ok)

/-! ## Alternation -/

inductive Alternating : List PatternElement → Prop
  | single (n : NodePattern) : Alternating [.node n]
  | cons (n : NodePattern) (e : EdgePattern) {rest : List PatternElement} (h : Alternating rest) :
    Alternating (.node n :: .edge e :: rest)

theorem alternating_of_alternates {parity : Nat} (hparity : parity % 2 = 0) :
    ∀ {elements : List PatternElement}, alternates parity elements = true →
      elements.length % 2 = 1 → Alternating elements
  | [.node n], _, _ => .single n
  | .node n :: .edge e :: rest, halternates, hlength => by
    simp only [alternates, Bool.and_eq_true] at halternates
    refine .cons n e (alternating_of_alternates (by omega) halternates.2.2 ?_)
    simpa [Nat.add_assoc] using hlength
  | .node _ :: .node _ :: _, halternates, _ => by
    simp only [alternates, Bool.and_eq_true, beq_iff_eq] at halternates
    omega
  | .edge _ :: _, halternates, _ => by
    simp only [alternates, Bool.and_eq_true, beq_iff_eq] at halternates
    omega

theorem alternating_of_validatePatternShape {elements : List PatternElement}
    (hne : elements.isEmpty = false) (h : validatePatternShape elements = .ok ()) :
    Alternating elements := by
  unfold validatePatternShape at h
  simp only [hne, Bool.false_eq_true, if_false] at h
  split at h
  · exact absurd h throw_ne_ok
  split at h
  · exact alternating_of_alternates rfl ‹_› (by omega)
  · exact absurd h throw_ne_ok

/-! ## What an element adds -/

section Fragments

variable {opts : CompileOptions} {mailbox : Option MailboxLowering} {p p' : List Value}
  {f : Fragment}

theorem lowerNode_eq_ok {role : NodeRole} {index : Nat} {np : NodePattern} :
    (lowerNode opts mailbox role index np).run p = .ok (f, p') ↔
      ∃ conditions, (role.conditions opts (nodeAlias index) np).run p = .ok (conditions, p') ∧
        nodeFragment mailbox role index np conditions = f := by
  unfold lowerNode
  simp only [run_bind_eq_ok, run_pure_eq_ok]
  constructor
  · rintro ⟨conditions, _, hrun, rfl, rfl⟩
    exact ⟨conditions, hrun, rfl⟩
  · rintro ⟨conditions, hrun, rfl⟩
    exact ⟨conditions, _, hrun, rfl, rfl⟩

/-- The parts of an edge of the graph. -/
theorem lowerEdge_canonical {index next : Nat} {ep : EdgePattern} (hep : ep.hasSynthetic = false)
    (h : (lowerEdge opts mailbox index next ep).run p = .ok (f, p')) :
    ∃ scope relations p₁, (namespaceFilter opts (edgeAlias index)).run p = .ok (scope, p₁) ∧
      (oneOf (.column (edgeAlias index) "relation") (ep.relations.map .text) :
        Compile (List Expr)).run p₁ = .ok (relations, p') ∧
      f = canonicalFragment mailbox (edgeAlias index) (nodeAlias (next - 1)) (nodeAlias next) ep
        (scope ++ relations) := by
  unfold lowerEdge at h
  obtain ⟨-, h⟩ := run_guard_eq_ok.mp h
  rw [if_neg (by simp [hep])] at h
  obtain ⟨scope, p₁, hscope, h⟩ := run_bind_eq_ok.mp h
  obtain ⟨relations, p₂, hrelations, h⟩ := run_bind_eq_ok.mp h
  obtain ⟨rfl, rfl⟩ := run_pure_eq_ok.mp h
  exact ⟨scope, relations, p₁, hscope, hrelations, rfl⟩

/-- The parts of an edge `observed_as_*`. -/
theorem lowerEdge_synthetic {index next : Nat} {ep : EdgePattern} (hep : ep.hasSynthetic = true)
    (h : (lowerEdge opts mailbox index next ep).run p = .ok (f, p')) :
    ∃ roles, (oneOf (.column (edgeAlias index) "role")
        ((ep.relations.filterMap syntheticRole).map .text) : Compile (List Expr)).run p =
          .ok (roles, p') ∧
      f = syntheticFragment mailbox (edgeAlias index) (nodeAlias (next - 1)) (nodeAlias next) ep
        roles := by
  unfold lowerEdge at h
  obtain ⟨-, h⟩ := run_guard_eq_ok.mp h
  rw [if_pos hep] at h
  unfold lowerSynthetic at h
  obtain ⟨-, h⟩ := run_guard_eq_ok.mp h
  obtain ⟨roles, p₁, hroles, h⟩ := run_bind_eq_ok.mp h
  obtain ⟨rfl, rfl⟩ := run_pure_eq_ok.mp h
  exact ⟨roles, hroles, rfl⟩

end Fragments

/-! ## The loop as a recursion over the chain -/

section Chain

variable (opts : CompileOptions) (mailbox : Option MailboxLowering)

/-- The part of a node between two edges: whether the one before is `observed_as_*`, and what
follows. -/
def chainRole (before : Bool) : List PatternElement → NodeRole
  | .edge e :: _ =>
    if e.hasSynthetic then .eventSource else if before then .observationTarget else .primary
  | _ => if before then .observationTarget else .primary

def lowerChain : Bool → Nat → List PatternElement → Compile (List Fragment)
  | before, index, .node np :: .edge ep :: rest => do
    let node ← lowerNode opts mailbox (chainRole before (.edge ep :: rest)) index np
    let edge ← lowerEdge opts mailbox index (index + 1) ep
    let fragments ← lowerChain ep.hasSynthetic (index + 1) rest
    return node :: edge :: fragments
  | before, index, .node np :: rest => do
    let node ← lowerNode opts mailbox (chainRole before rest) index np
    return [node]
  | _, _, _ => pure []

end Chain

/-- Before a node nothing is known of the node before. -/
theorem syntheticEndpointNodeIndices_of_alternating {elements : List PatternElement}
    (h : Alternating elements) (index : Nat) (prev : Option Nat) :
    syntheticEndpointNodeIndices index prev elements =
      syntheticEndpointNodeIndices index none elements := by
  cases h with
  | single n => rfl
  | cons n e h => rfl

theorem syntheticEndpointNodeIndices_cons {n : NodePattern} {e : EdgePattern}
    {rest : List PatternElement} (h : Alternating rest) (index : Nat) :
    syntheticEndpointNodeIndices index none (.node n :: .edge e :: rest) =
      let indices := syntheticEndpointNodeIndices (index + 1) none rest
      if e.hasSynthetic then (index :: indices.1, (index + 1) :: indices.2) else indices := by
  rw [syntheticEndpointNodeIndices, syntheticEndpointNodeIndices,
    syntheticEndpointNodeIndices_of_alternating h]
  cases e.hasSynthetic <;> rfl

/-- The sources start at the first node, the targets behind it. -/
theorem le_of_mem_syntheticEndpointNodeIndices {elements : List PatternElement}
    (h : Alternating elements) (index : Nat) :
    (∀ i ∈ (syntheticEndpointNodeIndices index none elements).1, index ≤ i) ∧
      ∀ i ∈ (syntheticEndpointNodeIndices index none elements).2, index < i := by
  induction h generalizing index with
  | single n => exact ⟨by simp [syntheticEndpointNodeIndices], by simp [syntheticEndpointNodeIndices]⟩
  | cons n e h ih =>
    obtain ⟨hsources, htargets⟩ := ih (index + 1)
    rw [syntheticEndpointNodeIndices_cons h]
    by_cases he : e.hasSynthetic
    · simp only [he, if_true, List.forall_mem_cons]
      exact ⟨⟨le_rfl, fun i hi ↦ Nat.le_of_succ_le (hsources i hi)⟩,
        ⟨Nat.lt_succ_self _, fun i hi ↦ Nat.lt_of_succ_lt (htargets i hi)⟩⟩
    · simp only [he, Bool.false_eq_true, if_false]
      exact ⟨fun i hi ↦ Nat.le_of_succ_le (hsources i hi),
        fun i hi ↦ Nat.lt_of_succ_lt (htargets i hi)⟩

/-- The two sets, as far as they concern the chain from a node on. -/
structure Endpoints.Describes (endpoints : Endpoints) (before : Bool) (index : Nat)
    (elements : List PatternElement) : Prop where
  events : ∀ i, index ≤ i →
    (i ∈ endpoints.events ↔ i ∈ (syntheticEndpointNodeIndices index none elements).1)
  targets : ∀ i, index ≤ i →
    (i ∈ endpoints.targets ↔ (i = index ∧ before = true) ∨
      i ∈ (syntheticEndpointNodeIndices index none elements).2)

namespace Endpoints.Describes

variable {endpoints : Endpoints} {before : Bool} {index : Nat} {n : NodePattern} {e : EdgePattern}
  {rest : List PatternElement}

theorem role_single (h : endpoints.Describes before index [.node n]) :
    endpoints.role index = chainRole before [] := by
  have hevents := h.events index le_rfl
  have htargets := h.targets index le_rfl
  simp only [syntheticEndpointNodeIndices, List.not_mem_nil, or_false, true_and] at hevents htargets
  simp [Endpoints.role, chainRole, hevents, htargets]

theorem role_cons (hrest : Alternating rest)
    (h : endpoints.Describes before index (.node n :: .edge e :: rest)) :
    endpoints.role index = chainRole before (.edge e :: rest) := by
  obtain ⟨hsources, hbehind⟩ := le_of_mem_syntheticEndpointNodeIndices hrest (index + 1)
  have hnot : index ∉ (syntheticEndpointNodeIndices (index + 1) none rest).1 :=
    fun hmem ↦ absurd (hsources index hmem) (by omega)
  have hnot' : index ∉ (syntheticEndpointNodeIndices (index + 1) none rest).2 :=
    fun hmem ↦ absurd (hbehind index hmem) (by omega)
  have hevents := h.events index le_rfl
  have htargets := h.targets index le_rfl
  rw [syntheticEndpointNodeIndices_cons hrest] at hevents htargets
  by_cases he : e.hasSynthetic
  · simp only [he, if_true, List.mem_cons, true_or, iff_true] at hevents
    simp [Endpoints.role, chainRole, hevents, he]
  · simp only [he, Bool.false_eq_true, if_false, hnot, iff_false] at hevents
    simp only [he, Bool.false_eq_true, if_false, hnot', or_false, true_and] at htargets
    simp [Endpoints.role, chainRole, hevents, htargets, he]

/-- The chain behind the first edge. -/
theorem tail (hrest : Alternating rest)
    (h : endpoints.Describes before index (.node n :: .edge e :: rest)) :
    endpoints.Describes e.hasSynthetic (index + 1) rest where
  events i hi := by
    have hevents := h.events i (by omega)
    rw [syntheticEndpointNodeIndices_cons hrest] at hevents
    by_cases he : e.hasSynthetic
    · simpa only [he, if_true, List.mem_cons, show i ≠ index by omega, false_or] using hevents
    · simpa only [he, Bool.false_eq_true, if_false] using hevents
  targets i hi := by
    have htargets := h.targets i (by omega)
    rw [syntheticEndpointNodeIndices_cons hrest] at htargets
    by_cases he : e.hasSynthetic
    · simpa only [he, if_true, List.mem_cons, show i ≠ index by omega, false_and, false_or,
        and_true] using htargets
    · simpa only [he, Bool.false_eq_true, if_false, show i ≠ index by omega, false_and, false_or, and_false] using htargets

end Endpoints.Describes

theorem lowerElements_eq_of_describes {opts : CompileOptions} {mailbox : Option MailboxLowering}
    {elements : List PatternElement} (helements : Alternating elements) {endpoints : Endpoints}
    {before : Bool} {index : Nat} (h : endpoints.Describes before index elements) :
    lowerElements opts mailbox endpoints index index elements =
      lowerChain opts mailbox before index elements := by
  induction helements generalizing before index with
  | single n =>
    simp only [lowerElements, lowerChain, h.role_single, pure_bind]
  | cons n e hrest ih =>
    simp only [lowerElements, lowerChain, h.role_cons hrest, ih (h.tail hrest), bind_assoc,
      pure_bind]

theorem lowerElements_eq_lowerChain {opts : CompileOptions} {mailbox : Option MailboxLowering}
    {elements : List PatternElement} (helements : Alternating elements) :
    lowerElements opts mailbox ⟨(syntheticEndpointNodeIndices 0 none elements).1,
        (syntheticEndpointNodeIndices 0 none elements).2⟩ 0 0 elements =
      lowerChain opts mailbox false 0 elements :=
  lowerElements_eq_of_describes helements ⟨fun _ _ ↦ Iff.rfl, fun _ _ ↦ by simp⟩

/-! ## What validation keeps -/

/-- Only the names of relations change, and not whether they are `observed_as_*`. -/
inductive SameElement : PatternElement → PatternElement → Prop
  | node (n : NodePattern) : SameElement (.node n) (.node n)
  | edge (e : EdgePattern) (relations : List String)
    (h : relations.any isSynthetic = e.relations.any isSynthetic) :
    SameElement (.edge e) (.edge { e with relations })

/-- An operand that is the empty list. -/
def ConditionValue.isEmptyList : ConditionValue → Bool
  | list [] => true
  | _ => false

structure SameCondition (c d : Condition) : Prop where
  var : d.var = c.var
  property : d.property = c.property
  op : d.op = c.op
  isEmptyList : d.value.isEmptyList = c.value.isEmptyList

section Validation

variable {tables : CharTables}

theorem isSynthetic_asStr (r : EdgeRelation) : isSynthetic r.asStr = false := by
  cases r <;> rfl

theorem isSynthetic_of_canonicalRelation {relation name : String}
    (h : canonicalRelation tables relation = .ok name) : isSynthetic name = false := by
  unfold canonicalRelation at h
  split at h
  · obtain rfl := pure_eq_ok.mp h
    exact isSynthetic_asStr _
  · exact absurd h throw_ne_ok

/-- The names `observed_as_*` start so. -/
theorem isPrefixOf_of_isSynthetic {relation : String} (h : isSynthetic relation = true) :
    "observed_as_".toList.isPrefixOf relation.toList = true := by
  have hall : syntheticRelations.all
      (fun relation ↦ "observed_as_".toList.isPrefixOf relation.toList) = true := by decide
  exact List.all_eq_true.mp hall relation (List.contains_iff_mem.mp h)

theorem isSynthetic_of_normaliseRelation {relation name : String}
    (h : normaliseRelation tables relation = .ok name) :
    isSynthetic name = isSynthetic relation := by
  unfold normaliseRelation at h
  split at h
  · split at h
    · rw [pure_eq_ok.mp h]
    · exact absurd h throw_ne_ok
  · rename_i hstarts
    rw [isSynthetic_of_canonicalRelation h]
    by_contra hne
    exact hstarts (isPrefixOf_of_isSynthetic (by simpa using hne))

theorem any_isSynthetic_of_mapM {relations names : List String}
    (h : relations.mapM (normaliseRelation tables) = .ok names) :
    names.any isSynthetic = relations.any isSynthetic := by
  rw [mapM_eq_ok] at h
  induction h with
  | nil => rfl
  | cons hname _ ih => rw [List.any_cons, List.any_cons, isSynthetic_of_normaliseRelation hname, ih]

theorem sameElement_of_normaliseElement {element normal : PatternElement}
    (h : normaliseElement tables element = .ok normal) : SameElement element normal := by
  cases element with
  | node n =>
    rw [normaliseElement] at h
    split at h
    · exact absurd h throw_ne_ok
    · obtain rfl := pure_eq_ok.mp h
      exact .node n
  | edge e =>
    obtain ⟨relations, hrelations, h⟩ := bind_eq_ok.mp h
    obtain ⟨-, h⟩ := guard_eq_ok.mp h
    obtain ⟨-, h⟩ := guard_eq_ok.mp h
    obtain ⟨-, h⟩ := guard_eq_ok.mp h
    obtain ⟨-, h⟩ := guard_eq_ok.mp h
    obtain rfl := pure_eq_ok.mp h
    exact .edge e relations (any_isSynthetic_of_mapM hrelations)

theorem isEmptyList_of_normaliseValues {values normal : List ConditionValue}
    (h : normaliseValues tables values = .ok normal) :
    (ConditionValue.list normal).isEmptyList = (ConditionValue.list values).isEmptyList := by
  unfold normaliseValues at h
  split at h
  · rw [← pure_eq_ok.mp h]
  · obtain ⟨relation, -, h⟩ := bind_eq_ok.mp h
    obtain ⟨rest, -, h⟩ := bind_eq_ok.mp h
    rw [← pure_eq_ok.mp h]
    rfl
  · exact absurd h throw_ne_ok

theorem sameCondition_of_validateCondition {c d : Condition} {isEdge : Bool}
    (h : validateCondition tables c isEdge = .ok d) : SameCondition c d := by
  have hrefl : SameCondition c c := ⟨rfl, rfl, rfl, rfl⟩
  unfold validateCondition at h
  split at h
  · split at h
    · exact absurd h throw_ne_ok
    split at h
    · exact pure_eq_ok.mp h ▸ hrefl
    split at h
    · split at h
      · exact pure_eq_ok.mp h ▸ hrefl
      -- the operand names relations
      split at h
      · rename_i hvalue
        obtain ⟨relation, -, h⟩ := bind_eq_ok.mp h
        rw [← pure_eq_ok.mp h]
        exact ⟨rfl, rfl, rfl, by rw [hvalue]; rfl⟩
      · rename_i hvalue
        obtain ⟨normal, hnormal, h⟩ := bind_eq_ok.mp h
        rw [← pure_eq_ok.mp h]
        exact ⟨rfl, rfl, rfl, by rw [hvalue]; exact isEmptyList_of_normaliseValues hnormal⟩
      · exact pure_eq_ok.mp h ▸ hrefl
    · exact pure_eq_ok.mp h ▸ hrefl
  · exact pure_eq_ok.mp h ▸ hrefl

theorem sameConditions_of_validateWhere {elements : List PatternElement} {w v : WhereExpr}
    (h : validateWhere tables elements w = .ok v) :
    List.Forall₂ SameCondition w.conditions v.conditions := by
  induction w generalizing v with
  | true =>
    obtain rfl := pure_eq_ok.mp h
    exact .nil
  | condition c =>
    obtain ⟨d, hd, h⟩ := bind_eq_ok.mp h
    obtain rfl := pure_eq_ok.mp h
    exact .cons (sameCondition_of_validateCondition hd) .nil
  | and l r ihl ihr | or l r ihl ihr =>
    obtain ⟨vl, hl, h⟩ := bind_eq_ok.mp h
    obtain ⟨vr, hr, h⟩ := bind_eq_ok.mp h
    obtain rfl := pure_eq_ok.mp h
    exact List.rel_append (ihl hl) (ihr hr)

/-- What the compiler gets of a query. -/
structure Validated (q v : GqlQuery) : Prop where
  alternating : Alternating q.elements
  bindings : checkVariables [] [] q.elements = .ok ()
  elements : List.Forall₂ SameElement q.elements v.elements
  conditions : List.Forall₂ SameCondition q.whereClause.conditions v.whereClause.conditions
  returnItems : v.returnItems = q.returnItems

theorem validated_of_validate {q v : GqlQuery} (hne : q.elements.isEmpty = false)
    (h : validate tables q = .ok v) : Validated q v := by
  obtain ⟨_, hshape, h⟩ := bind_eq_ok.mp h
  obtain ⟨_, hbindings, h⟩ := bind_eq_ok.mp h
  obtain ⟨elements, helements, h⟩ := bind_eq_ok.mp h
  obtain ⟨whereClause, hwhere, h⟩ := bind_eq_ok.mp h
  obtain rfl := pure_eq_ok.mp h
  exact {
    alternating := alternating_of_validatePatternShape hne hshape
    bindings := hbindings
    elements := (mapM_eq_ok.mp helements).imp fun _ _ ↦ sameElement_of_normaliseElement
    conditions := sameConditions_of_validateWhere hwhere
    returnItems := rfl }

end Validation

theorem Alternating.of_same {elements normal : List PatternElement} (h : Alternating elements)
    (hsame : List.Forall₂ SameElement elements normal) : Alternating normal := by
  induction h generalizing normal with
  | single n =>
    obtain _ | ⟨hn, hnil⟩ := hsame
    cases hn
    cases hnil
    exact .single n
  | cons n e _ ih =>
    obtain _ | ⟨hn, hsame⟩ := hsame
    obtain _ | ⟨he, hrest⟩ := hsame
    cases hn
    cases he with
    | edge e relations => exact .cons n _ (ih hrest)

/-! ## What the statements are made of -/

section Runs

variable (tables : CharTables) (v : GqlQuery) (opts : CompileOptions)
  (scope : Option QueryMailboxScope) (sql : Statement) (params : List Value)

/-- The parts of a chain of joins, in the order in which they are bound. -/
structure FixedRun where
  mailbox : Option MailboxLowering
  fragments : List Fragment
  condition : Option Expr
  items : List (List (String × Expr))
  offset : Placeholder
  limit : Placeholder
  check : Option TruncationCheck
  (p₁ p₂ p₃ : List Value)
  bindMailbox : (bindMailbox scope).run [] = .ok (mailbox, p₁)
  elements : (lowerChain opts mailbox false 0 v.elements).run p₁ = .ok (fragments, p₂)
  whereClause : (compileWhereExpr tables (variablesOf fragments) v.whereClause).run p₂ =
    .ok (condition, p₃)
  returnItems : v.returnItems.mapM (returnColumns (variablesOf fragments)) = .ok items
  bindPage : (bindPage v opts).run p₃ = .ok ((offset, limit, check), params)
  statement : sql = fixedStatement fragments condition items limit offset

/-- The parts of a recursive statement, in the order in which they are bound. -/
structure PathRun where
  mailbox : Option MailboxLowering
  start : NodePattern
  edge : EdgePattern
  stop : NodePattern
  startConditions : List Expr
  relations : List Expr
  edgeScope : List Expr
  nextScope : List Expr
  depth : Expr
  stopConditions : List Expr
  routed : Routed
  minimum : List Expr
  offset : Placeholder
  limit : Placeholder
  check : Option TruncationCheck
  returned : List (List (String × Expr) × Bool)
  (p₁ p₂ p₃ p₄ p₅ p₆ p₇ p₈ p₉ : List Value)
  bindMailbox : (bindMailbox scope).run [] = .ok (mailbox, p₁)
  elements : v.elements = [.node start, .edge edge, .node stop]
  canonical : edge.hasSynthetic = false
  bindStart : (nodeConditions opts "s" (kindFilterPredicate "s") ["name"] start).run p₁ =
    .ok (startConditions, p₂)
  bindRelations : (oneOf (.column "e" "relation") (edge.relations.map .text) :
    Compile (List Expr)).run p₂ = .ok (relations, p₃)
  bindEdgeScope : (namespaceFilter opts "e").run p₃ = .ok (edgeScope, p₄)
  bindNextScope : (namespaceFilter opts "next_node").run p₄ = .ok (nextScope, p₅)
  bindDepth : (push (.integer (Int64.ofNat (min edge.maxHops maxDepth))) : Compile Expr).run p₅ =
    .ok (depth, p₆)
  bindStop : (nodeConditions opts "r" (kindFilterPredicate "r") ["name"] stop).run p₆ =
    .ok (stopConditions, p₇)
  accepted : rejectOrSpanning start.var stop.var v.whereClause = .ok ()
  whereClause : (compileVariableLengthWhere tables start.var stop.var v.whereClause).run p₇ =
    .ok (routed, p₈)
  bindMinimum : (minimumDepth edge.minHops).run p₈ = .ok (minimum, p₉)
  bindPage : (bindPage v opts).run p₉ = .ok ((offset, limit, check), params)
  returnItems : v.returnItems.mapM
    (variableLengthColumns (pathVariables start stop edge) start.var) = .ok returned
  statement : sql = pathStatement mailbox edge.direction
    ⟨edgeScope, relations, nextScope, startConditions ++ routed.start, depth⟩ returned
    (stopConditions ++ routed.stop ++ minimum) limit offset

variable {tables v opts scope sql params}

theorem exists_fixedRun {check : Option TruncationCheck} (helements : Alternating v.elements)
    (h : (compileFixedLength tables v opts scope).run [] = .ok ((sql, check), params)) :
    Nonempty (FixedRun tables v opts scope sql params) := by
  obtain ⟨mailbox, p₁, hmailbox, h⟩ := run_bind_eq_ok.mp h
  obtain ⟨fragments, p₂, hfragments, h⟩ := run_bind_eq_ok.mp h
  obtain ⟨condition, p₃, hcondition, h⟩ := run_bind_eq_ok.mp h
  obtain ⟨items, p₄, hlift, h⟩ := run_bind_eq_ok.mp h
  obtain ⟨hitems, rfl⟩ := run_lift_eq_ok.mp hlift
  obtain ⟨⟨offset, limit, check'⟩, p₅, hpage, h⟩ := run_bind_eq_ok.mp h
  obtain ⟨heq, rfl⟩ := run_pure_eq_ok.mp h
  rw [lowerElements_eq_lowerChain helements] at hfragments
  exact ⟨⟨mailbox, fragments, condition, items, offset, limit, check', p₁, p₂, p₃, hmailbox,
    hfragments, hcondition, hitems, hpage, (Prod.mk.inj heq).1.symm⟩⟩

theorem threeElements_eq_ok {elements : List PatternElement} {start stop : NodePattern}
    {edge : EdgePattern} (h : threeElements elements = .ok (start, edge, stop)) :
    elements = [.node start, .edge edge, .node stop] := by
  unfold threeElements at h
  split at h
  · obtain ⟨rfl, heq⟩ := Prod.mk.inj (pure_eq_ok.mp h)
    obtain ⟨rfl, rfl⟩ := Prod.mk.inj heq
    rfl
  · exact absurd h throw_ne_ok

theorem exists_pathRun {check : Option TruncationCheck}
    (h : (compileVariableLength tables v opts scope).run [] = .ok ((sql, check), params)) :
    Nonempty (PathRun tables v opts scope sql params) := by
  obtain ⟨m, p₁, hmailbox, h⟩ := run_bind_eq_ok.mp h
  obtain ⟨⟨start, edge, stop⟩, _, hlift, h⟩ := run_bind_eq_ok.mp h
  obtain ⟨helements, rfl⟩ := run_lift_eq_ok.mp hlift
  obtain ⟨hcanonical, h⟩ := run_guard_eq_ok.mp h
  -- from here on parameters are numbered, in the order of the source
  obtain ⟨startConditions, p₂, hstart, h⟩ := run_bind_eq_ok.mp h
  obtain ⟨relations, p₃, hrelations, h⟩ := run_bind_eq_ok.mp h
  obtain ⟨edgeScope, p₄, hedgeScope, h⟩ := run_bind_eq_ok.mp h
  obtain ⟨nextScope, p₅, hnextScope, h⟩ := run_bind_eq_ok.mp h
  obtain ⟨depth, p₆, hdepth, h⟩ := run_bind_eq_ok.mp h
  obtain ⟨stopConditions, p₇, hstop, h⟩ := run_bind_eq_ok.mp h
  obtain ⟨_, _, hlift, h⟩ := run_bind_eq_ok.mp h
  obtain ⟨haccepted, rfl⟩ := run_lift_eq_ok.mp hlift
  obtain ⟨routed, p₈, hrouted, h⟩ := run_bind_eq_ok.mp h
  obtain ⟨minimum, p₉, hminimum, h⟩ := run_bind_eq_ok.mp h
  obtain ⟨⟨offset, limit, check'⟩, _, hpage, h⟩ := run_bind_eq_ok.mp h
  obtain ⟨returned, _, hlift, h⟩ := run_bind_eq_ok.mp h
  obtain ⟨hreturned, rfl⟩ := run_lift_eq_ok.mp hlift
  obtain ⟨heq, rfl⟩ := run_pure_eq_ok.mp h
  exact ⟨{
    mailbox := m, start, edge, stop, startConditions, relations, edgeScope, nextScope, depth
    stopConditions, routed, minimum, offset, limit, check := check', returned
    p₁, p₂, p₃, p₄, p₅, p₆, p₇, p₈, p₉
    bindMailbox := hmailbox
    elements := threeElements_eq_ok helements
    canonical := by simpa using hcanonical
    bindStart := hstart
    bindRelations := hrelations
    bindEdgeScope := hedgeScope
    bindNextScope := hnextScope
    bindDepth := hdepth
    bindStop := hstop
    accepted := haccepted
    whereClause := hrouted
    bindMinimum := hminimum
    bindPage := hpage
    returnItems := hreturned
    statement := (Prod.mk.inj heq).1.symm }⟩

/-- The text starts with one of the two words, which a blank ends. -/
theorem assertSelectOnly_of_append {word : String} (rest : String) (hword : word = "SELECT" ∨ word = "WITH") :
    assertSelectOnly (word ++ " " ++ rest) = .ok () := by
  have hblank : isWhitespace ' ' = true := rfl
  have hfirst : firstWord (word ++ " " ++ rest) = word := by
    rw [firstWord, String.toList_append, String.toList_append]
    rcases hword with rfl | rfl
    · simp [show isWhitespace 'S' = false from rfl, show isWhitespace 'E' = false from rfl,
        show isWhitespace 'L' = false from rfl, show isWhitespace 'C' = false from rfl,
        show isWhitespace 'T' = false from rfl, hblank]
    · simp [show isWhitespace 'W' = false from rfl, show isWhitespace 'I' = false from rfl,
        show isWhitespace 'T' = false from rfl, show isWhitespace 'H' = false from rfl, hblank]
  rw [assertSelectOnly, hfirst]
  rcases hword with rfl | rfl
  · exact if_pos (.inl (by decide))
  · exact if_pos (.inr (by decide))

/-- The last check never fails. -/
theorem assertSelectOnly_render (s : Statement) : assertSelectOnly s.render = .ok () := by
  have hstarts : ∀ rest, assertSelectOnly ("SELECT" ++ (" " ++ rest)) = .ok () := fun rest ↦ by
    rw [← String.append_assoc]
    exact assertSelectOnly_of_append rest (.inl rfl)
  have hwith : ∀ rest, assertSelectOnly ("WITH" ++ (" " ++ rest)) = .ok () := fun rest ↦ by
    rw [← String.append_assoc]
    exact assertSelectOnly_of_append rest (.inr rfl)
  obtain ⟨withClause, ⟨distinct, items, sources, conditions⟩, order, limit, offset⟩ := s
  cases withClause with
  | some w =>
    have htext : "WITH RECURSIVE " = "WITH" ++ (" " ++ "RECURSIVE ") := by decide
    simp only [Statement.render, Option.map_some, Option.getD_some, Sql.WithClause.render, htext,
      String.append_assoc, -String.reduceAppend]
    exact hwith _
  | none =>
    have htext : "SELECT " = "SELECT" ++ (" " ++ "") := by decide
    have htextDistinct : "SELECT DISTINCT " = "SELECT" ++ (" " ++ "DISTINCT ") := by decide
    cases distinct with
    | true =>
      simp only [Statement.render, Option.map_none, Option.getD_none, String.empty_append,
        Sql.Select.render, if_true, htextDistinct, String.append_assoc,
        -String.reduceAppend]
      exact hstarts _
    | false =>
      simp only [Statement.render, Option.map_none, Option.getD_none, String.empty_append,
        Sql.Select.render, Bool.false_eq_true, if_false, htext, String.append_assoc,
        -String.reduceAppend]
      exact hstarts _

/-- Whatever is lowered is compiled. -/
theorem compileScoped_of_run {q : GqlQuery} {check : Option TruncationCheck}
    (hne : q.elements.isEmpty = false) (hvalidate : validate tables q = .ok v)
    (hrun : (if v.hasVariableLength then compileVariableLength tables v opts scope
      else compileFixedLength tables v opts scope).run [] = .ok ((sql, check), params)) :
    compileScoped tables q opts scope = .ok ⟨sql, params, v.returnItems, check⟩ := by
  unfold compileScoped
  refine guard_eq_ok.mpr ⟨by simp [hne], ?_⟩
  refine bind_eq_ok.mpr ⟨v, hvalidate, bind_eq_ok.mpr ⟨_, hrun, ?_⟩⟩
  exact bind_eq_ok.mpr ⟨(), assertSelectOnly_render sql, rfl⟩

/-- A compiled query comes from one of the two paths. -/
theorem exists_run {q : GqlQuery} {c : CompiledQuery}
    (h : compileScoped tables q opts scope = .ok c) :
    ∃ v, validate tables q = .ok v ∧ Validated q v ∧ ((v.hasVariableLength = false ∧
        Nonempty (FixedRun tables v opts scope c.sql c.params)) ∨
      (v.hasVariableLength = true ∧ Nonempty (PathRun tables v opts scope c.sql c.params))) := by
  unfold compileScoped at h
  obtain ⟨hne, h⟩ := guard_eq_ok.mp h
  obtain ⟨v, hv, h⟩ := bind_eq_ok.mp h
  obtain ⟨⟨⟨sql, check⟩, params⟩, hrun, h⟩ := bind_eq_ok.mp h
  obtain ⟨_, -, h⟩ := bind_eq_ok.mp h
  obtain rfl := pure_eq_ok.mp h
  have hvalidated := validated_of_validate (by simpa using hne) hv
  refine ⟨v, hv, hvalidated, ?_⟩
  cases hlength : v.hasVariableLength with
  | false =>
    rw [hlength] at hrun
    exact .inl ⟨rfl, exists_fixedRun (hvalidated.alternating.of_same hvalidated.elements) hrun⟩
  | true =>
    rw [hlength] at hrun
    exact .inr ⟨rfl, exists_pathRun hrun⟩

end Runs

end Query

end Khive
