import Khive.Query.Chain
import Khive.Query.Where

/-!
# What a query binds

The values of a query, its options and its mailbox, each with what it is there for: the column it
restricts, the list it is in, the depth it bounds. They are listed in the order of the text of the
compiled statement, which is not the order in which the compiler numbers them.

A query is read with its relations under their stored names, which is all that validation changes
(`validate_eq_stored`). Each step of the compiler then binds what its part of the query asks for,
and so does the statement (`FixedRun.entries_placements`, `PathRun.entries_placements`).
-/

namespace Khive

namespace Query

open Sql (Expr Operand Value Slot Placement FromItem Statement entries placementsOf restriction
  oneOf push pushOperand entries_push entries_pushOperand entries_oneOf flatMap_of_mapM
  run_bind_eq_ok run_pure_eq_ok run_lift_eq_ok run_guard_eq_ok)

/-! ## Stored names -/

/-- The stored name of a relation. -/
def storedName (relation : String) : String :=
  ((EdgeRelation.fromStr relation).map EdgeRelation.asStr).getD relation

def ConditionValue.stored : ConditionValue → ConditionValue
  | string s => string (storedName s)
  | list values => list (values.map fun
    | string s => string (storedName s)
    | v => v)
  | v => v

/-- The operand of a condition on the relation of an edge is the name of a relation. -/
def Condition.stored (elements : List PatternElement) (c : Condition) : Condition :=
  match c.property with
  | .field name =>
    if name = "relation" ∧ bindsEdge elements c.var = true ∧
        c.op ∉ [.contains, .startsWith, .isNotNull, .isNull] then
      { c with value := c.value.stored }
    else c
  | .jsonPath _ => c

def WhereExpr.stored (elements : List PatternElement) : WhereExpr → WhereExpr
  | and l r => and (l.stored elements) (r.stored elements)
  | or l r => or (l.stored elements) (r.stored elements)
  | condition c => condition (c.stored elements)
  | true => true

def PatternElement.stored : PatternElement → PatternElement
  | node n => node n
  | edge e => edge { e with relations := e.relations.map storedName }

/-- The query with its relations under their stored names. -/
def GqlQuery.stored (q : GqlQuery) : GqlQuery :=
  let elements := q.elements.map PatternElement.stored
  { q with elements, whereClause := q.whereClause.stored elements }

section Stored

variable {tables : CharTables}

theorem eq_storedName_of_canonicalRelation {relation name : String}
    (h : canonicalRelation tables relation = .ok name) : name = storedName relation := by
  unfold canonicalRelation at h
  unfold storedName
  split at h
  · rename_i hparsed
    rw [hparsed]
    exact (pure_eq_ok.mp h).symm
  · exact absurd h throw_ne_ok

/-- `observed_as_*` is no relation of the graph, and keeps its name. -/
theorem storedName_of_isSynthetic {relation : String} (h : isSynthetic relation = true) :
    storedName relation = relation := by
  have hall : syntheticRelations.all (fun relation ↦ storedName relation == relation) = true := by
    decide +kernel
  exact beq_iff_eq.mp (List.all_eq_true.mp hall relation (List.contains_iff_mem.mp h))

theorem eq_storedName_of_normaliseRelation {relation name : String}
    (h : normaliseRelation tables relation = .ok name) : name = storedName relation := by
  unfold normaliseRelation at h
  split at h
  · split at h
    · rename_i hsynthetic
      rw [storedName_of_isSynthetic hsynthetic]
      exact (pure_eq_ok.mp h).symm
    · exact absurd h throw_ne_ok
  · exact eq_storedName_of_canonicalRelation h

/-- A loop that succeeds has mapped each element. -/
theorem eq_map_of_mapM {ε α β : Type} {f : α → Except ε β} {g : α → β} {xs : List α} {ys : List β}
    (hf : ∀ x y, f x = .ok y → y = g x) (h : xs.mapM f = .ok ys) : ys = xs.map g := by
  rw [mapM_eq_ok] at h
  induction h with
  | nil => rfl
  | cons hy _ ih => rw [List.map_cons, ← hf _ _ hy, ih]

theorem eq_stored_of_normaliseElement {element normal : PatternElement}
    (h : normaliseElement tables element = .ok normal) : normal = element.stored := by
  cases element with
  | node n =>
    rw [normaliseElement] at h
    split at h
    · exact absurd h throw_ne_ok
    · exact (pure_eq_ok.mp h).symm
  | edge e =>
    obtain ⟨relations, hrelations, h⟩ := bind_eq_ok.mp h
    obtain ⟨-, h⟩ := guard_eq_ok.mp h
    obtain ⟨-, h⟩ := guard_eq_ok.mp h
    obtain ⟨-, h⟩ := guard_eq_ok.mp h
    obtain ⟨-, h⟩ := guard_eq_ok.mp h
    obtain rfl := pure_eq_ok.mp h
    rw [eq_map_of_mapM (fun _ _ ↦ eq_storedName_of_normaliseRelation) hrelations]
    rfl

theorem eq_stored_of_normaliseValues {values normal : List ConditionValue}
    (h : normaliseValues tables values = .ok normal) :
    ConditionValue.list normal = (ConditionValue.list values).stored := by
  induction values generalizing normal with
  | nil => exact congrArg ConditionValue.list (pure_eq_ok.mp h).symm
  | cons value values ih =>
    unfold normaliseValues at h
    split at h
    · contradiction
    · rename_i heq
      obtain ⟨rfl, rfl⟩ := List.cons_eq_cons.mp heq
      obtain ⟨relation, hrelation, h⟩ := bind_eq_ok.mp h
      obtain ⟨rest, hrest, h⟩ := bind_eq_ok.mp h
      obtain rfl := pure_eq_ok.mp h
      obtain rfl := eq_storedName_of_canonicalRelation hrelation
      have htail := ConditionValue.list.inj (ih hrest)
      exact congrArg ConditionValue.list (congrArg (List.cons _) htail)
    · exact absurd h throw_ne_ok

theorem eq_stored_of_validateCondition {elements : List PatternElement} {c d : Condition}
    (h : validateCondition tables c (bindsEdge elements c.var) = .ok d) : d = c.stored elements := by
  unfold validateCondition at h
  unfold Condition.stored
  cases hproperty : c.property with
  | jsonPath path =>
    rw [hproperty] at h
    exact (pure_eq_ok.mp h).symm
  | field name =>
    simp only [hproperty] at h ⊢
    split at h
    · exact absurd h throw_ne_ok
    split at h
    · rename_i hkind
      rw [if_neg fun hrelation ↦ hkind.2 hrelation.2.1]
      exact (pure_eq_ok.mp h).symm
    split at h
    · rename_i hrelation
      split at h
      · rename_i hop
        rw [if_neg fun hall ↦ hall.2.2 hop]
        exact (pure_eq_ok.mp h).symm
      rename_i hop
      rw [if_pos ⟨hrelation.1, hrelation.2, hop⟩]
      -- the operand names relations
      split at h
      · rename_i hvalue
        obtain ⟨relation, hcanonical, h⟩ := bind_eq_ok.mp h
        rw [← pure_eq_ok.mp h, hvalue, eq_storedName_of_canonicalRelation hcanonical]
        rfl
      · rename_i hvalue
        obtain ⟨normal, hnormal, h⟩ := bind_eq_ok.mp h
        rw [← pure_eq_ok.mp h, hvalue, eq_stored_of_normaliseValues hnormal]
      · rename_i hstring hlist
        rw [← pure_eq_ok.mp h]
        have hsame : c.value.stored = c.value := by
          cases hvalue : c.value with
          | string s => exact absurd hvalue (hstring s)
          | list values => exact absurd hvalue (hlist values)
          | integer | number | bool | null => rfl
        rw [hsame, ← hproperty]
    · rename_i hrelation
      rw [if_neg fun hall ↦ hrelation ⟨hall.1, hall.2.1⟩]
      exact (pure_eq_ok.mp h).symm

theorem eq_stored_of_validateWhere {elements : List PatternElement} {w v : WhereExpr}
    (h : validateWhere tables elements w = .ok v) : v = w.stored elements := by
  induction w generalizing v with
  | true => exact (pure_eq_ok.mp h).symm
  | condition c =>
    obtain ⟨d, hd, h⟩ := bind_eq_ok.mp h
    rw [← pure_eq_ok.mp h, eq_stored_of_validateCondition hd]
    rfl
  | and l r ihl ihr | or l r ihl ihr =>
    obtain ⟨vl, hl, h⟩ := bind_eq_ok.mp h
    obtain ⟨vr, hr, h⟩ := bind_eq_ok.mp h
    rw [← pure_eq_ok.mp h, ihl hl, ihr hr]
    rfl

/-- Validation changes the names of relations to the stored ones, and nothing else. -/
theorem validate_eq_stored {q v : GqlQuery} (h : validate tables q = .ok v) : v = q.stored := by
  obtain ⟨_, -, h⟩ := bind_eq_ok.mp h
  obtain ⟨_, -, h⟩ := bind_eq_ok.mp h
  obtain ⟨elements, helements, h⟩ := bind_eq_ok.mp h
  obtain ⟨whereClause, hwhere, h⟩ := bind_eq_ok.mp h
  rw [← pure_eq_ok.mp h, eq_stored_of_validateWhere hwhere,
    eq_map_of_mapM (fun _ _ ↦ eq_stored_of_normaliseElement) helements]
  rfl

end Stored

/-! ## What a pattern asks for -/

/-- Values, each with what it is there for. -/
abbrev Asked := List (Slot × Value)

/-- The value of a scalar literal. -/
def ConditionValue.scalar : ConditionValue → Value
  | string s => .text s
  | integer n => .integer n
  | number x => .real x
  | bool b => .integer (if b then 1 else 0)
  | list _ | null => .null

/-- A column that is equal to a text. -/
def equals (source column s : String) : Slot × Value := (.comparison .eq (.column source column), .text s)

def inScope (opts : CompileOptions) (source : String) : Asked :=
  restriction (.column source "namespace") (opts.scopes.map .text)

/-- The actor, in what is asked of a note. -/
def noteAsked (actor : Option Value) (source : String) : Asked :=
  actor.toList.flatMap fun v ↦ ["to_actor", "from_actor"].map fun key ↦
    (.comparison .eq (.jsonExtract (.column source "properties") ("$." ++ key)), v)

/-- The actor, in what is asked of the two ends of an edge. -/
def endpointsAsked (actor : Option Value) : Asked :=
  noteAsked actor "mailbox_note" ++ noteAsked actor "mailbox_note"

/-- The actor in the union of all nodes: notes and edges are filtered. -/
def unionAsked (actor : Option Value) : Asked := noteAsked actor "notes" ++ endpointsAsked actor

/-- Scope, kind, entity type and properties. The kinds `substrates` are in a column of their own, and
some properties are columns. -/
def NodePattern.asked (np : NodePattern) (opts : CompileOptions) (source : String)
    (substrates : List String) (substrateColumn : String) (textColumns : List String) : Asked :=
  inScope opts source ++
    np.kind.toList.map (fun kind ↦
      equals source (if kind ∈ substrates then substrateColumn else "kind") kind) ++
    np.entityType.toList.map (equals source "entity_type") ++
    np.sortedProperties.map fun (key, value) ↦
      (.comparison .eq (if key ∈ textColumns then .column source key
        else .jsonExtract (.column source "properties") ("$." ++ key)), value.scalar)

def NodeRole.asked (opts : CompileOptions) (source : String) (np : NodePattern) : NodeRole → Asked
  | eventSource =>
    inScope opts source ++ (np.kind.toList.filter (· ≠ "event")).map (equals source "kind")
  | observationTarget =>
    np.asked opts source ["entity", "note"] "referent_kind" ["name", "content"]
  | primary => np.asked opts source ["entity", "note", "event", "edge"] "substrate_kind" ["name"]

/-- The roles of an observation, or scope and relations of an edge. -/
def EdgePattern.asked (ep : EdgePattern) (opts : CompileOptions) (source : String) : Asked :=
  if ep.hasSynthetic then
    restriction (.column source "role") ((ep.relations.filterMap syntheticRole).map .text)
  else
    inScope opts source ++ restriction (.column source "relation") (ep.relations.map .text)

/-- The actor in what a chain is read from: the first node, and behind each edge the edge and the
next node. -/
def edgeSourcesAsked (actor : Option Value) : PatternElement → Asked
  | .node _ => []
  | .edge e =>
    if e.hasSynthetic then noteAsked actor "notes" else endpointsAsked actor ++ unionAsked actor

def firstAsked (actor : Option Value) : NodeRole → Asked
  | .primary => unionAsked actor
  | .eventSource | .observationTarget => []

def sourcesAsked (actor : Option Value) (elements : List PatternElement) : Asked :=
  firstAsked actor (chainRole false elements.tail) ++ elements.flatMap (edgeSourcesAsked actor)

/-- The conditions on the elements of a chain. -/
def chainAsked (opts : CompileOptions) : Bool → Nat → List PatternElement → Asked
  | before, index, .node np :: .edge ep :: rest =>
    (chainRole before (.edge ep :: rest)).asked opts (nodeAlias index) np ++
      ep.asked opts (edgeAlias index) ++ chainAsked opts ep.hasSynthetic (index + 1) rest
  | before, index, .node np :: rest => (chainRole before rest).asked opts (nodeAlias index) np
  | _, _, _ => []

/-! ## What conditions ask for -/

def CompareOp.comparison? : CompareOp → Option Sql.Comparison
  | eq => some .eq
  | neq => some .ne
  | gt => some .gt
  | lt => some .lt
  | gte => some .ge
  | lte => some .le
  | like | contains | startsWith | isIn | isNotNull | isNull => none

def PropertyRef.column (source : String) : PropertyRef → Expr
  | field name => .column source name
  | jsonPath path => .jsonExtract (.column source "properties") ("$." ++ ".".intercalate path)

/-- A condition on the record that `source` is at. -/
def Condition.asked (source : String) (c : Condition) : Asked :=
  let column := c.property.column source
  match c.op, c.value with
  | .contains, .string s => [(.pattern column, .text ("%" ++ escapeLikeLiteral s ++ "%"))]
  | .startsWith, .string s => [(.pattern column, .text (escapeLikeLiteral s ++ "%"))]
  | .isIn, .list values => values.map fun v ↦
      (.member (collate (values.any ConditionValue.isString) column), v.scalar)
  | .like, v => [(.pattern column, v.scalar)]
  | op, v => op.comparison?.toList.map fun op ↦ (.comparison op column, v.scalar)

/-- The variables of a chain with the sources they are bound to. -/
def variableSources : Nat → List PatternElement → List (String × String)
  | index, .node np :: .edge ep :: rest =>
    np.var.toList.map (·, nodeAlias index) ++ ep.var.toList.map (·, edgeAlias index) ++
      variableSources (index + 1) rest
  | index, .node np :: _ => np.var.toList.map (·, nodeAlias index)
  | _, _ => []

def sourceOf (elements : List PatternElement) (var : String) : String :=
  ((variableSources 0 elements).reverse.lookup var).getD ""

/-! ## What a query asks for -/

namespace GqlQuery

variable (q : GqlQuery) (opts : CompileOptions) (actor : Option Value)

def pageAsked : Asked :=
  [(.limit, .integer (effectiveLimit q.limit q.offset opts.maxLimit).1.toInt64),
    (.offset, .integer q.offset.toInt64)]

/-- A chain of joins: the actor in its sources, then the conditions, then the page. -/
def chainStatementAsked : Asked :=
  sourcesAsked actor q.elements ++ chainAsked opts false 0 q.elements ++
    q.whereClause.conditions.flatMap (fun c ↦ c.asked (sourceOf q.elements c.var)) ++
    q.pageAsked opts

/-- What is asked of an edge of a path and of the node behind it. -/
def pathStepAsked (edge : EdgePattern) : Asked :=
  endpointsAsked actor ++ inScope opts "e" ++
    restriction (.column "e" "relation") (edge.relations.map .text) ++ inScope opts "next_node"

/-- A recursive table: its nodes, the first edge with the conditions on the start, the next edges
with the greatest depth, then the conditions on the end with the least depth, and the page. -/
def pathStatementAsked (start : NodePattern) (edge : EdgePattern) (stop : NodePattern) : Asked :=
  let depth := Expr.column "t" "depth"
  unionAsked actor ++
    (pathStepAsked opts actor edge ++ NodeRole.primary.asked opts "s" start ++
      (q.whereClause.conditions.filter fun c ↦ start.var == some c.var).flatMap
        (Condition.asked "s")) ++
    (pathStepAsked opts actor edge ++
      [(.comparison .lt depth, .integer (Int64.ofNat (min edge.maxHops maxDepth)))]) ++
    (NodeRole.primary.asked opts "r" stop ++
      (q.whereClause.conditions.filter fun c ↦ start.var != some c.var).flatMap
        (Condition.asked "r") ++
      if edge.minHops > 0 then [(.comparison .ge depth, .integer (Int64.ofNat edge.minHops))]
      else []) ++
    q.pageAsked opts

/-- The values of the query in the order of the text. -/
def asked : Asked :=
  if q.hasVariableLength then
    match q.elements with
    | [.node start, .edge edge, .node stop] => q.pathStatementAsked opts actor start edge stop
    | _ => []
  else q.chainStatementAsked opts actor

end GqlQuery

/-! ## What the compiler binds for a pattern -/

section Pattern

variable {opts : CompileOptions} {p p' : List Value} {source : String}

theorem eq_scalar_of_scalarValue {refusal : QueryError} {value : ConditionValue} {v : Value}
    (h : scalarValue refusal value = .ok v) : v = value.scalar := by
  unfold scalarValue at h
  split at h
  · exact (pure_eq_ok.mp h).symm
  · exact (pure_eq_ok.mp h).symm
  · split at h
    · exact (pure_eq_ok.mp h).symm
    · exact absurd h throw_ne_ok
  · exact (pure_eq_ok.mp h).symm
  · exact absurd h throw_ne_ok
  · exact absurd h throw_ne_ok

@[simp] theorem placements_collate (nocase : Bool) (slot : Slot) (e : Expr) :
    (collate nocase e).placements slot = e.placements slot := by
  cases nocase <;> rfl

theorem entries_namespaceFilter {es : List Expr}
    (h : (namespaceFilter opts source).run p = .ok (es, p')) :
    entries (placementsOf es) = inScope opts source :=
  entries_oneOf rfl h

/-- A comparison has the placeholders of its two sides. -/
theorem entries_compare {op : Sql.Comparison} {column e : Expr} {slot : Slot}
    (hcolumn : column.placements .other = []) :
    entries ((Expr.compare op column e).placements slot) =
      entries (e.placements (.comparison op column)) := by
  rw [Expr.placements, hcolumn, List.nil_append]

theorem entries_columnEquals {column s : String} {e : Expr}
    (h : (columnEquals source column s).run p = .ok (e, p')) :
    entries (e.placements .other) = [equals source column s] := by
  obtain ⟨param, p₁, hparam, h⟩ := run_bind_eq_ok.mp h
  obtain ⟨rfl, -⟩ := run_pure_eq_ok.mp h
  rw [entries_compare rfl]
  exact entries_push _ hparam

/-- A kind is looked up in one of two columns. -/
theorem entries_kindFilter {substrates : List String} {substrateColumn kind : String} {e : Expr}
    (h : (if kind ∈ substrates then columnEquals source substrateColumn kind
      else columnEquals source "kind" kind).run p = .ok (e, p')) :
    entries (e.placements .other) =
      [equals source (if kind ∈ substrates then substrateColumn else "kind") kind] := by
  by_cases hkind : kind ∈ substrates
  · rw [if_pos hkind] at h ⊢
    exact entries_columnEquals h
  · rw [if_neg hkind] at h ⊢
    exact entries_columnEquals h

theorem entries_compilePropertyEquality {key : String} {value : ConditionValue}
    {textColumns : List String} {e : Expr}
    (h : (compilePropertyEquality source key value
      (if key ∈ textColumns then some key else none)).run p = .ok (e, p')) :
    entries (e.placements .other) =
      [(.comparison .eq (if key ∈ textColumns then .column source key
        else .jsonExtract (.column source "properties") ("$." ++ key)), value.scalar)] := by
  obtain ⟨v, p₁, hv, h⟩ := run_bind_eq_ok.mp h
  obtain ⟨hvalue, rfl⟩ := run_lift_eq_ok.mp hv
  obtain ⟨param, p₂, hparam, h⟩ := run_bind_eq_ok.mp h
  obtain ⟨rfl, -⟩ := run_pure_eq_ok.mp h
  obtain rfl := eq_scalar_of_scalarValue hvalue
  by_cases hkey : key ∈ textColumns
  · simp only [hkey, if_true]
    rw [entries_compare rfl, placements_collate]
    exact entries_push _ hparam
  · simp only [hkey, if_false]
    rw [entries_compare rfl, placements_collate]
    exact entries_push _ hparam

theorem entries_mapM {α : Type} {f : α → Compile Expr} {ask : α → Slot × Value} {xs : List α}
    {es : List Expr} (hf : ∀ x p e p', (f x).run p = .ok (e, p') →
      entries (e.placements .other) = [ask x])
    (h : (xs.mapM f).run p = .ok (es, p')) : entries (placementsOf es) = xs.map ask := by
  rw [placementsOf, Sql.entries_flatMap, List.map_eq_flatMap]
  exact flatMap_of_mapM hf h

theorem entries_nodeConditions {kindFilter : String → Compile Expr} {substrates : List String}
    {substrateColumn : String} {textColumns : List String} {np : NodePattern} {es : List Expr}
    (hkind : ∀ kind p e p', (kindFilter kind).run p = .ok (e, p') → entries (e.placements .other) =
      [equals source (if kind ∈ substrates then substrateColumn else "kind") kind])
    (h : (nodeConditions opts source kindFilter textColumns np).run p = .ok (es, p')) :
    entries (placementsOf es) = np.asked opts source substrates substrateColumn textColumns := by
  obtain ⟨scope, p₁, hscope, h⟩ := run_bind_eq_ok.mp h
  obtain ⟨kinds, p₂, hkinds, h⟩ := run_bind_eq_ok.mp h
  obtain ⟨types, p₃, htypes, h⟩ := run_bind_eq_ok.mp h
  obtain ⟨properties, p₄, hproperties, h⟩ := run_bind_eq_ok.mp h
  obtain ⟨rfl, -⟩ := run_pure_eq_ok.mp h
  have hdeleted : (Expr.isNull (.column source "deleted_at")).placements .other = [] := rfl
  simp only [Sql.placementsOf_cons, Sql.placementsOf_append, Sql.entries_append, hdeleted,
    List.nil_append, entries_namespaceFilter hscope, entries_mapM hkind hkinds,
    entries_mapM (fun _ _ _ _ ↦ entries_columnEquals) htypes,
    entries_mapM (fun _ _ _ _ ↦ entries_compilePropertyEquality) hproperties]
  rfl

theorem entries_eventConditions {np : NodePattern} {es : List Expr}
    (h : (eventConditions opts source np).run p = .ok (es, p')) :
    entries (placementsOf es) = NodeRole.eventSource.asked opts source np := by
  obtain ⟨scope, p₁, hscope, h⟩ := run_bind_eq_ok.mp h
  obtain ⟨kinds, p₂, hkinds, h⟩ := run_bind_eq_ok.mp h
  obtain ⟨-, h⟩ := run_guard_eq_ok.mp h
  obtain ⟨-, h⟩ := run_guard_eq_ok.mp h
  obtain ⟨rfl, -⟩ := run_pure_eq_ok.mp h
  rw [Sql.placementsOf_append, Sql.entries_append, entries_namespaceFilter hscope,
    entries_mapM (fun _ _ _ _ ↦ entries_columnEquals) hkinds]
  rfl

theorem entries_roleConditions {role : NodeRole} {np : NodePattern} {es : List Expr}
    (h : (role.conditions opts source np).run p = .ok (es, p')) :
    entries (placementsOf es) = role.asked opts source np := by
  cases role with
  | eventSource => exact entries_eventConditions h
  | observationTarget => exact entries_nodeConditions (fun _ _ _ _ ↦ entries_kindFilter) h
  | primary => exact entries_nodeConditions (fun _ _ _ _ ↦ entries_kindFilter) h

end Pattern

/-! ## The actor in the sources -/

section Sources

variable {p p' : List Value} {mailbox : Option MailboxLowering}

/-- The actors that the filters of a mailbox name. -/
def actorOf (mailbox : Option MailboxLowering) : Option Value := mailbox.map MailboxLowering.actor

theorem actorOf_bindMailbox {scope : Option QueryMailboxScope}
    (h : (bindMailbox scope).run p = .ok (mailbox, p')) :
    actorOf mailbox = scope.map fun scope ↦ .text scope.actorId := by
  cases scope with
  | none =>
    obtain ⟨rfl, -⟩ := run_pure_eq_ok.mp h
    rfl
  | some scope =>
    obtain ⟨rfl, -⟩ := Prod.mk.inj (Except.ok.inj h)
    rfl

theorem entries_noteVisible (m : MailboxLowering) (source : String) (slot : Slot) :
    entries ((m.noteVisible source).placements slot) = noteAsked (some m.actor) source := by
  obtain ⟨index, actor, legacy⟩ := m
  cases legacy <;> rfl

theorem entries_edgeFilter (m : MailboxLowering) (source : String) (slot : Slot) :
    entries ((m.edgeFilter source).placements slot) = endpointsAsked (some m.actor) := by
  obtain ⟨index, actor, legacy⟩ := m
  cases legacy <;> rfl

theorem entries_primaryNodes :
    entries ((primaryNodes mailbox).flatMap Sql.Member.placements) =
      unionAsked (actorOf mailbox) := by
  cases mailbox with
  | none => rfl
  | some m =>
    have hnotes := entries_noteVisible m "notes" .other
    have hedges := entries_edgeFilter m "graph_edges" .other
    simp [primaryNodes, Sql.Member.placements, MailboxLowering.noteFilter, hnotes, hedges,
      unionAsked, actorOf]

theorem entries_observationTargets :
    entries ((observationTargets mailbox).flatMap Sql.Member.placements) =
      noteAsked (actorOf mailbox) "notes" := by
  cases mailbox with
  | none => rfl
  | some m =>
    have hnotes := entries_noteVisible m "notes" .other
    simp [observationTargets, Sql.Member.placements, MailboxLowering.noteFilter, hnotes, actorOf]

theorem entries_edgeSource :
    entries (edgeSource mailbox).placements = endpointsAsked (actorOf mailbox) := by
  cases mailbox with
  | none => rfl
  | some m => exact entries_edgeFilter m "graph_edges" .other

end Sources

/-! ## Chains -/

section Chains

variable {opts : CompileOptions} {mailbox : Option MailboxLowering} {p p' : List Value}
  {f : Fragment}

/-- What a part of the statement asks for, and the variable it binds. -/
structure Fragment.Asks (f : Fragment) (sources conditions : Asked)
    (bindings : List (String × String)) : Prop where
  sources : entries (f.sources.flatMap FromItem.placements) = sources
  conditions : entries (placementsOf f.conditions) = conditions
  bindings : f.binding.toList.map (fun b ↦ (b.1, b.2.1)) = bindings

theorem asks_lowerNode {role : NodeRole} {index : Nat} {np : NodePattern}
    (h : (lowerNode opts mailbox role index np).run p = .ok (f, p')) :
    f.Asks (if index = 0 then firstAsked (actorOf mailbox) role else [])
      (role.asked opts (nodeAlias index) np) (np.var.toList.map (·, nodeAlias index)) := by
  obtain ⟨conditions, hconditions, rfl⟩ := lowerNode_eq_ok.mp h
  refine ⟨?_, entries_roleConditions hconditions, ?_⟩
  · by_cases hindex : index = 0
    · simp only [nodeFragment, hindex, if_true]
      cases role with
      | eventSource | observationTarget => rfl
      | primary =>
        simp only [NodeRole.first, List.flatMap_cons, List.flatMap_nil, FromItem.placements,
          Sql.Source.placements_union, Sql.placementsOf_nil, List.append_nil, entries_primaryNodes]
        rfl
    · simp only [nodeFragment, hindex, if_false]
      rfl
  · rw [nodeFragment]
    cases np.var <;> rfl

/-- The two ways to the other end of an edge have no placeholders. -/
theorem placements_edgeJoin {direction : EdgeDirection} {source prev name : String} {slot : Slot} :
    (edgeJoin direction source (.column prev name)).placements slot = [] := by
  cases direction <;> rfl

theorem placements_edgeNext {direction : EdgeDirection} {source prev name : String} {slot : Slot} :
    (edgeNext direction source (.column prev name)).placements slot = [] := by
  cases direction <;> rfl

theorem asks_lowerEdge {index next : Nat} {ep : EdgePattern}
    (h : (lowerEdge opts mailbox index next ep).run p = .ok (f, p')) :
    f.Asks (edgeSourcesAsked (actorOf mailbox) (.edge ep)) (ep.asked opts (edgeAlias index))
      (ep.var.toList.map (·, edgeAlias index)) := by
  cases hep : ep.hasSynthetic with
  | true =>
    obtain ⟨roles, hroles, rfl⟩ := lowerEdge_synthetic hep h
    refine ⟨?_, ?_, by cases hvar : ep.var <;> simp [syntheticFragment, hvar]⟩
    · simp only [syntheticFragment, List.flatMap_cons, List.flatMap_nil, FromItem.placements,
        Sql.Source.placements_table, Sql.Source.placements_union, Sql.placementsOf_cons,
        Sql.placementsOf_nil, Expr.placements, List.append_nil, List.nil_append,
        entries_observationTargets, edgeSourcesAsked, hep, if_true]
    · have hmatrix : placementsOf [roleMatrix (edgeAlias index)] = [] := rfl
      rw [syntheticFragment, Sql.placementsOf_append, hmatrix, List.append_nil,
        entries_oneOf rfl hroles, EdgePattern.asked, if_pos hep]
  | false =>
    obtain ⟨scope, relations, p₁, hscope, hrelations, rfl⟩ := lowerEdge_canonical hep h
    refine ⟨?_, ?_, by cases hvar : ep.var <;> simp [canonicalFragment, hvar]⟩
    · simp only [canonicalFragment, List.flatMap_cons, List.flatMap_nil, FromItem.placements,
        Sql.Source.placements_union, Sql.placementsOf_cons, Sql.placementsOf_nil, Expr.placements,
        placements_edgeJoin, placements_edgeNext, List.append_nil, Sql.entries_append,
        entries_edgeSource, entries_primaryNodes, edgeSourcesAsked, hep, Bool.false_eq_true,
        if_false]
    · rw [canonicalFragment, Sql.placementsOf_append, Sql.entries_append,
        entries_namespaceFilter hscope, entries_oneOf rfl hrelations, EdgePattern.asked,
        if_neg (by simp [hep])]

/-- The same of the parts of a chain, each kind collected. -/
structure AsksAll (fs : List Fragment) (sources conditions : Asked)
    (bindings : List (String × String)) : Prop where
  sources : entries ((fs.flatMap Fragment.sources).flatMap FromItem.placements) = sources
  conditions : entries (placementsOf (fs.flatMap Fragment.conditions)) = conditions
  bindings : (fs.filterMap Fragment.binding).map (fun b ↦ (b.1, b.2.1)) = bindings

theorem AsksAll.nil : AsksAll [] [] [] [] := ⟨rfl, rfl, rfl⟩

theorem AsksAll.cons {fs : List Fragment} {sources sources' conditions conditions' : Asked}
    {bindings bindings' : List (String × String)} (h : f.Asks sources conditions bindings)
    (hrest : AsksAll fs sources' conditions' bindings') :
    AsksAll (f :: fs) (sources ++ sources') (conditions ++ conditions') (bindings ++ bindings') where
  sources := by
    rw [List.flatMap_cons, List.flatMap_append, Sql.entries_append, h.sources, hrest.sources]
  conditions := by
    rw [List.flatMap_cons, Sql.placementsOf_append, Sql.entries_append, h.conditions,
      hrest.conditions]
  bindings := by
    rw [← h.bindings, ← hrest.bindings]
    cases hbinding : f.binding <;> simp [hbinding]

theorem asksAll_lowerChain {elements : List PatternElement} (helements : Alternating elements)
    {before : Bool} {index : Nat} {fs : List Fragment}
    (h : (lowerChain opts mailbox before index elements).run p = .ok (fs, p')) :
    AsksAll fs
      ((if index = 0 then firstAsked (actorOf mailbox) (chainRole before elements.tail) else []) ++
        elements.flatMap (edgeSourcesAsked (actorOf mailbox)))
      (chainAsked opts before index elements) (variableSources index elements) := by
  induction helements generalizing before index p fs with
  | single n =>
    obtain ⟨node, p₁, hnode, h⟩ := run_bind_eq_ok.mp h
    obtain ⟨rfl, -⟩ := run_pure_eq_ok.mp h
    simpa [chainAsked, variableSources, edgeSourcesAsked] using AsksAll.cons (asks_lowerNode hnode) .nil
  | cons n e _ ih =>
    obtain ⟨node, p₁, hnode, h⟩ := run_bind_eq_ok.mp h
    obtain ⟨edge, p₂, hedge, h⟩ := run_bind_eq_ok.mp h
    obtain ⟨fs, p₃, hfs, h⟩ := run_bind_eq_ok.mp h
    obtain ⟨rfl, rfl⟩ := run_pure_eq_ok.mp h
    have hall := AsksAll.cons (asks_lowerNode hnode) (.cons (asks_lowerEdge hedge) (ih hfs))
    simpa [chainAsked, variableSources, edgeSourcesAsked] using hall

/-- A variable is bound to the source that the pattern gives it. -/
theorem lookup_variablesOf {fs : List Fragment} {elements : List PatternElement}
    {var source : String} {kind : VarKind}
    (hbindings : (fs.filterMap Fragment.binding).map (fun b ↦ (b.1, b.2.1)) =
      variableSources 0 elements)
    (h : (variablesOf fs).lookup var = some (source, kind)) : sourceOf elements var = source := by
  have hlookup : ∀ l : Variables, (l.map fun b ↦ (b.1, b.2.1)).lookup var =
      (l.lookup var).map Prod.fst := by
    intro l
    induction l with
    | nil => rfl
    | cons b l ih =>
      obtain ⟨name, bound⟩ := b
      rw [List.map_cons, List.lookup_cons, List.lookup_cons, ih]
      cases var == name <;> rfl
  rw [sourceOf, ← hbindings, ← List.map_reverse, hlookup]
  change (((variablesOf fs).lookup var).map Prod.fst).getD "" = source
  rw [h]
  rfl

end Chains

/-! ## Conditions -/

section Conditions

variable {tables : CharTables} {p p' : List Value} {source : String} {column e : Expr}
  {c : Condition}

theorem eq_column_of_wherePropertyExpression {property : PropertyRef} {kind : VarKind}
    (h : wherePropertyExpression tables property kind source = .ok e) :
    e = property.column source := by
  unfold wherePropertyExpression at h
  cases property with
  | field field =>
    simp only at h
    split at h
    · exact (pure_eq_ok.mp h).symm
    · split at h
      · exact absurd h throw_ne_ok
      · exact absurd h throw_ne_ok
  | jsonPath path =>
    simp only at h
    split at h
    · exact absurd h throw_ne_ok
    split at h
    · exact absurd h throw_ne_ok
    split at h
    · exact absurd h throw_ne_ok
    · exact (pure_eq_ok.mp h).symm

@[simp] theorem placements_column (property : PropertyRef) (slot : Slot) :
    (property.column source).placements slot = [] := by
  cases property <;> rfl

theorem entries_like {escape : Option Char} (hcolumn : column.placements .other = []) :
    entries ((Expr.like column e escape).placements .other) =
      entries (e.placements (.pattern column)) := by
  rw [Expr.placements, hcolumn, List.nil_append]

theorem entries_literalPredicate {before : String} (hcolumn : column.placements .other = [])
    (h : (literalPredicate column c before).run p = .ok (e, p')) :
    ∃ s, c.value = .string s ∧ entries (e.placements .other) =
      [(.pattern column, .text (before ++ escapeLikeLiteral s ++ "%"))] := by
  unfold literalPredicate at h
  split at h
  · rename_i s hvalue
    obtain ⟨param, p₁, hparam, h⟩ := run_bind_eq_ok.mp h
    obtain ⟨rfl, -⟩ := run_pure_eq_ok.mp h
    refine ⟨s, hvalue, ?_⟩
    rw [entries_like hcolumn, Expr.placements]
    exact entries_push _ hparam
  · exact absurd h Sql.run_throw_ne_ok

theorem entries_inPredicate (hcolumn : column.placements .other = [])
    (h : (inPredicate column c).run p = .ok (e, p')) :
    ∃ values, c.value = .list values ∧ entries (e.placements .other) = values.map fun v ↦
      (.member (collate (values.any ConditionValue.isString) column), v.scalar) := by
  unfold inPredicate at h
  split at h
  · rename_i hvalue
    obtain ⟨rfl, -⟩ := run_pure_eq_ok.mp h
    exact ⟨[], hvalue, rfl⟩
  · rename_i values _ hvalue
    obtain ⟨items, p₁, hitems, h⟩ := run_bind_eq_ok.mp h
    obtain ⟨rfl, -⟩ := run_pure_eq_ok.mp h
    refine ⟨values, hvalue, ?_⟩
    rw [Expr.placements, placements_collate, hcolumn, List.nil_append, Sql.entries_flatMap,
      List.map_eq_flatMap]
    refine flatMap_of_mapM (fun value p₂ o p₃ ho ↦ ?_) hitems
    obtain ⟨v, p₄, hv, ho⟩ := run_bind_eq_ok.mp ho
    obtain ⟨hscalar, rfl⟩ := run_lift_eq_ok.mp hv
    obtain rfl := eq_scalar_of_scalarValue hscalar
    exact entries_pushOperand _ ho
  · exact absurd h Sql.run_throw_ne_ok

theorem entries_comparisonPredicate {op : Sql.Comparison} (hcolumn : column.placements .other = [])
    (h : (comparisonPredicate op column c).run p = .ok (e, p')) :
    entries (e.placements .other) = [(.comparison op column, c.value.scalar)] := by
  obtain ⟨v, p₁, hv, h⟩ := run_bind_eq_ok.mp h
  obtain ⟨hscalar, rfl⟩ := run_lift_eq_ok.mp hv
  obtain ⟨param, p₂, hparam, h⟩ := run_bind_eq_ok.mp h
  obtain ⟨rfl, -⟩ := run_pure_eq_ok.mp h
  obtain rfl := eq_scalar_of_scalarValue hscalar
  rw [entries_compare hcolumn, placements_collate]
  exact entries_push _ hparam

theorem entries_nullPredicate {message : String} {predicate : Expr}
    (hpredicate : predicate.placements .other = [])
    (h : (nullPredicate predicate c message).run p = .ok (e, p')) :
    entries (e.placements .other) = [] := by
  unfold nullPredicate at h
  split at h
  · obtain ⟨rfl, -⟩ := run_pure_eq_ok.mp h
    rw [hpredicate]
    rfl
  · exact absurd h Sql.run_throw_ne_ok

theorem entries_compileConditionPredicate
    (h : (compileConditionPredicate (c.property.column source) c).run p = .ok (e, p')) :
    entries (e.placements .other) = c.asked source := by
  have hcolumn : (c.property.column source).placements .other = [] := placements_column _ _
  unfold compileConditionPredicate at h
  unfold Condition.asked
  cases hop : c.op with
  | contains | startsWith =>
    rw [hop] at h
    obtain ⟨s, hvalue, hentries⟩ := entries_literalPredicate hcolumn h
    simpa only [hvalue, String.empty_append] using hentries
  | isIn =>
    rw [hop] at h
    obtain ⟨values, hvalue, hentries⟩ := entries_inPredicate hcolumn h
    simpa only [hvalue] using hentries
  | isNotNull =>
    rw [hop] at h
    have hnull : (c.property.column source).isNotNull.placements .other = [] := hcolumn
    exact entries_nullPredicate hnull h
  | isNull =>
    rw [hop] at h
    have hnull : (c.property.column source).isNull.placements .other = [] := hcolumn
    exact entries_nullPredicate hnull h
  | like =>
    rw [hop] at h
    obtain ⟨v, p₁, hv, h⟩ := run_bind_eq_ok.mp h
    obtain ⟨hscalar, rfl⟩ := run_lift_eq_ok.mp hv
    obtain ⟨param, p₂, hparam, h⟩ := run_bind_eq_ok.mp h
    obtain ⟨rfl, -⟩ := run_pure_eq_ok.mp h
    obtain rfl := eq_scalar_of_scalarValue hscalar
    rw [entries_like hcolumn, placements_collate]
    exact entries_push _ hparam
  | eq | neq | gt | lt | gte | lte =>
    rw [hop] at h
    exact entries_comparisonPredicate hcolumn h

/-- Two parts of a condition, where there are two, from left to right. -/
theorem entries_combine {join : Expr → Expr → Expr} {l r : Option Expr}
    (hjoin : ∀ l r, (join l r).placements .other = l.placements .other ++ r.placements .other) :
    entries (placementsOf (combine join l r).toList) =
      entries (placementsOf l.toList) ++ entries (placementsOf r.toList) := by
  cases l with
  | none => cases r <;> simp [combine]
  | some l => cases r <;> simp [combine, hjoin]

theorem entries_compileWhereExpr {vars : Variables} {sources : String → String} {w : WhereExpr}
    {o : Option Expr}
    (hsources : ∀ var source kind, vars.lookup var = some (source, kind) → sources var = source)
    (h : (compileWhereExpr tables vars w).run p = .ok (o, p')) :
    entries (placementsOf o.toList) = w.conditions.flatMap fun c ↦ c.asked (sources c.var) := by
  induction w generalizing p p' o with
  | true =>
    obtain ⟨rfl, -⟩ := run_pure_eq_ok.mp h
    rfl
  | condition c =>
    obtain ⟨e, p₁, he, h⟩ := run_bind_eq_ok.mp h
    obtain ⟨rfl, -⟩ := run_pure_eq_ok.mp h
    unfold compileSingleCondition at he
    split at he
    · exact absurd he Sql.run_throw_ne_ok
    · rename_i source kind hlookup
      obtain ⟨column, p₂, hlift, he⟩ := run_bind_eq_ok.mp he
      obtain ⟨hcolumn, rfl⟩ := run_lift_eq_ok.mp hlift
      obtain rfl := eq_column_of_wherePropertyExpression hcolumn
      simp only [Option.toList_some, Sql.placementsOf_cons, Sql.placementsOf_nil, List.append_nil,
        WhereExpr.conditions, List.flatMap_cons, List.flatMap_nil, hsources _ _ _ hlookup,
        entries_compileConditionPredicate he]
  | and l r ihl ihr | or l r ihl ihr =>
    obtain ⟨el, p₁, hl, h⟩ := run_bind_eq_ok.mp h
    obtain ⟨er, p₂, hr, h⟩ := run_bind_eq_ok.mp h
    obtain ⟨rfl, -⟩ := run_pure_eq_ok.mp h
    rw [entries_combine fun _ _ ↦ rfl, ihl hl, ihr hr, WhereExpr.conditions, List.flatMap_append]

end Conditions

/-! ## Conditions on the ends of a path -/

section Endpoints

variable {tables : CharTables} {start stop : Option String} {p p' : List Value}

/-- What a condition on one of the ends asks for. -/
def endpointAsked (start : Option String) (c : Condition) : Asked :=
  c.asked (if onStart start c then "s" else "r")

/-- What the conditions on a side ask for. -/
def sideAsked (start : Option String) (side : Bool) (w : WhereExpr) : Asked :=
  (w.conditions.filter fun c ↦ onStart start c == side).flatMap (endpointAsked start)

theorem entries_compileVarLenCondition {c : Condition} {e : Expr × Bool}
    (h : (compileVarLenCondition tables start stop c).run p = .ok (e, p')) :
    entries (e.1.placements .other) = endpointAsked start c := by
  have hside : onStart start c = e.2 := (compileVarLenCondition_eq_ok h).2.1
  rw [endpointAsked, hside]
  unfold compileVarLenCondition at h
  split_ifs at h
  · obtain ⟨column, p₁, hlift, h⟩ := run_bind_eq_ok.mp h
    obtain ⟨hcolumn, rfl⟩ := run_lift_eq_ok.mp hlift
    obtain ⟨e', p₂, he, h⟩ := run_bind_eq_ok.mp h
    obtain ⟨rfl, -⟩ := run_pure_eq_ok.mp h
    obtain rfl := eq_column_of_wherePropertyExpression hcolumn
    exact entries_compileConditionPredicate he
  · obtain ⟨column, p₁, hlift, h⟩ := run_bind_eq_ok.mp h
    obtain ⟨hcolumn, rfl⟩ := run_lift_eq_ok.mp hlift
    obtain ⟨e', p₂, he, h⟩ := run_bind_eq_ok.mp h
    obtain ⟨rfl, -⟩ := run_pure_eq_ok.mp h
    obtain rfl := eq_column_of_wherePropertyExpression hcolumn
    exact entries_compileConditionPredicate he
  · exact absurd h Sql.run_throw_ne_ok

theorem entries_compileVariableLengthWhereToSql {w : WhereExpr} {x : Option (Expr × Bool)}
    (h : (compileVariableLengthWhereToSql tables start stop w).run p = .ok (x, p')) :
    entries (placementsOf (x.map Prod.fst).toList) = w.conditions.flatMap (endpointAsked start) := by
  induction w generalizing p p' x with
  | true =>
    obtain ⟨rfl, -⟩ := run_pure_eq_ok.mp h
    rfl
  | condition c =>
    obtain ⟨e, p₁, he, h⟩ := run_bind_eq_ok.mp h
    obtain ⟨rfl, -⟩ := run_pure_eq_ok.mp h
    simp only [Option.map_some, Option.toList_some, Sql.placementsOf_cons, Sql.placementsOf_nil,
      List.append_nil, WhereExpr.conditions, List.flatMap_cons, List.flatMap_nil,
      entries_compileVarLenCondition he]
  | and l r ihl ihr | or l r ihl ihr =>
    obtain ⟨xl, p₁, hl, h⟩ := run_bind_eq_ok.mp h
    obtain ⟨xr, p₂, hr, h⟩ := run_bind_eq_ok.mp h
    obtain ⟨rfl, -⟩ := run_pure_eq_ok.mp h
    rw [map_fst_combineEndpoint, entries_combine fun _ _ ↦ rfl, ihl hl, ihr hr,
      WhereExpr.conditions, List.flatMap_append]

/-- A tree on one side asks there for all it asks for. -/
theorem sideAsked_of_onSide {w : WhereExpr} {side : Bool} (h : OnSide start side w) (other : Bool) :
    sideAsked start other w =
      if side = other then w.conditions.flatMap (endpointAsked start) else [] := by
  rw [sideAsked]
  split_ifs with hside
  · rw [List.filter_eq_self.mpr fun c hc ↦ beq_iff_eq.mpr ((h c hc).trans hside)]
  · rw [List.filter_eq_nil_iff.mpr fun c hc heq ↦ hside ((h c hc).symm.trans (beq_iff_eq.mp heq))]
    rfl

theorem entries_compileVariableLengthWhere {w : WhereExpr} {r : Routed}
    (haccepted : rejectOrSpanning start stop w = .ok ())
    (h : (compileVariableLengthWhere tables start stop w).run p = .ok (r, p')) :
    entries (placementsOf r.start) = sideAsked start true w ∧
      entries (placementsOf r.stop) = sideAsked start false w := by
  induction w generalizing p p' r with
  | true =>
    obtain ⟨rfl, -⟩ := run_pure_eq_ok.mp h
    exact ⟨rfl, rfl⟩
  | condition c =>
    obtain ⟨⟨e, side⟩, p₁, he, h⟩ := run_bind_eq_ok.mp h
    obtain ⟨rfl, -⟩ := run_pure_eq_ok.mp h
    have hside : OnSide start side (.condition c) :=
      List.forall_mem_singleton.mpr (compileVarLenCondition_eq_ok he).2.1
    rw [sideAsked_of_onSide hside, sideAsked_of_onSide hside]
    have hentries := entries_compileVarLenCondition he
    cases side with
    | true | false => simpa [Routed.of, WhereExpr.conditions] using hentries
  | and l r ihl ihr =>
    obtain ⟨hl, hr⟩ := seq_eq_ok.mp haccepted
    obtain ⟨rl, p₁, hrl, h⟩ := run_bind_eq_ok.mp h
    obtain ⟨rr, p₂, hrr, h⟩ := run_bind_eq_ok.mp h
    obtain ⟨rfl, -⟩ := run_pure_eq_ok.mp h
    obtain ⟨hstartl, hstopl⟩ := ihl hl hrl
    obtain ⟨hstartr, hstopr⟩ := ihr hr hrr
    simp only [Sql.placementsOf_append, Sql.entries_append, hstartl, hstopl, hstartr, hstopr,
      sideAsked, WhereExpr.conditions, List.filter_append, List.flatMap_append, and_self]
  | or l r ihl ihr =>
    obtain ⟨xl, p₁, hl, h⟩ := run_bind_eq_ok.mp h
    obtain ⟨xr, p₂, hr, h⟩ := run_bind_eq_ok.mp h
    obtain ⟨rfl, -⟩ := run_pure_eq_ok.mp h
    have hpiece : (compileVariableLengthWhereToSql tables start stop (.or l r)).run p =
        .ok (combineEndpoint (fun l r ↦ .paren (.or l r)) xl xr, p₂) :=
      run_bind_eq_ok.mpr ⟨xl, p₁, hl, run_bind_eq_ok.mpr
        ⟨xr, p₂, hr, run_pure_eq_ok.mpr ⟨rfl, rfl⟩⟩⟩
    obtain ⟨-, hstop, hside⟩ := carries_compileVariableLengthWhereToSql hpiece
    have hentries := entries_compileVariableLengthWhereToSql hpiece
    cases hpieces : combineEndpoint (fun l r ↦ .paren (.or l r)) xl xr with
    | none =>
      -- nothing is asked, so nothing is asked on either side
      rw [hpieces] at hentries
      have hnone : ∀ side, sideAsked start side (.or l r) = [] := fun side ↦
        List.flatMap_eq_nil_iff.mpr fun c hc ↦
          List.flatMap_eq_nil_iff.mp hentries.symm c (List.mem_of_mem_filter hc)
      exact ⟨(hnone true).symm, (hnone false).symm⟩
    | some piece =>
      obtain ⟨e, side⟩ := piece
      rw [hpieces] at hentries hside
      have honSide := onSide_of_accepted (not_spans_of_accepted haccepted) hstop (hside side rfl)
      rw [sideAsked_of_onSide honSide, sideAsked_of_onSide honSide, ← hentries]
      cases side with
      | true | false => exact ⟨rfl, rfl⟩

/-- The conditions on the start are on the row `s`, those on the end on the row `r`. -/
theorem sideAsked_eq (start : Option String) (w : WhereExpr) :
    sideAsked start true w =
        (w.conditions.filter fun c ↦ start == some c.var).flatMap (Condition.asked "s") ∧
      sideAsked start false w =
        (w.conditions.filter fun c ↦ start != some c.var).flatMap (Condition.asked "r") := by
  have hasked : ∀ side c, onStart start c = side →
      endpointAsked start c = c.asked (if side then "s" else "r") := by
    rintro side c rfl
    rfl
  constructor
  · have hfilter : (fun c ↦ onStart start c == true) = fun c ↦ start == some c.var :=
      funext fun c ↦ beq_true _
    rw [sideAsked, hfilter]
    exact List.flatMap_congr fun c hc ↦ hasked true c (List.of_mem_filter hc)
  · have hfilter : (fun c ↦ onStart start c == false) = fun c ↦ start != some c.var :=
      funext fun c ↦ beq_false _
    rw [sideAsked, hfilter]
    refine List.flatMap_congr fun c hc ↦ hasked false c ?_
    simpa [onStart] using List.of_mem_filter hc

end Endpoints

/-! ## Statements -/

section Statements

variable {tables : CharTables} {v : GqlQuery} {opts : CompileOptions}
  {scope : Option QueryMailboxScope} {sql : Statement} {p p' params : List Value}

theorem value_boundInteger {n : UInt64} {message : String} {placeholder : Sql.Placeholder}
    (h : (boundInteger n message).run p = .ok (placeholder, p')) :
    placeholder.value = .integer n.toInt64 := by
  unfold boundInteger at h
  split at h
  · obtain ⟨rfl, -⟩ := Sql.run_pushPlaceholder_eq_ok.mp h
    rfl
  · exact absurd h Sql.run_throw_ne_ok

theorem entries_bindPage {offset limit : Sql.Placeholder} {check : Option TruncationCheck}
    (h : (bindPage v opts).run p = .ok ((offset, limit, check), p')) :
    entries [⟨.limit, limit.index, limit.value⟩, ⟨.offset, offset.index, offset.value⟩] =
      v.pageAsked opts := by
  obtain ⟨offset', p₁, hoffset, h⟩ := run_bind_eq_ok.mp h
  obtain ⟨limit', p₂, hlimit, h⟩ := run_bind_eq_ok.mp h
  obtain ⟨heq, rfl⟩ := run_pure_eq_ok.mp h
  simp only [Prod.mk.injEq] at heq
  obtain ⟨rfl, rfl, -⟩ := heq
  have hvalue : limit'.value =
      .integer (effectiveLimit v.limit v.offset opts.maxLimit).1.toInt64 :=
    value_boundInteger hlimit
  rw [GqlQuery.pageAsked, ← value_boundInteger hoffset, ← hvalue]
  rfl

/-- The actor that the mailbox is bound to. -/
def actorOfScope (scope : Option QueryMailboxScope) : Option Value :=
  scope.map fun scope ↦ .text scope.actorId

/-- Columns of the result have no placeholders. -/
theorem placements_columns {columns : List (List (String × Expr))}
    (h : ∀ list ∈ columns, ∀ column ∈ list, column.2.placements .other = []) :
    placementsOf (columns.flatten.map Prod.snd) = [] := by
  refine List.flatMap_eq_nil_iff.mpr fun e he ↦ ?_
  obtain ⟨column, hcolumn, rfl⟩ := List.mem_map.mp he
  obtain ⟨list, hlist, hcolumn⟩ := List.mem_flatten.mp hcolumn
  exact h list hlist column hcolumn

theorem placements_returnColumns {vars : Variables} {item : ReturnItem}
    {columns : List (String × Expr)} (h : returnColumns vars item = .ok columns) :
    ∀ column ∈ columns, column.2.placements .other = [] := by
  unfold returnColumns at h
  split at h
  · exact absurd h throw_ne_ok
  split at h
  · obtain ⟨column, -, h⟩ := bind_eq_ok.mp h
    obtain rfl := pure_eq_ok.mp h
    exact List.forall_mem_singleton.mpr rfl
  · obtain rfl := pure_eq_ok.mp h
    exact List.forall_mem_map.mpr fun _ _ ↦ rfl

theorem placements_variableLengthColumns {vars : Variables} {start : Option String}
    {item : ReturnItem} {columns : List (String × Expr)} {isStart : Bool}
    (h : variableLengthColumns vars start item = .ok (columns, isStart)) :
    ∀ column ∈ columns, column.2.placements .other = [] := by
  unfold variableLengthColumns at h
  split at h
  case h_1 | h_2 | h_3 => exact absurd h throw_ne_ok
  case h_4 =>
    split at h
    · obtain ⟨column, -, h⟩ := bind_eq_ok.mp h
      obtain ⟨rfl, -⟩ := Prod.mk.inj (pure_eq_ok.mp h)
      exact List.forall_mem_singleton.mpr rfl
    · obtain ⟨rfl, -⟩ := Prod.mk.inj (pure_eq_ok.mp h)
      exact List.forall_mem_map.mpr fun _ _ ↦ rfl
  case h_5 =>
    split at h
    · split at h
      · obtain ⟨rfl, -⟩ := Prod.mk.inj (pure_eq_ok.mp h)
        exact List.forall_mem_singleton.mpr rfl
      · exact absurd h throw_ne_ok
    · obtain ⟨rfl, -⟩ := Prod.mk.inj (pure_eq_ok.mp h)
      exact List.forall_mem_map.mpr fun _ _ ↦ rfl

/-- **A chain of joins** binds what the query asks for, in the order of the text. -/
theorem FixedRun.entries_placements (run : FixedRun tables v opts scope sql params)
    (helements : Alternating v.elements) :
    entries sql.placements = v.chainStatementAsked opts (actorOfScope scope) := by
  have hactor := actorOf_bindMailbox run.bindMailbox
  have hall := asksAll_lowerChain helements run.elements
  have hwhere := entries_compileWhereExpr
    (fun _ _ _ hlookup ↦ lookup_variablesOf hall.bindings hlookup) run.whereClause
  have hitems : placementsOf (run.items.flatten.map Prod.snd) = [] :=
    placements_columns fun list hlist ↦ by
      obtain ⟨item, -, hitem⟩ := exists_of_mem_mapM run.returnItems hlist
      exact placements_returnColumns hitem
  have hpage := entries_bindPage run.bindPage
  rw [run.statement]
  simp only [fixedStatement, Statement.placements, Sql.Select.placements, Option.map_none,
    Option.getD_none, List.nil_append, hitems, Sql.placementsOf_append, Sql.entries_append,
    hall.sources, hall.conditions, hwhere, hpage, if_true, hactor, GqlQuery.chainStatementAsked,
    sourcesAsked, actorOfScope, List.append_assoc]

/-- An edge of a path with the node behind it, from a column. -/
theorem entries_pathStep {mailbox : Option MailboxLowering} {direction : EdgeDirection}
    {filters : PathFilters} {kind : Sql.JoinKind} {source name : String} :
    entries ((pathStep mailbox direction filters kind (.column source name)).flatMap
        FromItem.placements) =
      endpointsAsked (actorOf mailbox) ++ entries (placementsOf filters.edgeScope) ++
        entries (placementsOf filters.relations) ++ entries (placementsOf filters.nextScope) := by
  simp only [pathStep, List.flatMap_cons, List.flatMap_nil, FromItem.placements,
    Sql.Source.placements_table, Sql.placementsOf_append, Sql.placementsOf_cons,
    Sql.placementsOf_nil, Expr.placements, placements_edgeJoin, placements_edgeNext,
    List.append_nil, List.nil_append, Sql.entries_append, entries_edgeSource, List.append_assoc]

theorem entries_seed {mailbox : Option MailboxLowering} {direction : EdgeDirection}
    {filters : PathFilters} :
    entries (seed mailbox direction filters).placements =
      entries ((pathStep mailbox direction filters .inner (.column "s" "id")).flatMap
        FromItem.placements) ++ entries (placementsOf filters.start) := by
  have hitems : placementsOf ((seed mailbox direction filters).items.map Prod.snd) = [] := by
    cases direction <;> rfl
  rw [Sql.Select.placements, hitems, List.nil_append, Sql.entries_append]
  rfl

theorem entries_step {mailbox : Option MailboxLowering} {direction : EdgeDirection}
    {filters : PathFilters} :
    entries (step mailbox direction filters).placements =
      entries ((pathStep mailbox direction filters .cross (.column "t" "current_id")).flatMap
        FromItem.placements) ++
          entries (filters.depth.placements (.comparison .lt (.column "t" "depth"))) := by
  have hitems : placementsOf ((step mailbox direction filters).items.map Prod.snd) = [] := by
    cases direction <;> rfl
  have hunvisited : (unvisited direction).placements .other = [] := by
    cases direction <;> rfl
  rw [Sql.Select.placements, hitems, List.nil_append, Sql.entries_append]
  simp only [step, Sql.placementsOf_cons, Sql.placementsOf_nil, hunvisited, List.append_nil]
  rfl

theorem entries_minimumDepth {hops : Nat} {es : List Expr}
    (h : (minimumDepth hops).run p = .ok (es, p')) :
    entries (placementsOf es) =
      if hops > 0 then
        [(.comparison .ge (.column "t" "depth"), .integer (Int64.ofNat hops))] else [] := by
  unfold minimumDepth at h
  split at h
  · rename_i hpos
    obtain ⟨param, p₁, hparam, h⟩ := run_bind_eq_ok.mp h
    obtain ⟨rfl, -⟩ := run_pure_eq_ok.mp h
    rw [if_pos hpos, Sql.placementsOf_cons, Sql.placementsOf_nil, List.append_nil,
      entries_compare rfl]
    exact entries_push _ hparam
  · rename_i hpos
    obtain ⟨rfl, -⟩ := run_pure_eq_ok.mp h
    rw [if_neg hpos]
    rfl

theorem entries_pathStatement {mailbox : Option MailboxLowering} {direction : EdgeDirection}
    {filters : PathFilters} {returned : List (List (String × Expr) × Bool)}
    {conditions : List Expr} {limit offset : Sql.Placeholder}
    (hreturned : ∀ item ∈ returned, ∀ column ∈ item.1, column.2.placements .other = []) :
    entries (pathStatement mailbox direction filters returned conditions limit offset).placements =
      unionAsked (actorOf mailbox) ++ entries (seed mailbox direction filters).placements ++
        entries (step mailbox direction filters).placements ++ entries (placementsOf conditions) ++
          entries [⟨.limit, limit.index, limit.value⟩, ⟨.offset, offset.index, offset.value⟩] := by
  have hcolumns : placementsOf ((returned.flatMap Prod.fst).map Prod.snd) = [] := by
    rw [List.flatMap_def]
    exact placements_columns (List.forall_mem_map.mpr hreturned)
  have hends : placementsOf ([("_depth", Expr.column "t" "depth"),
      ("_total_weight", .column "t" "total_weight")].map Prod.snd) = [] := rfl
  have houter : ∀ hasStart, (outerSources hasStart).flatMap FromItem.placements = [] := by
    intro hasStart
    cases hasStart <;> rfl
  simp only [pathStatement, Statement.placements, Sql.WithClause.placements, Sql.Select.placements,
    Option.map_some, Option.getD_some, List.map_append, Sql.placementsOf_append, hcolumns, hends,
    houter, List.nil_append, List.append_nil, Sql.entries_append, entries_primaryNodes,
    List.append_assoc]

/-- **A recursive table** binds what the query asks for, in the order of the text. -/
theorem PathRun.entries_placements (run : PathRun tables v opts scope sql params) :
    entries sql.placements =
      v.pathStatementAsked opts (actorOfScope scope) run.start run.edge run.stop := by
  have hactor : actorOf run.mailbox = actorOfScope scope := actorOf_bindMailbox run.bindMailbox
  have hstart : entries (placementsOf run.startConditions) =
      NodeRole.primary.asked opts "s" run.start := entries_roleConditions run.bindStart
  have hrelations := entries_oneOf rfl run.bindRelations
  have hedgeScope := entries_namespaceFilter run.bindEdgeScope
  have hnextScope := entries_namespaceFilter run.bindNextScope
  have hdepth := entries_push (.comparison .lt (.column "t" "depth")) run.bindDepth
  have hstop : entries (placementsOf run.stopConditions) =
      NodeRole.primary.asked opts "r" run.stop := entries_roleConditions run.bindStop
  obtain ⟨honStart, honStop⟩ := entries_compileVariableLengthWhere run.accepted run.whereClause
  obtain ⟨hsideStart, hsideStop⟩ := sideAsked_eq run.start.var v.whereClause
  have hminimum := entries_minimumDepth run.bindMinimum
  have hpage := entries_bindPage run.bindPage
  have hreturned : ∀ item ∈ run.returned, ∀ column ∈ item.1, column.2.placements .other = [] := by
    intro item hitem
    obtain ⟨_, -, hcolumns⟩ := exists_of_mem_mapM run.returnItems hitem
    exact placements_variableLengthColumns hcolumns
  refine (congrArg (fun s ↦ entries s.placements) run.statement).trans ?_
  simp only [entries_pathStatement hreturned, entries_seed, entries_step, entries_pathStep,
    Sql.placementsOf_append, Sql.entries_append, hactor, hstart, hrelations, hedgeScope,
    hnextScope, hdepth, hstop, honStart, honStop, hsideStart, hsideStop, hminimum, hpage,
    GqlQuery.pathStatementAsked, GqlQuery.pathStepAsked, List.append_assoc]

end Statements

/-- **What a compiled query binds**: its placeholders, in the order of the text, have the values
that the query asks for. -/
theorem entries_placements {tables : CharTables} {q : GqlQuery} {opts : CompileOptions}
    {scope : Option QueryMailboxScope} {c : CompiledQuery}
    (h : compileScoped tables q opts scope = .ok c) :
    entries c.sql.placements = q.stored.asked opts (actorOfScope scope) := by
  obtain ⟨v, hvalidate, hv, ⟨hlength, ⟨run⟩⟩ | ⟨hlength, ⟨run⟩⟩⟩ := exists_run h
  · rw [← validate_eq_stored hvalidate, GqlQuery.asked, hlength]
    exact run.entries_placements (hv.alternating.of_same hv.elements)
  · rw [← validate_eq_stored hvalidate, GqlQuery.asked, hlength, run.elements]
    exact run.entries_placements

end Query

end Khive
