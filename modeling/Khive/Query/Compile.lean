import Khive.Foundation.Binding
import Khive.Query.Ast
import Khive.Query.Mailbox
import Khive.Request.Scan

/-!
# The query compiler

A fixed pattern becomes a chain of joins: a node is a row of one of the unions, an edge a row of
`graph_edges`, and an edge `observed_as_*` a row of `event_observations` between an event and what it
observed. One edge of variable length becomes a recursive table of paths. Every value of the query
is appended to the parameters when it comes up.

The loop over the pattern returns what each element adds: sources, conditions, order and the
variable it binds.
-/

namespace Khive

namespace Query

open Sql (Expr Operand Value Binder push pushOperand pushPlaceholder oneOf Item Member Source FromItem
  Select OrderTerm Placeholder RecursiveTable WithClause Statement)

/-! ## Options and results -/

structure CompileOptions where
  /-- Namespaces; none means all of them. -/
  scopes : List String
  maxLimit : UInt64

structure TruncationCheck where
  maxLimit : UInt64
  requestedLimit : Option UInt64
  deriving DecidableEq

structure CompiledQuery where
  sql : Statement
  params : List Value
  returnVars : List ReturnItem
  truncationCheck : Option TruncationCheck

abbrev Compile := Binder QueryError

/-- `max_limit.saturating_add(1)`. -/
def oneMore (n : UInt64) : UInt64 := if n.toNat + 1 < 2 ^ 64 then n + 1 else n

/-- `effective_limit`: an explicit limit is a bound across all pages. -/
def effectiveLimit (requested : Option UInt64) (offset maxLimit : UInt64) :
    UInt64 × Option TruncationCheck :=
  match requested with
  | some limit =>
    let remaining := if offset ≤ limit then limit - offset else 0
    if remaining ≤ maxLimit then (remaining, none)
    else (oneMore maxLimit, some ⟨maxLimit, some limit⟩)
  | none => (oneMore maxLimit, some ⟨maxLimit, none⟩)

/-! ## Sources -/

/-- `primary_node_sql`. -/
def primaryNodes (mailbox : Option MailboxLowering) : List Member :=
  [{ items := [.column "id", .column "namespace", .column "kind", .column "entity_type",
      .column "name", .column "description", .null "content", .null "status", .null "salience",
      .null "decay_factor", .column "properties", .column "created_at", .column "updated_at",
      .column "deleted_at", .text "entity" "substrate_kind"]
     table := "entities"
     filter := none },
   { items := [.column "id", .column "namespace", .column "kind", .null "entity_type",
      .column "name", .null "description", .column "content", .column "status", .column "salience",
      .column "decay_factor", .column "properties", .column "created_at", .column "updated_at",
      .column "deleted_at", .text "note" "substrate_kind"]
     table := "notes"
     filter := mailbox.map fun scope ↦ scope.noteFilter "notes" },
   { items := [.column "id", .column "namespace", .column "kind", .null "entity_type",
      .renamed "verb" "name", .null "description", .null "content", .null "status",
      .null "salience", .null "decay_factor", .renamed "payload" "properties",
      .column "created_at", .renamed "created_at" "updated_at", .null "deleted_at",
      .text "event" "substrate_kind"]
     table := "events"
     filter := none },
   { items := [.column "id", .column "namespace", .renamed "relation" "kind", .null "entity_type",
      .null "name", .null "description", .null "content", .null "status", .null "salience",
      .null "decay_factor", .renamed "metadata" "properties", .column "created_at",
      .column "updated_at", .column "deleted_at", .text "edge" "substrate_kind"]
     table := "graph_edges"
     filter := mailbox.map fun scope ↦ scope.edgeFilter "graph_edges" }]

/-- `observation_target_sql`. -/
def observationTargets (mailbox : Option MailboxLowering) : List Member :=
  [{ items := [.column "id", .column "namespace", .column "kind", .column "entity_type",
      .column "name", .column "description", .null "content", .null "status", .null "salience",
      .null "decay_factor", .column "properties", .column "created_at", .column "updated_at",
      .column "deleted_at", .text "entity" "referent_kind"]
     table := "entities"
     filter := none },
   { items := [.column "id", .column "namespace", .column "kind", .null "entity_type",
      .column "name", .null "description", .column "content", .column "status", .column "salience",
      .column "decay_factor", .column "properties", .column "created_at", .column "updated_at",
      .column "deleted_at", .text "note" "referent_kind"]
     table := "notes"
     filter := mailbox.map fun scope ↦ scope.noteFilter "notes" }]

/-- `edge_source`. -/
def edgeSource : Option MailboxLowering → Source
  | some scope => .filtered "graph_edges" (scope.edgeFilter "graph_edges")
  | none => .table "graph_edges"

/-! ## Values and filters -/

def nonFiniteMessage : String :=
  "non-finite float (NaN or Infinity) is not a valid query parameter"

/-- The parameter for a scalar literal. -/
def scalarValue (refusal : QueryError) : ConditionValue → Except QueryError Value
  | .string s => pure (.text s)
  | .integer n => pure (.integer n)
  | .number x => if x.isFinite then pure (.real x) else throw (.invalidInput nonFiniteMessage)
  | .bool b => pure (.integer (if b then 1 else 0))
  | .list _ | .null => throw refusal

def ConditionValue.isString : ConditionValue → Bool
  | string _ => true
  | _ => false

/-- ` COLLATE NOCASE`, for strings. -/
def collate (nocase : Bool) (e : Expr) : Expr := if nocase then .collateNocase e else e

/-- `namespace_filter`. -/
def namespaceFilter (opts : CompileOptions) (source : String) : Compile (List Expr) :=
  oneOf (.column source "namespace") (opts.scopes.map .text)

/-- `{source}.{column} = ?`. -/
def columnEquals (source column s : String) : Compile Expr := do
  let p ← push (.text s)
  return .compare .eq (.column source column) p

/-- `kind_filter_predicate`. -/
def kindFilterPredicate (source kind : String) : Compile Expr :=
  if kind ∈ ["entity", "note", "event", "edge"] then columnEquals source "substrate_kind" kind
  else columnEquals source "kind" kind

/-- `observation_kind_filter_predicate`. -/
def observationKindFilterPredicate (source kind : String) : Compile Expr :=
  if kind ∈ ["entity", "note"] then columnEquals source "referent_kind" kind
  else columnEquals source "kind" kind

/-- `compile_property_equality`. -/
def compilePropertyEquality (source key : String) (value : ConditionValue)
    (textColumn : Option String) : Compile Expr := do
  let v ← liftM (scalarValue
    (.validation "list and null operands are not valid in inline property maps") value)
  let p ← push v
  let column := match textColumn with
    | some col => Expr.column source col
    | none => .jsonExtract (.column source "properties") ("$." ++ key)
  return .compare .eq column (collate value.isString p)

/-- The properties in the order of their keys. -/
def NodePattern.sortedProperties (np : NodePattern) : List (String × ConditionValue) :=
  np.properties.insertionSort fun a b ↦ a.1 ≤ b.1

/-- The conditions on a row of a union: it is not deleted and in scope, and it is what the pattern
says. -/
def nodeConditions (opts : CompileOptions) (source : String) (kindFilter : String → Compile Expr)
    (textColumns : List String) (np : NodePattern) : Compile (List Expr) := do
  let scope ← namespaceFilter opts source
  let kind ← np.kind.toList.mapM kindFilter
  let entityType ← np.entityType.toList.mapM (columnEquals source "entity_type")
  let properties ← np.sortedProperties.mapM fun (key, value) ↦
    compilePropertyEquality source key value (if key ∈ textColumns then some key else none)
  return .isNull (.column source "deleted_at") :: (scope ++ kind ++ entityType ++ properties)

/-- The conditions on an event; `event` itself needs none. -/
def eventConditions (opts : CompileOptions) (source : String) (np : NodePattern) :
    Compile (List Expr) := do
  let scope ← namespaceFilter opts source
  let kind ← (np.kind.toList.filter (· ≠ "event")).mapM (columnEquals source "kind")
  if np.entityType.isSome then
    throw (.compile "event nodes do not have an entity_type column")
  if !np.properties.isEmpty then
    throw (.compile ("event nodes do not support inline property filters; " ++
      "use a WHERE clause on verb, outcome, or payload fields"))
  return scope ++ kind

/-! ## The chain of joins -/

inductive VarKind where
  | node
  | eventNode
  | observationTargetNode
  | edge
  deriving DecidableEq

/-- `synthetic_endpoint_node_indices`: the nodes before and behind an edge `observed_as_*`. -/
def syntheticEndpointNodeIndices : Nat → Option Nat → List PatternElement → List Nat × List Nat
  | _, _, [] => ([], [])
  | index, _, .node _ :: rest => syntheticEndpointNodeIndices (index + 1) (some index) rest
  | index, prev, .edge e :: rest =>
    let (sources, targets) := syntheticEndpointNodeIndices index prev rest
    match e.hasSynthetic, prev with
    | true, some source => (source :: sources, index :: targets)
    | _, _ => (sources, targets)

def nodeAlias (index : Nat) : String := "n" ++ index.repr

def edgeAlias (index : Nat) : String := "e" ++ index.repr

/-- What an element of the pattern adds to the statement. -/
structure Fragment where
  sources : List FromItem
  conditions : List Expr
  order : List OrderTerm
  binding : Option (String × String × VarKind)

/-- The part of a node: the event of an observation, its target, or neither. -/
inductive NodeRole where
  | eventSource
  | observationTarget
  | primary
  deriving DecidableEq

namespace NodeRole

def varKind : NodeRole → VarKind
  | eventSource => .eventNode
  | observationTarget => .observationTargetNode
  | primary => .node

/-- Identities are ordered behind the discriminator of their union. -/
def order (source : String) : NodeRole → List OrderTerm
  | eventSource => [.column source "id"]
  | observationTarget => [.column source "referent_kind", .column source "id"]
  | primary => [.column source "substrate_kind", .column source "id"]

/-- What the first node is read from; later ones are joined by the edge before them. -/
def first (mailbox : Option MailboxLowering) (source : String) : NodeRole → List FromItem
  | eventSource => [⟨.table "events", source, .inner, []⟩]
  | observationTarget => []
  | primary => [⟨.union (primaryNodes mailbox), source, .inner, []⟩]

def conditions (opts : CompileOptions) (source : String) (np : NodePattern) :
    NodeRole → Compile (List Expr)
  | eventSource => eventConditions opts source np
  | observationTarget =>
    nodeConditions opts source (observationKindFilterPredicate source) ["name", "content"] np
  | primary => nodeConditions opts source (kindFilterPredicate source) ["name"] np

end NodeRole

/-- The two sets of `synthetic_endpoint_node_indices`. -/
structure Endpoints where
  events : List Nat
  targets : List Nat

def Endpoints.role (endpoints : Endpoints) (index : Nat) : NodeRole :=
  if index ∈ endpoints.events then .eventSource
  else if index ∈ endpoints.targets then .observationTarget
  else .primary

section Lower

variable (opts : CompileOptions) (mailbox : Option MailboxLowering)

def nodeFragment (role : NodeRole) (index : Nat) (np : NodePattern) (conditions : List Expr) :
    Fragment where
  sources := if index = 0 then role.first mailbox (nodeAlias index) else []
  conditions := conditions
  order := role.order (nodeAlias index)
  binding := np.var.map fun var ↦ (var, nodeAlias index, role.varKind)

def lowerNode (role : NodeRole) (index : Nat) (np : NodePattern) : Compile Fragment := do
  let conditions ← role.conditions opts (nodeAlias index) np
  return nodeFragment mailbox role index np conditions

/-- `synthetic_role`. -/
def syntheticRole (rel : String) : Option String :=
  if rel = "observed_as_candidate" then some "candidate"
  else if rel = "observed_as_selected" then some "selected"
  else if rel = "observed_as_target" then some "target"
  else if rel = "observed_as_signal" then some "signal"
  else none

/-- Which referents a role may have. -/
def roleMatrix (source : String) : Expr :=
  let role := Expr.column source "role"
  let referents := Expr.inList (.column source "referent_kind") [.text "entity", .text "note"]
  .paren (.or
    (.or (.paren (.and (.inList role [.text "candidate", .text "selected"]) referents))
      (.paren (.and (.compare .eq role (.text "target")) referents)))
    (.paren (.and (.compare .eq role (.text "signal")) referents)))

/-- An edge `observed_as_*` behind the event `prev`. -/
def syntheticFragment (source prev next : String) (ep : EdgePattern) (roles : List Expr) :
    Fragment where
  sources := [
    ⟨.table "event_observations", source, .inner,
      [.compare .eq (.column source "event_id") (.column prev "id")]⟩,
    ⟨.union (observationTargets mailbox), next, .inner,
      [.compare .eq (.column next "id") (.column source "entity_id"),
        .compare .eq (.column next "referent_kind") (.column source "referent_kind")]⟩]
  conditions := roles ++ [roleMatrix source]
  order := [.column source "event_id", .column source "role", .column source "position"]
  binding := ep.var.map fun var ↦ (var, source, .edge)

def lowerSynthetic (source prev next : String) (ep : EdgePattern) : Compile Fragment := do
  if ep.direction ≠ .out then
    throw (.compile "synthetic observed_as_* edges are always event → entity (outbound only)")
  let roles ← oneOf (.column source "role") ((ep.relations.filterMap syntheticRole).map .text)
  return syntheticFragment mailbox source prev next ep roles

/-- The edge starts, ends, or does either at the row before it. -/
def edgeJoin (direction : EdgeDirection) (source : String) (prev : Expr) : Expr :=
  let starts := Expr.compare .eq (.column source "source_id") prev
  let ends := Expr.compare .eq (.column source "target_id") prev
  match direction with
  | .out => starts
  | .into => ends
  | .both => .paren (.or starts ends)

/-- The other end of the edge. -/
def edgeNext (direction : EdgeDirection) (source : String) (prev : Expr) : Expr :=
  match direction with
  | .out => .column source "target_id"
  | .into => .column source "source_id"
  | .both => .caseWhen (.compare .eq (.column source "source_id") prev)
      (.column source "target_id") (.column source "source_id")

/-- An edge of the graph. -/
def canonicalFragment (source prev next : String) (ep : EdgePattern) (conditions : List Expr) :
    Fragment where
  sources := [
    ⟨edgeSource mailbox, source, .inner,
      [edgeJoin ep.direction source (.column prev "id"), .isNull (.column source "deleted_at")]⟩,
    ⟨.union (primaryNodes mailbox), next, .inner,
      [.compare .eq (.column next "id") (edgeNext ep.direction source (.column prev "id"))]⟩]
  conditions := conditions
  order := [.column source "id"]
  binding := ep.var.map fun var ↦ (var, source, .edge)

def lowerCanonical (source prev next : String) (ep : EdgePattern) : Compile Fragment := do
  let scope ← namespaceFilter opts source
  let relations ← oneOf (.column source "relation") (ep.relations.map .text)
  return canonicalFragment mailbox source prev next ep (scope ++ relations)

/-- The edge with this number, between the node before it and the one with the number `next`. -/
def lowerEdge (index next : Nat) (ep : EdgePattern) : Compile Fragment := do
  if ep.hasSynthetic && ep.relations.any (fun r ↦ !isSynthetic r) then
    throw (.compile ("cannot mix synthetic observed_as_* relations with canonical edge relations " ++
      "in a single edge pattern"))
  if ep.hasSynthetic then
    lowerSynthetic mailbox (edgeAlias index) (nodeAlias (next - 1)) (nodeAlias next) ep
  else lowerCanonical opts mailbox (edgeAlias index) (nodeAlias (next - 1)) (nodeAlias next) ep

/-- The loop over the pattern, with the numbers of the next node and the next edge. -/
def lowerElements (endpoints : Endpoints) :
    Nat → Nat → List PatternElement → Compile (List Fragment)
  | _, _, [] => pure []
  | nodeIndex, edgeIndex, .node np :: rest => do
    let fragment ← lowerNode opts mailbox (endpoints.role nodeIndex) nodeIndex np
    let fragments ← lowerElements endpoints (nodeIndex + 1) edgeIndex rest
    return fragment :: fragments
  | nodeIndex, edgeIndex, .edge ep :: rest => do
    let fragment ← lowerEdge opts mailbox edgeIndex nodeIndex ep
    let fragments ← lowerElements endpoints nodeIndex (edgeIndex + 1) rest
    return fragment :: fragments

end Lower

/-! ## Columns of variables -/

def nodeColumns : List String :=
  ["id", "name", "kind", "entity_type", "namespace", "description", "properties", "created_at",
    "updated_at"]

def observationTargetColumns : List String :=
  ["id", "namespace", "kind", "entity_type", "status", "name", "content", "salience",
    "decay_factor", "properties", "created_at", "updated_at", "referent_kind"]

def eventColumns : List String :=
  ["id", "namespace", "verb", "substrate", "actor", "kind", "outcome", "payload", "duration_us",
    "target_id", "session_id", "created_at"]

def edgeColumns : List String := ["id", "source_id", "target_id", "relation", "weight"]

def nodeWhereColumns : List String :=
  ["id", "name", "kind", "entity_type", "description", "created_at", "updated_at"]

def observationTargetWhereColumns : List String :=
  ["id", "kind", "entity_type", "status", "name", "content", "salience", "decay_factor",
    "created_at", "updated_at", "referent_kind"]

def eventWhereColumns : List String :=
  ["id", "verb", "substrate", "actor", "kind", "outcome", "payload", "duration_us", "target_id",
    "session_id", "created_at"]

def edgeWhereColumns : List String := ["relation", "weight"]

namespace VarKind

/-- `property_columns`. -/
def propertyColumns : VarKind → List String × String
  | node => (nodeColumns, "node")
  | observationTargetNode => (observationTargetColumns, "observation target")
  | eventNode => (eventColumns, "event")
  | edge => (edgeColumns, "edge")

/-- `where_property_columns`. -/
def wherePropertyColumns : VarKind → List String × String
  | node => (nodeWhereColumns, "node")
  | observationTargetNode => (observationTargetWhereColumns, "observation target")
  | eventNode => (eventWhereColumns, "event")
  | edge => (edgeWhereColumns, "edge")

/-- The columns of a whole variable, each with its name in the result. -/
def variableColumns : VarKind → List (String × String)
  | node => ["id", "namespace", "kind", "entity_type", "name", "properties", "created_at",
      "updated_at"].map fun column ↦ (column, column)
  | observationTargetNode => ["id", "namespace", "kind", "entity_type", "status", "content",
      "salience", "properties", "created_at", "updated_at", "referent_kind"].map
        fun column ↦ (column, column)
  | eventNode => ["id", "namespace", "verb", "substrate", "actor", "kind", "outcome", "payload",
      "created_at"].map fun column ↦ (column, column)
  | edge => [("id", "id"), ("source_id", "source"), ("target_id", "target"),
      ("relation", "relation"), ("weight", "weight")]

end VarKind

/-- `property_to_column`. -/
def propertyToColumn (prop : String) (kind : VarKind) : Except QueryError String :=
  let (valid, kindName) := kind.propertyColumns
  if prop ∈ valid then pure prop
  else throw (.compile ("unknown " ++ kindName ++ " property '" ++ prop ++
    "' in RETURN projection. Valid: " ++ ", ".intercalate valid))

/-- Variables with the source they are bound to, the latest binding first. -/
abbrev Variables := List (String × String × VarKind)

section Where

variable (tables : CharTables)

/-- Path segments are identifiers. -/
def isSegment (segment : String) : Bool :=
  !segment.isEmpty && segment.toList.all fun c ↦ tables.isAlphanumeric c || c == '_'

/-- `where_property_expression`. -/
def wherePropertyExpression (property : PropertyRef) (kind : VarKind) (source : String) :
    Except QueryError Expr :=
  let (valid, kindName) := kind.wherePropertyColumns
  match property with
  | .field field =>
    if field ∈ valid then pure (.column source field)
    else if field = "properties" then
      throw (.compile ("'properties' is reserved as the JSON path root in WHERE clauses; " ++
        "use 'properties.<path>'"))
    else throw (.compile ("unknown " ++ kindName ++ " field '" ++ field ++
      "' in WHERE clause. Valid fields: " ++ ", ".intercalate valid ++
      "; JSON properties must use 'properties.<path>'"))
  | .jsonPath path =>
    if "properties" ∉ kind.propertyColumns.1 then
      throw (.compile (kindName ++ " variables do not expose JSON properties in WHERE clauses. " ++
        "Valid fields: " ++ ", ".intercalate valid))
    else if path.isEmpty then
      throw (.compile "JSON property path cannot be empty; use 'properties.<path>'")
    else
      match path.find? fun segment ↦ !isSegment tables segment with
      | some segment => throw (.compile ("invalid JSON property path segment '" ++ segment ++
          "'; path segments must be identifiers"))
      | none => pure (.jsonExtract (.column source "properties") ("$." ++ ".".intercalate path))

/-- `escape_like_literal`. -/
def escapeLikeLiteral (s : String) : String :=
  String.ofList (s.toList.flatMap fun c ↦ if c ∈ ['\\', '%', '_'] then ['\\', c] else [c])

/-- `bind_condition_value`. -/
def bindConditionValue : ConditionValue → Except QueryError Value :=
  scalarValue (.validation "operator requires a scalar value")

/-- A case-insensitive match of a literal inside a pattern. -/
def literalPredicate (column : Expr) (c : Condition) (before : String) : Compile Expr :=
  match c.value with
  | .string s => do
    let p ← push (.text (before ++ escapeLikeLiteral s ++ "%"))
    return .like column (.collateNocase p) (some '\\')
  | _ => throw (.validation "CONTAINS and STARTS WITH require a string literal")

def inPredicate (column : Expr) (c : Condition) : Compile Expr :=
  match c.value with
  | .list [] => pure (.integer 0)
  | .list values => do
    let items ← values.mapM fun value ↦ do
      let v ← liftM (bindConditionValue value)
      pushOperand v
    return .inList (collate (values.any ConditionValue.isString) column) items
  | _ => throw (.validation "IN requires a list literal")

/-- An operator without a value. -/
def nullPredicate (predicate : Expr) (c : Condition) (message : String) : Compile Expr :=
  match c.value with
  | .null => pure predicate
  | _ => throw (.validation message)

def comparisonPredicate (op : Sql.Comparison) (column : Expr) (c : Condition) : Compile Expr := do
  let v ← liftM (bindConditionValue c.value)
  let p ← push v
  return .compare op column (collate (c.value.isString && op = .eq) p)

/-- `compile_condition_predicate`. -/
def compileConditionPredicate (column : Expr) (c : Condition) : Compile Expr :=
  match c.op with
  | .contains => literalPredicate column c "%"
  | .startsWith => literalPredicate column c ""
  | .isIn => inPredicate column c
  | .isNotNull => nullPredicate (.isNotNull column) c "IS NOT NULL does not accept a value"
  | .isNull => nullPredicate (.isNull column) c "IS NULL does not accept a value"
  | .eq => comparisonPredicate .eq column c
  | .neq => comparisonPredicate .ne column c
  | .gt => comparisonPredicate .gt column c
  | .lt => comparisonPredicate .lt column c
  | .gte => comparisonPredicate .ge column c
  | .lte => comparisonPredicate .le column c
  | .like => do
    let v ← liftM (bindConditionValue c.value)
    let p ← push v
    return .like column (collate c.value.isString p) none

/-- `compile_single_condition`. -/
def compileSingleCondition (vars : Variables) (c : Condition) : Compile Expr :=
  match vars.lookup c.var with
  | none => throw (.compile ("unknown variable '" ++ c.var ++ "' in WHERE clause"))
  | some (source, kind) => do
    let column ← liftM (wherePropertyExpression tables c.property kind source)
    compileConditionPredicate column c

/-- Two parts of a condition, where there are two. -/
def combine (join : Expr → Expr → Expr) : Option Expr → Option Expr → Option Expr
  | some l, some r => some (join l r)
  | some e, none | none, some e => some e
  | none, none => none

/-- `compile_where_expr`. -/
def compileWhereExpr (vars : Variables) : WhereExpr → Compile (Option Expr)
  | .true => pure none
  | .condition c => do
    let e ← compileSingleCondition tables vars c
    return some e
  | .and l r => do
    let l ← compileWhereExpr vars l
    let r ← compileWhereExpr vars r
    return combine .and l r
  | .or l r => do
    let l ← compileWhereExpr vars l
    let r ← compileWhereExpr vars r
    return combine (fun l r ↦ .paren (.or l r)) l r

end Where

def unknownReturn (var : String) : QueryError :=
  .compile ("unknown variable '" ++ var ++ "' in RETURN clause")

/-- The columns of the result for one item of `RETURN`. -/
def returnColumns (vars : Variables) (item : ReturnItem) :
    Except QueryError (List (String × Expr)) :=
  match vars.lookup item.var with
  | none => throw (unknownReturn item.var)
  | some (source, kind) =>
    match item with
    | .property var prop => do
      let column ← propertyToColumn prop kind
      pure [(var ++ "_" ++ prop, .column source column)]
    | .whole var => pure (kind.variableColumns.map fun (column, suffix) ↦
        (var ++ "_" ++ suffix, .column source column))

/-- `i64::try_from`, as a parameter. -/
def boundInteger (n : UInt64) (message : String) : Compile Placeholder :=
  if n.toNat < 2 ^ 63 then pushPlaceholder (.integer n.toInt64)
  else throw (.invalidInput message)

/-- The offset and the limit, bound in this order. -/
def bindPage (q : GqlQuery) (opts : CompileOptions) :
    Compile (Placeholder × Placeholder × Option TruncationCheck) := do
  let offset ← boundInteger q.offset "SKIP exceeds i64::MAX"
  let (limit, check) := effectiveLimit q.limit q.offset opts.maxLimit
  let limit ← boundInteger limit "limit exceeds i64::MAX"
  return (offset, limit, check)

/-- `mailbox.map(|scope| MailboxLowering::bind(scope, &mut params))`. -/
def bindMailbox : Option QueryMailboxScope → Compile (Option MailboxLowering)
  | none => pure none
  | some scope => fun params ↦
    let (lowering, params) := MailboxLowering.bind scope params
    .ok (some lowering, params)

/-- The chain of joins, with the condition and the columns of the result. -/
def fixedStatement (fragments : List Fragment) (condition : Option Expr)
    (items : List (List (String × Expr))) (limit offset : Placeholder) : Statement where
  withClause := none
  body := {
    distinct := false
    items := items.flatten
    sources := fragments.flatMap Fragment.sources
    conditions := fragments.flatMap Fragment.conditions ++ condition.toList }
  order := fragments.flatMap Fragment.order
  limit := limit
  offset := offset

/-- The variables of the pattern, the latest binding first. -/
def variablesOf (fragments : List Fragment) : Variables :=
  (fragments.filterMap Fragment.binding).reverse

/-- `compile_fixed_length`. -/
def compileFixedLength (tables : CharTables) (q : GqlQuery) (opts : CompileOptions)
    (mailbox : Option QueryMailboxScope) : Compile (Statement × Option TruncationCheck) := do
  let mailbox ← bindMailbox mailbox
  let (events, targets) := syntheticEndpointNodeIndices 0 none q.elements
  let fragments ← lowerElements opts mailbox ⟨events, targets⟩ 0 0 q.elements
  let condition ← compileWhereExpr tables (variablesOf fragments) q.whereClause
  let items ← liftM (q.returnItems.mapM (returnColumns (variablesOf fragments)))
  let (offset, limit, check) ← bindPage q opts
  return (fixedStatement fragments condition items limit offset, check)

/-! ## The recursive table -/

/-- `expr_endpoint_set`: whether the start and the end are mentioned. -/
def exprEndpointSet (start stop : Option String) : WhereExpr → Bool × Bool
  | .true => (false, false)
  | .condition c => (start == some c.var, stop == some c.var)
  | .and l r | .or l r =>
    let (ls, le) := exprEndpointSet start stop l
    let (rs, re) := exprEndpointSet start stop r
    (ls || rs, le || re)

/-- `reject_or_spanning_impl`. -/
def rejectOrSpanning (start stop : Option String) : WhereExpr → Except QueryError Unit
  | .true | .condition _ => pure ()
  | .and l r => do
    rejectOrSpanning start stop l
    rejectOrSpanning start stop r
  | .or l r => do
    let (ls, le) := exprEndpointSet start stop l
    let (rs, re) := exprEndpointSet start stop r
    if (ls || rs) && (le || re) then
      throw (.unsupported ("WHERE clauses that span both endpoints in a variable-length pattern " ++
        "are not yet supported; rewrite as separate queries or restrict each " ++
        "OR branch to one endpoint"))
    rejectOrSpanning start stop l
    rejectOrSpanning start stop r

section WhereEndpoints

variable (tables : CharTables) (start stop : Option String)

/-- `compile_var_len_condition`: the predicate, and whether it is on the start. -/
def compileVarLenCondition (c : Condition) : Compile (Expr × Bool) :=
  if start = some c.var then do
    let column ← liftM (wherePropertyExpression tables c.property .node "s")
    let e ← compileConditionPredicate column c
    return (e, true)
  else if stop = some c.var then do
    let column ← liftM (wherePropertyExpression tables c.property .node "r")
    let e ← compileConditionPredicate column c
    return (e, false)
  else throw (.compile ("variable '" ++ c.var ++ "' in WHERE not supported in variable-length " ++
    "pattern (only start/end node variables)"))

/-- Two parts on one endpoint. -/
def combineEndpoint (join : Expr → Expr → Expr) :
    Option (Expr × Bool) → Option (Expr × Bool) → Option (Expr × Bool)
  | some (l, side), some (r, _) => some (join l r, side)
  | some e, none | none, some e => some e
  | none, none => none

/-- `compile_variable_length_where_to_sql`. -/
def compileVariableLengthWhereToSql : WhereExpr → Compile (Option (Expr × Bool))
  | .true => pure none
  | .condition c => do
    let e ← compileVarLenCondition tables start stop c
    return some e
  | .and l r => do
    let l ← compileVariableLengthWhereToSql l
    let r ← compileVariableLengthWhereToSql r
    return combineEndpoint .and l r
  | .or l r => do
    let l ← compileVariableLengthWhereToSql l
    let r ← compileVariableLengthWhereToSql r
    return combineEndpoint (fun l r ↦ .paren (.or l r)) l r

/-- Conditions on the start and conditions on the end. -/
structure Routed where
  start : List Expr
  stop : List Expr

def Routed.of : Option (Expr × Bool) → Routed
  | none => ⟨[], []⟩
  | some (e, true) => ⟨[e], []⟩
  | some (e, false) => ⟨[], [e]⟩

/-- `compile_variable_length_where`, which never has a rest to return. -/
def compileVariableLengthWhere : WhereExpr → Compile Routed
  | .true => pure ⟨[], []⟩
  | .condition c => do
    let e ← compileVarLenCondition tables start stop c
    return .of (some e)
  | .and l r => do
    let l ← compileVariableLengthWhere l
    let r ← compileVariableLengthWhere r
    return ⟨l.start ++ r.start, l.stop ++ r.stop⟩
  -- both branches are on one endpoint by now
  | .or l r => do
    let l ← compileVariableLengthWhereToSql tables start stop l
    let r ← compileVariableLengthWhereToSql tables start stop r
    return .of (combineEndpoint (fun l r ↦ .paren (.or l r)) l r)

end WhereEndpoints

/-- Columns of the recursive table. -/
def traverseColumns : List String :=
  ["start_id", "current_id", "depth", "path", "total_weight", "via_edge", "via_relation",
    "via_weight"]

/-- The edge columns that a path keeps, each with its name in the result. -/
def viaColumns : List (String × String) :=
  [("via_edge", "id"), ("via_relation", "relation"), ("via_weight", "weight")]

/-- The columns of the result for one item of `RETURN`, and whether they are of the start. -/
def variableLengthColumns (vars : Variables) (start : Option String) (item : ReturnItem) :
    Except QueryError (List (String × Expr) × Bool) :=
  match vars.lookup item.var with
  | none => throw (unknownReturn item.var)
  | some (_, .eventNode) | some (_, .observationTargetNode) =>
    throw (.unsupported ("synthetic observed_as_* edges cannot be used in variable-length " ++
      "patterns; use a fixed-length edge pattern instead"))
  | some (_, .node) =>
    let isStart := start == some item.var
    let table := if isStart then "s" else "r"
    match item with
    | .property var prop => do
      let column ← propertyToColumn prop .node
      pure ([(var ++ "_" ++ prop, .column table column)], isStart)
    | .whole var => pure (VarKind.node.variableColumns.map (fun (column, suffix) ↦
        (var ++ "_" ++ suffix, .column table column)), isStart)
  | some (_, .edge) =>
    match item with
    | .property var prop =>
      match viaColumns.find? fun column ↦ column.2 == prop with
      | some (column, _) => pure ([(var ++ "_" ++ prop, .column "t" column)], false)
      | none => throw (.compile ("unknown edge property '" ++ prop ++ "' in RETURN projection. " ++
          "Valid: id, source_id, target_id, relation, weight"))
    | .whole var => pure (viaColumns.map (fun (column, suffix) ↦
        (var ++ "_" ++ suffix, .column "t" column)), false)

/-- The start, the edge and the end of a pattern of three elements. -/
def threeElements : List PatternElement → Except QueryError (NodePattern × EdgePattern × NodePattern)
  | [.node start, .edge e, .node stop] => pure (start, e, stop)
  | _ => throw (.unsupported ("variable-length patterns must be a single start_node -[*N..M]-> " ++
      "end_node (mixed fixed/variable chains are not yet implemented)"))

/-- Filters of the two parts of the recursive table. -/
structure PathFilters where
  edgeScope : List Expr
  relations : List Expr
  nextScope : List Expr
  start : List Expr
  depth : Expr

section Traverse

variable (mailbox : Option MailboxLowering) (direction : EdgeDirection) (filters : PathFilters)

/-- The edge and the node behind it, from the row at `prev`. -/
def pathStep (kind : Sql.JoinKind) (prev : Expr) : List FromItem :=
  [⟨edgeSource mailbox, "e", kind,
    [edgeJoin direction "e" prev, .isNull (.column "e" "deleted_at")] ++ filters.edgeScope ++
      filters.relations⟩,
   ⟨.table "primary_nodes", "next_node", .inner,
    [.compare .eq (.column "next_node" "id") (.paren (edgeNext direction "e" prev)),
      .isNull (.column "next_node" "deleted_at")] ++ filters.nextScope⟩]

def seed : Select :=
  let id := Expr.column "s" "id"
  let next := edgeNext direction "e" id
  { distinct := false
    items := traverseColumns.zip [id, next, .integer 1, .concat (.concat id (.text ",")) next,
      .column "e" "weight", .column "e" "id", .column "e" "relation", .column "e" "weight"]
    sources := ⟨.table "primary_nodes", "s", .inner, []⟩ ::
      pathStep mailbox direction filters .inner id
    conditions := filters.start }

/-- The node behind the edge is not on the path yet. -/
def unvisited : Expr :=
  .notLike (.paren (.concat (.concat (.text ",") (.column "t" "path")) (.text ",")))
    (.concat (.concat (.text "%,") (edgeNext direction "e" (.column "t" "current_id")))
      (.text ",%"))

def step : Select :=
  let id := Expr.column "t" "current_id"
  let next := edgeNext direction "e" id
  let path := Expr.column "t" "path"
  { distinct := false
    items := traverseColumns.zip [.column "t" "start_id", next,
      .add (.column "t" "depth") (.integer 1), .concat (.concat path (.text ",")) next,
      .add (.column "t" "total_weight") (.column "e" "weight"),
      .column "e" "id", .column "e" "relation", .column "e" "weight"]
    sources := ⟨.table "traverse", "t", .inner, []⟩ ::
      pathStep mailbox direction filters .cross id
    conditions := [.compare .lt (.column "t" "depth") filters.depth, unvisited direction] }

end Traverse

/-- The sources of the outer `SELECT`: the start is joined only to project it. -/
def outerSources (hasStart : Bool) : List FromItem :=
  ⟨.table "traverse", "t", .inner, []⟩ ::
    ((if hasStart then
      [⟨.table "primary_nodes", "s", .inner,
        [.compare .eq (.column "s" "id") (.column "t" "start_id")]⟩] else []) ++
    [⟨.table "primary_nodes", "r", .inner,
      [.compare .eq (.column "r" "id") (.column "t" "current_id")]⟩])

/-- The variables of a path. -/
def pathVariables (start stop : NodePattern) (edge : EdgePattern) : Variables :=
  edge.var.toList.map (fun var ↦ (var, "e", VarKind.edge)) ++
    stop.var.toList.map (fun var ↦ (var, "r", VarKind.node)) ++
    start.var.toList.map (fun var ↦ (var, "s", VarKind.node))

/-- The recursive table, and the paths in it that are returned. -/
def pathStatement (mailbox : Option MailboxLowering) (direction : EdgeDirection)
    (filters : PathFilters) (returned : List (List (String × Expr) × Bool))
    (conditions : List Expr) (limit offset : Placeholder) : Statement where
  withClause := some {
    unionName := "primary_nodes"
    members := primaryNodes mailbox
    recursion := {
      name := "traverse"
      columns := traverseColumns
      seed := seed mailbox direction filters
      step := step mailbox direction filters } }
  body := {
    distinct := true
    items := returned.flatMap Prod.fst ++ [("_depth", .column "t" "depth"),
      ("_total_weight", .column "t" "total_weight")]
    sources := outerSources (returned.any Prod.snd)
    conditions := conditions }
  order := [.output "_depth" false, .output "_total_weight" true] ++
    (((returned.flatMap Prod.fst).map Prod.fst).filter fun name ↦
      name ≠ "_depth" && name ≠ "_total_weight").map fun name ↦ .output name false
  limit := limit
  offset := offset

/-- `t.depth >= ?`, for a positive minimum. -/
def minimumDepth (hops : Nat) : Compile (List Expr) :=
  if hops > 0 then do
    let p ← push (.integer (Int64.ofNat hops))
    return [.compare .ge (.column "t" "depth") p]
  else pure []

/-- `compile_variable_length`. -/
def compileVariableLength (tables : CharTables) (q : GqlQuery) (opts : CompileOptions)
    (mailbox : Option QueryMailboxScope) : Compile (Statement × Option TruncationCheck) := do
  let mailbox ← bindMailbox mailbox
  let (start, edge, stop) ← liftM (threeElements q.elements)
  if edge.hasSynthetic then
    throw (.unsupported ("synthetic observed_as_* edges cannot be variable-length; " ++
      "use a fixed-length edge pattern instead"))
  let startConditions ← nodeConditions opts "s" (kindFilterPredicate "s") ["name"] start
  let relations ← oneOf (.column "e" "relation") (edge.relations.map .text)
  let edgeScope ← namespaceFilter opts "e"
  let nextScope ← namespaceFilter opts "next_node"
  let depth ← push (.integer (Int64.ofNat (min edge.maxHops maxDepth)))
  let stopConditions ← nodeConditions opts "r" (kindFilterPredicate "r") ["name"] stop
  liftM (rejectOrSpanning start.var stop.var q.whereClause)
  let routed ← compileVariableLengthWhere tables start.var stop.var q.whereClause
  let minimum ← minimumDepth edge.minHops
  let (offset, limit, check) ← bindPage q opts
  let returned ← liftM (q.returnItems.mapM
    (variableLengthColumns (pathVariables start stop edge) start.var))
  return (pathStatement mailbox edge.direction
    ⟨edgeScope, relations, nextScope, startConditions ++ routed.start, depth⟩ returned
    (stopConditions ++ routed.stop ++ minimum) limit offset, check)

/-! ## Compilation -/

/-- `sql.split_whitespace().next().unwrap_or("")`. -/
def firstWord (sql : String) : String :=
  String.ofList ((sql.toList.dropWhile isWhitespace).takeWhile fun c ↦ !isWhitespace c)

/-- `assert_select_only`. -/
def assertSelectOnly (sql : String) : Except QueryError Unit :=
  let first := String.ofList ((firstWord sql).toList.map Char.toUpper)
  if first = "SELECT" ∨ first = "WITH" then pure ()
  else throw (.compile ("the query verb is read-only; " ++
    "to mutate the graph use: create, update, link, merge, delete"))

/-- `compile_scoped`: `compile` without a mailbox, `compile_with_mailbox` with one. -/
def compileScoped (tables : CharTables) (query : GqlQuery) (opts : CompileOptions)
    (mailbox : Option QueryMailboxScope) : Except QueryError CompiledQuery := do
  if query.elements.isEmpty then throw (.compile "empty pattern")
  let query ← validate tables query
  let ((sql, truncationCheck), params) ← (if query.hasVariableLength
    then compileVariableLength tables query opts mailbox
    else compileFixedLength tables query opts mailbox).run []
  assertSelectOnly sql.render
  pure { sql, params, returnVars := query.returnItems, truncationCheck }

end Query

end Khive
