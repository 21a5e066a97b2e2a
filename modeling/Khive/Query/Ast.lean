import Khive.Foundation.Checks
import Khive.Foundation.Sql
import Khive.Types.Edge

/-!
# Graph queries and their validation

A query is a pattern of alternating nodes and edges, a tree of conditions, and a list of what to
return. Validation checks the shape of the pattern, the variables and the hop bounds, and rewrites
relation names to their stored form. The names `observed_as_*` are no relations of the graph: they
stand for what events observed, and the compiler lowers them to another table.
-/

namespace Khive

/-- The tables of characters that the standard library has. -/
structure CharTables where
  /-- `char::is_alphanumeric`. -/
  isAlphanumeric : Char → Bool
  /-- The characters that `Debug` escapes by number. -/
  unprintable : Char → Bool

/-- `EdgeRelation::VALID_NAMES`. -/
def EdgeRelation.validNames : List String :=
  [EdgeRelation.contains, .partOf, .instanceOf, .linksTo, .locatedIn, .extends, .variantOf, .introducedBy,
    .supersedes, .derivedFrom, .precedes, .dependsOn, .enables, .implements, .competesWith,
    .composedWith, .annotates, .supports, .refutes, .owns].map asStr

/-- A character of a relation name in lower case, with one separator. -/
def normaliseRelationChar (c : Char) : Option Char :=
  if c = '-' ∨ c = '_' then some '_'
  else if c.isAlphanum then some c.toLower
  else none

/-- `EdgeRelation::from_str`. -/
def EdgeRelation.fromStr (s : String) : Option EdgeRelation :=
  (s.toList.mapM normaliseRelationChar).bind fun normalised ↦
    match String.ofList normalised with
    | "contains" => some .contains
    | "part_of" | "partof" => some .partOf
    | "instance_of" | "instanceof" => some .instanceOf
    | "links_to" | "linksto" => some .linksTo
    | "located_in" | "locatedin" => some .locatedIn
    | "extends" => some .extends
    | "variant_of" | "variantof" => some .variantOf
    | "introduced_by" | "introducedby" => some .introducedBy
    | "supersedes" => some .supersedes
    | "derived_from" | "derivedfrom" => some .derivedFrom
    | "precedes" => some .precedes
    | "depends_on" | "dependson" => some .dependsOn
    | "enables" => some .enables
    | "implements" => some .implements
    | "competes_with" | "competeswith" => some .competesWith
    | "composed_with" | "composedwith" => some .composedWith
    | "annotates" => some .annotates
    | "supports" => some .supports
    | "refutes" => some .refutes
    | "owns" => some .owns
    | _ => none

namespace Query

/-! ## Queries -/

inductive CompareOp where
  | eq | neq | gt | lt | gte | lte | like | contains | startsWith | isIn | isNotNull | isNull
  deriving DecidableEq

inductive ConditionValue where
  | string (s : String)
  | integer (n : Int64)
  | number (x : Binary64)
  | bool (b : Bool)
  | list (values : List ConditionValue)
  | null

/-- A field of the record, or a path below its JSON properties. -/
inductive PropertyRef where
  | field (name : String)
  | jsonPath (path : List String)

structure Condition where
  var : String
  property : PropertyRef
  op : CompareOp
  value : ConditionValue

inductive WhereExpr where
  | and (l r : WhereExpr)
  | or (l r : WhereExpr)
  | condition (c : Condition)
  | true

inductive ReturnItem where
  | whole (var : String)
  | property (var name : String)
  deriving DecidableEq

/-- `ReturnItem::variable`. -/
def ReturnItem.var : ReturnItem → String
  | whole var | property var _ => var

inductive EdgeDirection where
  | out
  | into
  | both
  deriving DecidableEq

structure NodePattern where
  var : Option String
  kind : Option String
  entityType : Option String
  /-- A hash map in the source; nothing depends on the order. -/
  properties : List (String × ConditionValue)

structure EdgePattern where
  var : Option String
  relations : List String
  direction : EdgeDirection
  minHops : Nat
  maxHops : Nat

inductive PatternElement where
  | node (n : NodePattern)
  | edge (e : EdgePattern)

structure GqlQuery where
  elements : List PatternElement
  whereClause : WhereExpr
  returnItems : List ReturnItem
  offset : UInt64
  limit : Option UInt64

/-- `MatchPattern::has_variable_length`. -/
def GqlQuery.hasVariableLength (q : GqlQuery) : Bool :=
  q.elements.any fun
    | .edge e => e.maxHops > 1
    | .node _ => false

/-- The conditions of the tree, from left to right. -/
def WhereExpr.conditions : WhereExpr → List Condition
  | and l r | or l r => l.conditions ++ r.conditions
  | condition c => [c]
  | true => []

inductive QueryError where
  | compile (message : String)
  | validation (message : String)
  | unsupported (message : String)
  | invalidInput (message : String)
  deriving DecidableEq

/-! ## Validation -/

def syntheticRelations : List String :=
  ["observed_as_candidate", "observed_as_selected", "observed_as_target", "observed_as_signal"]

/-- `is_synthetic`. -/
def isSynthetic (rel : String) : Bool := syntheticRelations.contains rel

/-- `ep.relations.iter().any(|r| is_synthetic(r))`. -/
def EdgePattern.hasSynthetic (e : EdgePattern) : Bool := e.relations.any isSynthetic

/-- `MAX_DEPTH`. -/
def maxDepth : Nat := 10

/-- The elements alternate, starting at a node when `parity` is even. -/
def alternates : Nat → List PatternElement → Bool
  | _, [] => true
  | parity, .node _ :: rest => parity % 2 == 0 && alternates (parity + 1) rest
  | parity, .edge _ :: rest => parity % 2 == 1 && alternates (parity + 1) rest

def validatePatternShape (elements : List PatternElement) : Except QueryError Unit :=
  if elements.isEmpty then pure ()
  else if elements.length % 2 = 0 then
    throw (.validation "pattern must alternate Node, Edge, Node, … (even element count is invalid)")
  else if alternates 0 elements then pure ()
  else
    throw (.validation
      "pattern must alternate Node, Edge, Node, … (wrong element type at position)")

/-- The first loop of `validate_with_warnings`: a variable is bound once. -/
def checkVariables : List String → List String → List PatternElement → Except QueryError Unit
  | _, _, [] => pure ()
  | seenNodes, seenEdges, .node n :: rest =>
    match n.var with
    | none => checkVariables seenNodes seenEdges rest
    | some var =>
      if var ∈ seenEdges then
        throw (.validation ("variable '" ++ var ++ "' cannot bind both a node and an edge"))
      else if var ∈ seenNodes then
        throw (.unsupported ("repeated node variable '" ++ var ++ "' (cycle / self-reachability " ++
          "requires alias-equality predicates not yet implemented)"))
      else checkVariables (var :: seenNodes) seenEdges rest
  | seenNodes, seenEdges, .edge e :: rest =>
    match e.var with
    | none => checkVariables seenNodes seenEdges rest
    | some var =>
      if var ∈ seenNodes then
        throw (.validation ("variable '" ++ var ++ "' cannot bind both a node and an edge"))
      else if var ∈ seenEdges then
        throw (.unsupported ("repeated edge variable '" ++ var ++ "' not supported"))
      else checkVariables seenNodes (var :: seenEdges) rest

section Tables

variable (tables : CharTables)

/-- The stored name of a relation, or the `Display` of `UnknownVariant`. -/
def canonicalRelation (relation : String) : Except QueryError String :=
  match EdgeRelation.fromStr relation with
  | some parsed => pure parsed.asStr
  | none => throw (.validation ("unknown edge_relation: " ++
      debugText tables.unprintable relation.toList ++ ". Valid: " ++
      " | ".intercalate EdgeRelation.validNames))

def normaliseRelation (relation : String) : Except QueryError String :=
  if "observed_as_".toList.isPrefixOf relation.toList then
    if isSynthetic relation then pure relation
    else throw (.validation ("unknown synthetic relation '" ++ relation ++
      "'; valid synthetic relations: " ++ ", ".intercalate syntheticRelations))
  else canonicalRelation tables relation

def namespaceMessage : String := "namespace is set by CompileOptions, not query text"

/-- The second loop: reserved properties, relation names and hop bounds. -/
def normaliseElement : PatternElement → Except QueryError PatternElement
  | .node n =>
    if n.properties.any fun property ↦ property.1 == "namespace" then
      throw (.validation namespaceMessage)
    else pure (.node n)
  | .edge e => do
    let relations ← e.relations.mapM (normaliseRelation tables)
    if e.minHops = 0 then
      throw (.unsupported ("zero-hop ranges (min_hops = 0) not yet supported; " ++
        "use a minimum of 1 hop"))
    if e.minHops > e.maxHops then
      throw (.validation ("invalid hop range: min " ++ e.minHops.repr ++ " > max " ++
        e.maxHops.repr))
    if e.minHops > maxDepth then
      throw (.unsupported ("minimum hop count " ++ e.minHops.repr ++ " exceeds depth cap " ++
        maxDepth.repr))
    if e.maxHops > maxDepth then
      throw (.invalidInput ("max_hops " ++ e.maxHops.repr ++ " exceeds the depth cap of " ++
        maxDepth.repr ++ "; reduce the range or use a smaller bound"))
    pure (.edge { e with relations })

/-- The relation names in a list literal. -/
def normaliseValues : List ConditionValue → Except QueryError (List ConditionValue)
  | [] => pure []
  | .string s :: rest => do
    let relation ← canonicalRelation tables s
    let rest ← normaliseValues rest
    pure (.string relation :: rest)
  | _ :: _ => throw (.validation "relation IN list values must be strings")

def validateCondition (c : Condition) (isEdge : Bool) : Except QueryError Condition :=
  match c.property with
  | .field property =>
    if property = "namespace" then throw (.validation namespaceMessage)
    else if property = "kind" ∧ ¬isEdge then pure c
    else if property = "relation" ∧ isEdge then
      if c.op ∈ [.contains, .startsWith, .isNotNull, .isNull] then pure c
      else
        match c.value with
        | .string s => do
          let relation ← canonicalRelation tables s
          pure { c with value := .string relation }
        | .list values => do
          let values ← normaliseValues tables values
          pure { c with value := .list values }
        | _ => pure c
    else pure c
  | .jsonPath _ => pure c

/-- Whether an edge of the pattern has the variable. -/
def bindsEdge (elements : List PatternElement) (var : String) : Bool :=
  elements.any fun
    | .edge e => e.var == some var
    | .node _ => false

def validateWhere (elements : List PatternElement) : WhereExpr → Except QueryError WhereExpr
  | .and l r => do
    let l ← validateWhere elements l
    let r ← validateWhere elements r
    pure (.and l r)
  | .or l r => do
    let l ← validateWhere elements l
    let r ← validateWhere elements r
    pure (.or l r)
  | .condition c => do
    let c ← validateCondition tables c (bindsEdge elements c.var)
    pure (.condition c)
  | .true => pure .true

/-- `validate_with_warnings`, which has no warnings to give. -/
def validate (q : GqlQuery) : Except QueryError GqlQuery := do
  validatePatternShape q.elements
  checkVariables [] [] q.elements
  let elements ← q.elements.mapM (normaliseElement tables)
  let whereClause ← validateWhere tables elements q.whereClause
  pure { q with elements, whereClause }

end Tables

end Query

end Khive
