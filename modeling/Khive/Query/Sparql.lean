import Khive.Foundation.SimplePath
import Khive.Foundation.SortedMap
import Khive.Query.Ast

/-!
# SPARQL triples as a pattern

The triples of a `WHERE` block are conjuncts in no order. Those between variables are the edges of
the pattern, which has to be a single path, and the others constrain the nodes. They are collected
one after another into a kind, properties and conditions for each variable, where a repeated
constraint has to agree with the one that is there, and the edges are put in order by a walk from
the variable that nothing points to.
-/

namespace Khive

namespace Query

namespace Sparql

inductive Predicate where
  | type
  | relation (name : String) (minHops maxHops : Nat)

inductive Object where
  | variable (name : String)
  | kind (name : String)
  | stringLiteral (value : String)
  | numberLiteral (value : ConditionValue)

structure Triple where
  subject : String
  predicate : Predicate
  object : Object

inductive SparqlError where
  | parse (position : Nat) (message : String)
  | query (e : QueryError)
  deriving DecidableEq

/-- A triple between two variables. -/
structure RelationEdge where
  src : String
  tgt : String
  rel : String
  minHops : Nat
  maxHops : Nat
  deriving DecidableEq

/-! ## Collecting -/

/-- What the loop over the triples collects. -/
structure Collected where
  substrateKinds : OrderedMap String String
  granularKinds : OrderedMap String String
  nodeProps : OrderedMap String (OrderedMap String ConditionValue)
  edges : List RelationEdge
  conditions : List Condition

def Collected.start : Collected where
  substrateKinds := OrderedMap.empty
  granularKinds := OrderedMap.empty
  nodeProps := OrderedMap.empty
  edges := []
  conditions := []

/-- `matches!(kind, "entity" | "note" | "event" | "edge")`. -/
def isSubstrate (kind : String) : Bool := decide (kind ∈ ["entity", "note", "event", "edge"])

/-- `node_props.entry(subject).or_default()`. -/
def propsOf (nodeProps : OrderedMap String (OrderedMap String ConditionValue)) (subject : String) :
    OrderedMap String ConditionValue :=
  (nodeProps.get subject).getD OrderedMap.empty

/-- Whether a repeated constraint says the same: ASCII case does not matter but for the entity
type. -/
def equivalent (name : String) : ConditionValue → String → Bool
  | .string left, right =>
    if name ≠ "entity_type" then decide (Sql.foldCase left = Sql.foldCase right)
    else decide (left = right)
  | _, _ => false

/-- `insert_string_property_constraint`. -/
def insertStringPropertyConstraint
    (nodeProps : OrderedMap String (OrderedMap String ConditionValue))
    (subject name value : String) :
    Except SparqlError (OrderedMap String (OrderedMap String ConditionValue)) :=
  let props := propsOf nodeProps subject
  match props.get name with
  | some existing =>
    if equivalent name existing value then .ok (nodeProps.insert subject props)
    else .error (.parse 0 ("conflicting constraints on '?" ++ subject ++ " :" ++ name ++
      "'; repeated predicates must agree"))
  | none => .ok (nodeProps.insert subject (props.insert name (.string value)))

/-- One kind in its map. -/
def insertKind (kinds : OrderedMap String String) (subject kind : String) :
    Except SparqlError (OrderedMap String String) :=
  match kinds.get subject with
  | some existing =>
    if existing ≠ kind then
      .error (.parse 0 ("conflicting kind constraints on '?" ++ subject ++
        "'; repeated kinds must agree"))
    else .ok kinds
  | none => .ok (kinds.insert subject kind)

/-- One turn of the loop over the triples. -/
def addTriple (s : Collected) (t : Triple) : Except SparqlError Collected :=
  match t.predicate, t.object with
  | .type, .kind kind =>
    if isSubstrate kind then
      (insertKind s.substrateKinds t.subject kind).map fun kinds ↦
        { s with substrateKinds := kinds }
    else
      (insertKind s.granularKinds t.subject kind).map fun kinds ↦ { s with granularKinds := kinds }
  | .type, _ =>
    .error (.parse 0 "'a' predicate requires a kind object (:concept, :paper, etc.)")
  | .relation name minHops maxHops, .variable target =>
    .ok { s with edges := s.edges ++ [⟨t.subject, target, name, minHops, maxHops⟩] }
  | .relation name minHops maxHops, object =>
    if minHops ≠ 1 ∨ maxHops ≠ 1 then
      .error (.query (.unsupported ("SPARQL property predicates require one-hop bounds (1,1); " ++
        "use a variable object for path traversal")))
    else
      match object with
      | .stringLiteral value | .kind value =>
        (insertStringPropertyConstraint s.nodeProps t.subject name value).map fun nodeProps ↦
          { s with nodeProps }
      | .numberLiteral value =>
        .ok { s with conditions := s.conditions ++ [⟨t.subject, .jsonPath [name], .eq, value⟩] }
      | .variable _ => .ok s

def collect (triples : List Triple) : Except SparqlError Collected :=
  triples.foldlM addTriple Collected.start

/-- A granular kind takes the slot of the kind, or becomes a condition next to a substrate. -/
def placeGranularKind (s : OrderedMap String String × List Condition)
    (granular : String × String) : OrderedMap String String × List Condition :=
  match s.1.get granular.1 with
  | some _ => (s.1, s.2 ++ [⟨granular.1, .field "kind", .eq, .string granular.2⟩])
  | none => (s.1.insert granular.1 granular.2, s.2)

/-- The kinds of the nodes, and the conditions with those of the granular kinds. -/
def placeKinds (s : Collected) : OrderedMap String String × List Condition :=
  s.granularKinds.entries.foldl placeGranularKind (s.substrateKinds, s.conditions)

/-- The conditions folded with `AND`. -/
def foldConditions (conditions : List Condition) : WhereExpr :=
  conditions.foldl (fun acc c ↦
    match acc with
    | .true => .condition c
    | other => .and other (.condition c)) .true

/-! ## The path -/

def disconnected (message : String) : SparqlError := .query (.unsupported message)

/-- The edges in the order of the path. -/
def orderEdges (edges : List RelationEdge) : Except SparqlError (List RelationEdge) :=
  match edges with
  | [] => .error (.parse 0
      "no edge patterns found — need at least one :relation between variables")
  | first :: _ =>
    let candidates := startCandidates RelationEdge.src RelationEdge.tgt edges
    if candidates.length > 1 then
      .error (disconnected ("SPARQL WHERE block has multiple disconnected components; " ++
        "only single-path patterns are supported"))
    else
      -- a cycle has no start; validation rejects what it binds twice
      let start := candidates.head?.getD first.src
      let (ordered, unused) :=
        walkFrom RelationEdge.src RelationEdge.tgt edges.length start edges
      if unused ≠ [] then
        .error (disconnected ("SPARQL WHERE block is branched or disconnected; " ++
          "only single-path patterns are supported"))
      else if ordered = [] then .error (.parse 0 "could not chain edge patterns into a path")
      else .ok ordered

/-- The variables of the edges. -/
def pathVars (ordered : List RelationEdge) : List String :=
  ordered.flatMap fun e ↦ [e.src, e.tgt]

/-- Constraints on a variable that is not on the path are refused. -/
def checkConnected {α : Type} (path : List String) (constrained : OrderedMap String α) :
    Except SparqlError Unit :=
  (constrained.entries.map Prod.fst).forM fun var ↦
    if var ∈ path then .ok ()
    else .error (disconnected ("SPARQL variable '?" ++ var ++
      "' has constraints (kind/property) but is not connected to the edge path; " ++
      "disconnected node constraints are not supported"))

/-- Lifts string-valued `entity_type` into its governed node field. -/
def extractEntityType (props : OrderedMap String ConditionValue) :
    Except SparqlError (Option String × OrderedMap String ConditionValue) :=
  match props.get "entity_type" with
  | some (.string s) => .ok (some s, props.erase "entity_type")
  | some _ => .error (.parse 0 "entity_type must be a string literal")
  | none => .ok (none, props.erase "entity_type")

/-- The node of a variable. -/
def nodeOf (kinds : OrderedMap String String)
    (nodeProps : OrderedMap String (OrderedMap String ConditionValue)) (var : String) :
    Except SparqlError PatternElement :=
  (extractEntityType (propsOf nodeProps var)).map fun extracted ↦ .node {
    var := some var
    kind := kinds.get var
    entityType := extracted.1
    properties := extracted.2.entries }

def edgeOf (e : RelationEdge) : PatternElement := .edge {
  var := none
  relations := [e.rel]
  direction := .out
  minHops := e.minHops
  maxHops := e.maxHops }

/-- The elements behind the first node. -/
def elementsAfter (kinds : OrderedMap String String)
    (nodeProps : OrderedMap String (OrderedMap String ConditionValue)) :
    List RelationEdge → Except SparqlError (List PatternElement)
  | [] => .ok []
  | e :: ordered => do
    let node ← nodeOf kinds nodeProps e.tgt
    let rest ← elementsAfter kinds nodeProps ordered
    pure (edgeOf e :: node :: rest)

/-- `triples_to_ast`. -/
def triplesToAst (triples : List Triple) (returnItems : List String) (limit : Option UInt64) :
    Except SparqlError GqlQuery := do
  let s ← collect triples
  let (kinds, conditions) := placeKinds s
  let ordered ← orderEdges s.edges
  checkConnected (pathVars ordered) kinds
  checkConnected (pathVars ordered) s.nodeProps
  let first ← nodeOf kinds s.nodeProps ((ordered.head?.map RelationEdge.src).getD "")
  let rest ← elementsAfter kinds s.nodeProps ordered
  pure {
    elements := first :: rest
    whereClause := foldConditions conditions
    returnItems := returnItems.map .whole
    offset := 0
    limit }

/-- The query with its variable bindings checked, as `validate_with_warnings` does first. -/
def lower (triples : List Triple) (returnItems : List String) (limit : Option UInt64) :
    Except SparqlError GqlQuery := do
  let q ← triplesToAst triples returnItems limit
  (validatePatternShape q.elements).mapError .query
  (checkVariables [] [] q.elements).mapError .query
  pure q

end Sparql

end Query

end Khive
