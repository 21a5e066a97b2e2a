import Khive.Foundation.Sql

/-!
# Select statements

A source is a table, a union of projected tables, or a filtered table; a `SELECT` joins sources and
keeps the rows that pass its conditions; a statement may name a union and a table that is defined by
recursion, orders what it selects, and cuts a page out of it.

The leaves of a statement are what it is made of besides keywords, and its placements are the
placeholders in the order of the text, each with what it is there for: the expression that it is
compared with, the list it is in, or the limit.
-/

namespace Khive

namespace Sql

/-! ## Syntax -/

/-- A column of a union member. -/
inductive Item where
  | column (name : String)
  | renamed (base name : String)
  | null (name : String)
  | text (s name : String)

structure Member where
  items : List Item
  table : String
  filter : Option Expr

inductive Source where
  | table (name : String)
  | union (members : List Member)
  /-- All columns of the rows that pass. -/
  | filtered (base : String) (condition : Expr)

inductive JoinKind where
  | inner
  | cross
  deriving DecidableEq

/-- A source with the name it is bound to. The first one of a `SELECT` joins nothing. -/
structure FromItem where
  source : Source
  name : String
  kind : JoinKind
  on : List Expr

structure Select where
  distinct : Bool
  /-- The columns by name. -/
  items : List (String × Expr)
  sources : List FromItem
  conditions : List Expr

inductive OrderTerm where
  | column (source name : String)
  | output (name : String) (descending : Bool)
  deriving DecidableEq

/-- The number of a placeholder with the value it was made for. -/
structure Placeholder where
  index : Nat
  value : Value

structure RecursiveTable where
  name : String
  columns : List String
  seed : Select
  step : Select

/-- The tables that a statement defines for itself. -/
structure WithClause where
  unionName : String
  members : List Member
  recursion : RecursiveTable

structure Statement where
  withClause : Option WithClause
  body : Select
  order : List OrderTerm
  limit : Placeholder
  offset : Placeholder

/-! ## Text

Up to repeated blanks. -/

def Item.render : Item → String
  | column name => name
  | renamed base name => base ++ " AS " ++ name
  | null name => "NULL AS " ++ name
  | text s name => quoteText s ++ " AS " ++ name

def Member.render (m : Member) : String :=
  "SELECT " ++ ", ".intercalate (m.items.map Item.render) ++ " FROM " ++ m.table ++
    (m.filter.map fun e ↦ " WHERE " ++ e.render).getD ""

def renderUnion (members : List Member) : String :=
  " UNION ALL ".intercalate (members.map Member.render)

def Source.render : Source → String
  | table name => name
  | union members => "(" ++ renderUnion members ++ ")"
  | filtered base condition => "(SELECT * FROM " ++ base ++ " WHERE " ++ condition.render ++ ")"

def renderConjunction (es : List Expr) : String := " AND ".intercalate (es.map Expr.render)

namespace FromItem

def renderFirst (item : FromItem) : String := item.source.render ++ " " ++ item.name

def renderJoin (item : FromItem) : String :=
  (match item.kind with
    | .inner => "JOIN "
    | .cross => "CROSS JOIN ") ++
    item.renderFirst ++ " ON " ++ renderConjunction item.on

end FromItem

def renderSources : List FromItem → String
  | [] => ""
  | item :: rest => " ".intercalate (item.renderFirst :: rest.map FromItem.renderJoin)

/-- The columns of a recursive table are named by its header, others by `AS`. -/
def Select.render (s : Select) (named : Bool) : String :=
  (if s.distinct then "SELECT DISTINCT " else "SELECT ") ++
    ", ".intercalate (s.items.map fun (name, e) ↦
      if named then e.render ++ " AS " ++ quoteIdentifier name else e.render) ++
    " FROM " ++ renderSources s.sources ++ " WHERE " ++ renderConjunction s.conditions

def OrderTerm.render : OrderTerm → String
  | column source name => source ++ "." ++ name
  | output name descending => quoteIdentifier name ++ (if descending then " DESC" else "")

def RecursiveTable.render (r : RecursiveTable) : String :=
  r.name ++ "(" ++ ", ".intercalate r.columns ++ ") AS (" ++ r.seed.render false ++
    " UNION ALL " ++ r.step.render false ++ ") "

def WithClause.render (w : WithClause) : String :=
  "WITH RECURSIVE " ++ (w.unionName ++ " AS (" ++ renderUnion w.members ++ "), " ++
    w.recursion.render)

def Statement.render (s : Statement) : String :=
  (s.withClause.map WithClause.render).getD "" ++ s.body.render true ++ " ORDER BY " ++
    ", ".intercalate (s.order.map OrderTerm.render) ++ " LIMIT " ++ placeholder s.limit.index ++
    " OFFSET " ++ placeholder s.offset.index

/-! ## Pages -/

/-- The page of the rows: a negative limit is none, and a negative offset is zero. -/
def page {α : Type} (limit offset : Value) (rows : List α) : List α :=
  let rest := match offset with
    | .integer n => rows.drop n.toNatClampNeg
    | _ => rows
  match limit with
  | .integer n => if n < 0 then rest else rest.take n.toNatClampNeg
  | _ => rest

/-! ## Leaves -/

/-- What a statement is made of besides its keywords. -/
inductive Leaf where
  | column (source name : String)
  | param (index : Nat) (value : Value)
  | text (s : String)
  | path (s : String)
  | output (name : String)

def Operand.leaf : Operand → Leaf
  | param index value => .param index value
  | text s => .text s

def Expr.leaves : Expr → List Leaf
  | column source name => [.column source name]
  | param index value => [.param index value]
  | text s => [.text s]
  | integer _ => []
  | jsonType e path | jsonExtract e path => .path path :: e.leaves
  | ifnull e f | coalesce e f => e.leaves ++ f.leaves
  | collateNocase e | isNull e | isNotNull e | paren e => e.leaves
  | compare _ l r | concat l r | add l r | and l r | or l r | like l r _ | notLike l r =>
    l.leaves ++ r.leaves
  | inList e items => e.leaves ++ items.map Operand.leaf
  | caseWhen condition yes no => condition.leaves ++ yes.leaves ++ no.leaves
  | notExists _ _ condition => condition.leaves

def leavesOf (es : List Expr) : List Leaf := es.flatMap Expr.leaves

@[simp] theorem leavesOf_nil : leavesOf [] = [] := rfl

@[simp] theorem leavesOf_cons {e : Expr} {es : List Expr} :
    leavesOf (e :: es) = e.leaves ++ leavesOf es := rfl

@[simp] theorem leavesOf_append {es fs : List Expr} :
    leavesOf (es ++ fs) = leavesOf es ++ leavesOf fs := List.flatMap_append

def Item.leaves (table : String) : Item → List Leaf
  | column name | renamed name _ => [.column table name]
  | null _ => []
  | text s _ => [.text s]

def Member.leaves (m : Member) : List Leaf :=
  m.items.flatMap (Item.leaves m.table) ++ leavesOf m.filter.toList

def Source.leaves : Source → List Leaf
  | table _ => []
  | union members => members.flatMap Member.leaves
  | filtered _ condition => condition.leaves

def FromItem.leaves (item : FromItem) : List Leaf := item.source.leaves ++ leavesOf item.on

def OrderTerm.leaves : OrderTerm → List Leaf
  | column source name => [.column source name]
  | output name _ => [.output name]

def Placeholder.leaf (p : Placeholder) : Leaf := .param p.index p.value

/-- Without the names of the columns. -/
def Select.leaves (s : Select) : List Leaf :=
  leavesOf (s.items.map Prod.snd) ++ s.sources.flatMap FromItem.leaves ++ leavesOf s.conditions

def WithClause.leaves (w : WithClause) : List Leaf :=
  w.members.flatMap Member.leaves ++ w.recursion.seed.leaves ++ w.recursion.step.leaves

def Statement.leaves (s : Statement) : List Leaf :=
  (s.withClause.map WithClause.leaves).getD [] ++ s.body.leaves ++
    s.body.items.map (fun (name, _) ↦ .output name) ++ s.order.flatMap OrderTerm.leaves ++
    [s.limit.leaf, s.offset.leaf]

/-! ## Placeholders -/

/-- What a placeholder is there for. -/
inductive Slot where
  /-- An expression is compared with it. -/
  | comparison (op : Comparison) (e : Expr)
  /-- An expression is matched with it. -/
  | pattern (e : Expr)
  /-- It is in the list that an expression is looked up in. -/
  | member (e : Expr)
  | limit
  | offset
  | other
  deriving DecidableEq

/-- A placeholder where it stands. -/
structure Placement where
  slot : Slot
  index : Nat
  /-- The value it was made for, which the text does not show. -/
  value : Value
  deriving DecidableEq

/-- What the placeholder stands for when the statement is run. -/
def Placement.bound (params : List Value) (x : Placement) : Slot × Option Value :=
  (x.slot, params[x.index - 1]?)

def Placement.leaf (x : Placement) : Leaf := .param x.index x.value

def Operand.placements (slot : Slot) : Operand → List Placement
  | param index value => [⟨slot, index, value⟩]
  | text _ => []

/-- The placeholders of an expression in the order of its text; `slot` is where the expression
stands. -/
def Expr.placements : Slot → Expr → List Placement
  | slot, param index value => [⟨slot, index, value⟩]
  | _, column _ _ | _, text _ | _, integer _ => []
  | slot, collateNocase e | slot, paren e => e.placements slot
  | _, jsonType e _ | _, jsonExtract e _ | _, isNull e | _, isNotNull e => e.placements .other
  | _, compare op l r => l.placements .other ++ r.placements (.comparison op l)
  | _, like l r _ | _, notLike l r => l.placements .other ++ r.placements (.pattern l)
  | _, ifnull l r | _, coalesce l r | _, concat l r | _, add l r | _, and l r | _, or l r =>
    l.placements .other ++ r.placements .other
  | _, inList e items => e.placements .other ++ items.flatMap (Operand.placements (.member e))
  | _, caseWhen condition yes no =>
    condition.placements .other ++ yes.placements .other ++ no.placements .other
  | _, notExists _ _ condition => condition.placements .other

def placementsOf (es : List Expr) : List Placement := es.flatMap (Expr.placements .other)

@[simp] theorem placementsOf_nil : placementsOf [] = [] := rfl

@[simp] theorem placementsOf_cons {e : Expr} {es : List Expr} :
    placementsOf (e :: es) = e.placements .other ++ placementsOf es := rfl

@[simp] theorem placementsOf_append {es fs : List Expr} :
    placementsOf (es ++ fs) = placementsOf es ++ placementsOf fs := List.flatMap_append

def Member.placements (m : Member) : List Placement := placementsOf m.filter.toList

def Source.placements : Source → List Placement
  | table _ => []
  | union members => members.flatMap Member.placements
  | filtered _ condition => condition.placements .other

@[simp] theorem Source.placements_table (name : String) : (table name).placements = [] := rfl

@[simp] theorem Source.placements_union (members : List Member) :
    (union members).placements = members.flatMap Member.placements := rfl

def FromItem.placements (item : FromItem) : List Placement :=
  item.source.placements ++ placementsOf item.on

def Select.placements (s : Select) : List Placement :=
  placementsOf (s.items.map Prod.snd) ++ s.sources.flatMap FromItem.placements ++
    placementsOf s.conditions

def WithClause.placements (w : WithClause) : List Placement :=
  w.members.flatMap Member.placements ++ w.recursion.seed.placements ++
    w.recursion.step.placements

/-- The placeholders of a statement in the order of its text. -/
def Statement.placements (s : Statement) : List Placement :=
  (s.withClause.map WithClause.placements).getD [] ++ s.body.placements ++
    [⟨.limit, s.limit.index, s.limit.value⟩, ⟨.offset, s.offset.index, s.offset.value⟩]

/-! ### Placeholders among the leaves -/

def Leaf.isParam : Leaf → Bool
  | param _ _ => true
  | column _ _ | text _ | path _ | output _ => false

theorem Operand.map_leaf_placements (slot : Slot) (items : List Operand) :
    (items.flatMap (Operand.placements slot)).map Placement.leaf =
      (items.map Operand.leaf).filter Leaf.isParam := by
  induction items with
  | nil => rfl
  | cons item items ih =>
    rw [List.flatMap_cons, List.map_append, ih, List.map_cons]
    cases item with
    | param | text => rfl

theorem Expr.map_leaf_placements (slot : Slot) (e : Expr) :
    (e.placements slot).map Placement.leaf = e.leaves.filter Leaf.isParam := by
  induction e generalizing slot with
  | column | param | text | integer => rfl
  | collateNocase e ih | paren e ih | isNull e ih | isNotNull e ih | notExists _ _ e ih => exact ih _
  | jsonType e path ih | jsonExtract e path ih => exact ih _
  | compare op l r ihl ihr | like l r escape ihl ihr | notLike l r ihl ihr | ifnull l r ihl ihr
  | coalesce l r ihl ihr | concat l r ihl ihr | add l r ihl ihr | and l r ihl ihr
  | or l r ihl ihr =>
    exact List.map_append.trans ((congrArg₂ _ (ihl _) (ihr _)).trans (List.filter_append ..).symm)
  | inList e items ih =>
    exact List.map_append.trans ((congrArg₂ _ (ih _) (Operand.map_leaf_placements _ items)).trans
      (List.filter_append ..).symm)
  | caseWhen condition yes no ihc ihy ihn =>
    simp only [placements, leaves, List.map_append, List.filter_append, ihc, ihy, ihn]

section Leaves

theorem map_leaf_placementsOf (es : List Expr) :
    (placementsOf es).map Placement.leaf = (leavesOf es).filter Leaf.isParam := by
  rw [placementsOf, leavesOf, List.map_flatMap, List.filter_flatMap]
  simp only [Expr.map_leaf_placements]

theorem Item.filter_leaves (table : String) (item : Item) :
    (item.leaves table).filter Leaf.isParam = [] := by
  cases item with
  | column | renamed | null | text => rfl

theorem Member.map_leaf_placements (m : Member) :
    m.placements.map Placement.leaf = m.leaves.filter Leaf.isParam := by
  have hitems : (m.items.flatMap (Item.leaves m.table)).filter Leaf.isParam = [] := by
    rw [List.filter_flatMap]
    simp only [Item.filter_leaves, List.flatMap_eq_nil_iff, implies_true]
  rw [placements, map_leaf_placementsOf, leaves, List.filter_append, hitems, List.nil_append]

theorem map_leaf_members (members : List Member) :
    (members.flatMap Member.placements).map Placement.leaf =
      (members.flatMap Member.leaves).filter Leaf.isParam := by
  rw [List.map_flatMap, List.filter_flatMap]
  simp only [Member.map_leaf_placements]

theorem FromItem.map_leaf_placements (item : FromItem) :
    item.placements.map Placement.leaf = item.leaves.filter Leaf.isParam := by
  have hsource : item.source.placements.map Placement.leaf =
      item.source.leaves.filter Leaf.isParam := by
    cases item.source with
    | table => rfl
    | union members => exact map_leaf_members members
    | filtered base condition => exact condition.map_leaf_placements _
  rw [placements, leaves, List.map_append, List.filter_append, hsource, map_leaf_placementsOf]

theorem Select.map_leaf_placements (s : Select) :
    s.placements.map Placement.leaf = s.leaves.filter Leaf.isParam := by
  have hsources : (s.sources.flatMap FromItem.placements).map Placement.leaf =
      (s.sources.flatMap FromItem.leaves).filter Leaf.isParam := by
    rw [List.map_flatMap, List.filter_flatMap]
    simp only [FromItem.map_leaf_placements]
  rw [placements, leaves]
  simp only [List.map_append, List.filter_append, map_leaf_placementsOf, hsources]

theorem WithClause.map_leaf_placements (w : WithClause) :
    w.placements.map Placement.leaf = w.leaves.filter Leaf.isParam := by
  rw [placements, leaves]
  simp only [List.map_append, List.filter_append, map_leaf_members, Select.map_leaf_placements]

/-- The placeholders are the leaves that are parameters, in the same order. -/
theorem Statement.map_leaf_placements (s : Statement) :
    s.placements.map Placement.leaf = s.leaves.filter Leaf.isParam := by
  have hwith : ((s.withClause.map WithClause.placements).getD []).map Placement.leaf =
      ((s.withClause.map WithClause.leaves).getD []).filter Leaf.isParam := by
    cases s.withClause with
    | none => rfl
    | some w => exact w.map_leaf_placements
  have houtputs : (s.body.items.map fun (name, _) ↦ Leaf.output name).filter Leaf.isParam = [] := by
    refine List.filter_eq_nil_iff.mpr fun leaf hleaf ↦ ?_
    obtain ⟨item, -, rfl⟩ := List.mem_map.mp hleaf
    exact Bool.false_ne_true
  have horder : (s.order.flatMap OrderTerm.leaves).filter Leaf.isParam = [] := by
    rw [List.filter_flatMap, List.flatMap_eq_nil_iff]
    intro term _
    cases term with
    | column | output => rfl
  rw [placements, leaves]
  simp only [List.map_append, List.filter_append, hwith, Select.map_leaf_placements, houtputs,
    horder, List.append_nil]
  rfl

end Leaves

end Sql

end Khive
