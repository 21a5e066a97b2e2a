import Khive.Foundation.Bytes
import Khive.Types.Value

/-!
# A fragment of SQL

Values of the five storage classes, expressions in three-valued logic, and `SELECT` over joins,
unions and recursive tables, with the text they are written as and the rows they return.

An expression evaluates to a value; comparisons with `NULL` are `NULL`, a truth value is an integer,
and a row passes a filter when the condition is true, not when it is unknown. A placeholder carries
the value that it was made for next to its number; the text shows the number only, and evaluation
looks the number up among the parameters.

What the engine does with JSON texts and patterns is a parameter. A text that is no JSON has no
members here.
-/

namespace Khive

namespace Sql

/-! ## Values -/

inductive Value where
  | null
  | integer (n : Int64)
  | real (x : Binary64)
  | text (s : String)
  | blob (bytes : Bytes)
  deriving DecidableEq

/-- `NULL`, 0 and 1. -/
def ofTruth : Option Bool → Value
  | none => .null
  | some false => .integer 0
  | some true => .integer 1

/-- The value of a number in multiples of `2⁻¹⁰⁷⁴`. -/
def Value.units? : Value → Option ℤ
  | .integer n => some (n.toInt * 2 ^ 1074)
  | .real x => some x.units
  | _ => none

/-- ASCII upper case letters read as lower case, as `COLLATE NOCASE` does. -/
def foldCase (s : String) : String := String.ofList (s.toList.map Char.toLower)

/-- Numbers come before texts and texts before blobs; nothing compares with `NULL`. -/
def compareValues (nocase : Bool) : Value → Value → Option Ordering
  | .null, _ | _, .null => none
  | .text s, .text t => if nocase then compare (foldCase s) (foldCase t) else compare s t
  | .blob b, .blob c => compare (b.map UInt8.toNat) (c.map UInt8.toNat)
  | .blob _, _ => some .gt
  | _, .blob _ => some .lt
  | .text _, _ => some .gt
  | _, .text _ => some .lt
  | v, w => some (compare (v.units?.getD 0) (w.units?.getD 0))

/-- What is left open of the engine. -/
structure Engine where
  parseJson : String → Option JsonValue
  /-- The value at a path, which starts with `$`. -/
  lookup : JsonValue → String → Option JsonValue
  /-- An array or object as it is extracted. -/
  jsonText : JsonValue → String
  /-- An integer beyond 64 bits, as it is extracted. -/
  roundInteger : UInt64 → Binary64
  /-- Text, pattern and escape character. -/
  like : String → String → Option Char → Bool
  /-- A number or blob as text. -/
  castText : Value → String
  add : Value → Value → Value
  /-- Whether a text or blob counts as true. -/
  castTrue : Value → Bool

namespace Engine

variable (engine : Engine)

def truth : Value → Option Bool
  | .null => none
  | .integer n => some (n != 0)
  | .real x => some (x.units != 0)
  | v => some (engine.castTrue v)

def textOf : Value → String
  | .text s => s
  | v => engine.castText v

/-- The member that the JSON functions look at. -/
def member (v : Value) (path : String) : Option JsonValue :=
  match v with
  | .null => none
  | v => (engine.parseJson (engine.textOf v)).bind fun json ↦ engine.lookup json path

/-- `json_type` of a value that is there. -/
def typeName : JsonValue → String
  | .null => "null"
  | .bool true => "true"
  | .bool false => "false"
  | .number (.float _) => "real"
  | .number _ => "integer"
  | .string _ => "text"
  | .array _ => "array"
  | .object _ => "object"

/-- `json_extract` of a value that is there. -/
def extracted : JsonValue → Value
  | .null => .null
  | .bool b => .integer (if b then 1 else 0)
  | .number (.posInt n) =>
    if n.toNat < 2 ^ 63 then .integer n.toInt64 else .real (engine.roundInteger n)
  | .number (.negInt n) => .integer n
  | .number (.float x) => .real x.val
  | .string s => .text s
  | v => .text (engine.jsonText v)

end Engine

/-! ## Expressions -/

inductive Comparison where
  | eq
  | ne
  | gt
  | lt
  | ge
  | le
  deriving DecidableEq

namespace Comparison

def symbol : Comparison → String
  | eq => "="
  | ne => "!="
  | gt => ">"
  | lt => "<"
  | ge => ">="
  | le => "<="

def holds : Comparison → Ordering → Bool
  | eq, o => o.isEq
  | ne, o => o.isNe
  | gt, o => o.isGT
  | lt, o => o.isLT
  | ge, o => o.isGE
  | le, o => o.isLE

end Comparison

/-- A member of an `IN` list. -/
inductive Operand where
  | param (index : Nat) (value : Value)
  | text (s : String)
  deriving DecidableEq

inductive Expr where
  | column (source name : String)
  | param (index : Nat) (value : Value)
  | text (s : String)
  | integer (n : Nat)
  | jsonType (e : Expr) (path : String)
  | jsonExtract (e : Expr) (path : String)
  | ifnull (e f : Expr)
  | coalesce (e f : Expr)
  | collateNocase (e : Expr)
  | compare (op : Comparison) (l r : Expr)
  | like (e pattern : Expr) (escape : Option Char)
  | notLike (e pattern : Expr)
  | concat (l r : Expr)
  | add (l r : Expr)
  | isNull (e : Expr)
  | isNotNull (e : Expr)
  | inList (e : Expr) (items : List Operand)
  | and (l r : Expr)
  | or (l r : Expr)
  | paren (e : Expr)
  | caseWhen (condition yes no : Expr)
  | notExists (table source : String) (condition : Expr)
  deriving DecidableEq

/-! ## Text -/

/-- `s` between quotes, the quotes in it written twice. -/
def quoted (quote : Char) (s : String) : String :=
  String.ofList ([quote] ++ s.toList.flatMap (fun c ↦ if c = quote then [c, c] else [c]) ++ [quote])

/-- A string literal. -/
def quoteText (s : String) : String := quoted '\'' s

/-- An identifier in double quotes. -/
def quoteIdentifier (s : String) : String := quoted '"' s

def placeholder (index : Nat) : String := "?" ++ index.repr

def Operand.render : Operand → String
  | param index _ => placeholder index
  | text s => quoteText s

namespace Expr

def render : Expr → String
  | column source name => source ++ "." ++ name
  | param index _ => placeholder index
  | text s => quoteText s
  | integer n => n.repr
  | jsonType e path => "json_type(" ++ e.render ++ ", " ++ quoteText path ++ ")"
  | jsonExtract e path => "json_extract(" ++ e.render ++ ", " ++ quoteText path ++ ")"
  | ifnull e f => "ifnull(" ++ e.render ++ ", " ++ f.render ++ ")"
  | coalesce e f => "COALESCE(" ++ e.render ++ ", " ++ f.render ++ ")"
  | collateNocase e => e.render ++ " COLLATE NOCASE"
  | compare op l r => l.render ++ " " ++ op.symbol ++ " " ++ r.render
  | like e pattern none => e.render ++ " LIKE " ++ pattern.render
  | like e pattern (some c) =>
    e.render ++ " LIKE " ++ pattern.render ++ " ESCAPE '" ++ c.toString ++ "'"
  | notLike e pattern => e.render ++ " NOT LIKE " ++ pattern.render
  | concat l r => l.render ++ " || " ++ r.render
  | add l r => l.render ++ " + " ++ r.render
  | isNull e => e.render ++ " IS NULL"
  | isNotNull e => e.render ++ " IS NOT NULL"
  | inList e items => e.render ++ " IN (" ++ ", ".intercalate (items.map Operand.render) ++ ")"
  | and l r => l.render ++ " AND " ++ r.render
  | or l r => l.render ++ " OR " ++ r.render
  | paren e => "(" ++ e.render ++ ")"
  | caseWhen condition yes no =>
    "CASE WHEN " ++ condition.render ++ " THEN " ++ yes.render ++ " ELSE " ++ no.render ++ " END"
  | notExists table source condition =>
    "NOT EXISTS (SELECT 1 FROM " ++ table ++ " " ++ source ++ " WHERE " ++ condition.render ++ ")"

end Expr

/-! ## Evaluation -/

/-- A row, by its columns. -/
abbrev Row := List (String × Value)

def Row.get (row : Row) (column : String) : Value := (row.lookup column).getD .null

/-- The rows that the sources of a `SELECT` are at. -/
abbrev Env := List (String × Row)

def Env.get (env : Env) (source column : String) : Value :=
  ((env.lookup source).map fun row ↦ row.get column).getD .null

/-- The tables and the parameters that a statement is run with. -/
structure Database where
  table : String → List Row

section Evaluation

variable (engine : Engine) (db : Database) (params : List Value)

/-- The value bound to a placeholder. -/
def bound (index : Nat) : Value := (params[index - 1]?).getD .null

def Operand.eval : Operand → Value
  | param index _ => bound params index
  | text s => .text s

/-- Three-valued conjunction. -/
def truthAnd : Option Bool → Option Bool → Option Bool
  | some false, _ | _, some false => some false
  | some true, some true => some true
  | _, _ => none

/-- Three-valued disjunction. -/
def truthOr : Option Bool → Option Bool → Option Bool
  | some true, _ | _, some true => some true
  | some false, some false => some false
  | _, _ => none

/-- `IN`: unknown when nothing is equal and some comparison is unknown. -/
def truthIn (nocase : Bool) (v : Value) (items : List Value) : Option Bool :=
  items.foldr (fun item rest ↦
    truthOr ((compareValues nocase v item).map fun o ↦ o.isEq) rest) (some false)

namespace Expr

/-- Whether a comparison folds case: an operand says so. -/
def isNocase : Expr → Bool
  | collateNocase _ => true
  | paren e => e.isNocase
  | _ => false

def eval : Expr → Env → Value
  | column source name, env => env.get source name
  | param index _, _ => bound params index
  | text s, _ => .text s
  | integer n, _ => .integer (Int64.ofNat n)
  | jsonType e path, env =>
    ((engine.member (eval e env) path).map fun v ↦ .text (Engine.typeName v)).getD .null
  | jsonExtract e path, env =>
    ((engine.member (eval e env) path).map engine.extracted).getD .null
  | ifnull e f, env | coalesce e f, env =>
    match eval e env with
    | .null => eval f env
    | v => v
  | collateNocase e, env => eval e env
  | compare op l r, env =>
    ofTruth ((compareValues (l.isNocase || r.isNocase) (eval l env) (eval r env)).map op.holds)
  | like e pattern escape, env => likeValue (eval e env) (eval pattern env) escape true
  | notLike e pattern, env => likeValue (eval e env) (eval pattern env) none false
  | concat l r, env =>
    match eval l env, eval r env with
    | .null, _ | _, .null => .null
    | v, w => .text (engine.textOf v ++ engine.textOf w)
  | add l r, env => engine.add (eval l env) (eval r env)
  | isNull e, env => ofTruth (some (eval e env == .null))
  | isNotNull e, env => ofTruth (some (eval e env != .null))
  | inList e items, env =>
    ofTruth (truthIn e.isNocase (eval e env) (items.map (Operand.eval params)))
  | and l r, env => ofTruth (truthAnd (engine.truth (eval l env)) (engine.truth (eval r env)))
  | or l r, env => ofTruth (truthOr (engine.truth (eval l env)) (engine.truth (eval r env)))
  | paren e, env => eval e env
  | caseWhen condition yes no, env =>
    if engine.truth (eval condition env) = some true then eval yes env else eval no env
  | notExists table source condition, env =>
    ofTruth (some !((db.table table).any fun row ↦
      engine.truth (eval condition ((source, row) :: env)) == some true))
where
  /-- `LIKE`, or its negation. -/
  likeValue (v pattern : Value) (escape : Option Char) (positive : Bool) : Value :=
    match v, pattern with
    | .null, _ | _, .null => .null
    | v, pattern =>
      ofTruth (some (engine.like (engine.textOf v) (engine.textOf pattern) escape == positive))

/-- Whether the row passes the condition. -/
def Holds (e : Expr) (env : Env) : Prop := engine.truth (e.eval engine db params env) = some true

instance (e : Expr) (env : Env) : Decidable (Holds engine db params e env) :=
  inferInstanceAs (Decidable (_ = _))

end Expr

end Evaluation

/-! ## Conditions that hold -/

section Holds

variable {engine : Engine} {db : Database} {params : List Value} {env : Env}

@[simp] theorem truth_ofTruth (t : Option Bool) : engine.truth (ofTruth t) = t := by
  rcases t with - | (_ | _) <;> rfl

theorem truthAnd_eq_true {s t : Option Bool} :
    truthAnd s t = some true ↔ s = some true ∧ t = some true := by
  rcases s with - | (_ | _) <;> rcases t with - | (_ | _) <;> simp [truthAnd]

theorem truthOr_eq_true {s t : Option Bool} :
    truthOr s t = some true ↔ s = some true ∨ t = some true := by
  rcases s with - | (_ | _) <;> rcases t with - | (_ | _) <;> simp [truthOr]

namespace Expr

section Eval

variable {l r e : Expr}

theorem eval_column (source name : String) :
    (column source name).eval engine db params env = env.get source name := rfl

theorem eval_jsonType (path : String) : (jsonType e path).eval engine db params env =
    ((engine.member (e.eval engine db params env) path).map
      fun v ↦ Value.text (Engine.typeName v)).getD .null := rfl

theorem eval_jsonExtract (path : String) : (jsonExtract e path).eval engine db params env =
    ((engine.member (e.eval engine db params env) path).map engine.extracted).getD .null := rfl

theorem eval_ifnull : (ifnull l r).eval engine db params env =
    match l.eval engine db params env with
    | .null => r.eval engine db params env
    | v => v := rfl

theorem eval_text (s : String) : (text s).eval engine db params env = .text s := rfl

theorem eval_integer (n : Nat) :
    (integer n).eval engine db params env = .integer (Int64.ofNat n) := rfl

theorem eval_coalesce : (coalesce l r).eval engine db params env =
    match l.eval engine db params env with
    | .null => r.eval engine db params env
    | v => v := rfl

theorem eval_compare {op : Comparison} : (compare op l r).eval engine db params env =
    ofTruth ((compareValues (l.isNocase || r.isNocase) (l.eval engine db params env)
      (r.eval engine db params env)).map op.holds) := rfl

theorem eval_isNull : e.isNull.eval engine db params env =
    ofTruth (some (e.eval engine db params env == .null)) := rfl

theorem eval_and : (l.and r).eval engine db params env =
    ofTruth (truthAnd (engine.truth (l.eval engine db params env))
      (engine.truth (r.eval engine db params env))) := rfl

theorem eval_or : (l.or r).eval engine db params env =
    ofTruth (truthOr (engine.truth (l.eval engine db params env))
      (engine.truth (r.eval engine db params env))) := rfl

theorem eval_paren : e.paren.eval engine db params env = e.eval engine db params env := rfl

theorem eval_notExists {table source : String} :
    (notExists table source e).eval engine db params env =
      ofTruth (some !((db.table table).any fun row ↦
        engine.truth (e.eval engine db params ((source, row) :: env)) == some true)) := rfl

end Eval

@[simp] theorem holds_and {l r : Expr} :
    (l.and r).Holds engine db params env ↔
      l.Holds engine db params env ∧ r.Holds engine db params env := by
  rw [Holds, eval_and, truth_ofTruth, truthAnd_eq_true]
  exact Iff.rfl

@[simp] theorem holds_or {l r : Expr} :
    (l.or r).Holds engine db params env ↔
      l.Holds engine db params env ∨ r.Holds engine db params env := by
  rw [Holds, eval_or, truth_ofTruth, truthOr_eq_true]
  exact Iff.rfl

@[simp] theorem holds_paren {e : Expr} :
    e.paren.Holds engine db params env ↔ e.Holds engine db params env := by
  rw [Holds, eval_paren]
  exact Iff.rfl

@[simp] theorem holds_isNull {e : Expr} :
    e.isNull.Holds engine db params env ↔ e.eval engine db params env = .null := by
  rw [Holds, eval_isNull, truth_ofTruth]
  simp

/-- Comparisons hold between values that compare. -/
theorem holds_compare {op : Comparison} {l r : Expr} :
    (compare op l r).Holds engine db params env ↔
      ∃ o, compareValues (l.isNocase || r.isNocase) (l.eval engine db params env)
        (r.eval engine db params env) = some o ∧ op.holds o = true := by
  rw [Holds, eval_compare, truth_ofTruth, Option.map_eq_some_iff]

@[simp] theorem holds_notExists {table source : String} {condition : Expr} :
    (notExists table source condition).Holds engine db params env ↔
      ∀ row ∈ db.table table, ¬ condition.Holds engine db params ((source, row) :: env) := by
  rw [Holds, eval_notExists, truth_ofTruth]
  simp [Holds]

end Expr

/-- Only the same text is equal to a text. -/
theorem compareValues_text_eq {v : Value} {s : String} :
    compareValues false v (.text s) = some .eq ↔ v = .text s := by
  cases v with
  | text t => simp [compareValues]
  | null | integer | real | blob => simp [compareValues]

theorem exists_compareValues_text {v : Value} {s : String} (h : v ≠ .null) :
    ∃ o, compareValues false v (.text s) = some o := by
  cases v with
  | null => exact absurd rfl h
  | text t => exact ⟨_, rfl⟩
  | integer | real | blob => exact ⟨_, rfl⟩

namespace Expr

/-- Equality where one side is known to be a text. -/
theorem holds_eq_of_text {l r : Expr} {s : String} (hl : l.isNocase = false)
    (hr : r.isNocase = false) (htext : r.eval engine db params env = .text s) :
    (compare .eq l r).Holds engine db params env ↔ l.eval engine db params env = .text s := by
  rw [holds_compare, hl, hr, htext, ← compareValues_text_eq]
  constructor
  · rintro ⟨o, ho, heq⟩
    obtain rfl : o = .eq := by simpa [Comparison.holds] using heq
    exact ho
  · exact fun h ↦ ⟨.eq, h, rfl⟩

theorem holds_eq_text {e : Expr} {s : String} (he : e.isNocase = false) :
    (compare .eq e (text s)).Holds engine db params env ↔
      e.eval engine db params env = .text s :=
  holds_eq_of_text he rfl rfl

theorem holds_ne_text {e : Expr} {s : String} (he : e.isNocase = false) :
    (compare .ne e (text s)).Holds engine db params env ↔
      e.eval engine db params env ≠ .null ∧ e.eval engine db params env ≠ .text s := by
  have hholds : ∀ o : Ordering, Comparison.ne.holds o = true ↔ o ≠ .eq := by
    intro o
    cases o <;> simp [Comparison.holds]
  have hnocase : (e.isNocase || (text s).isNocase) = false := by simp [he, isNocase]
  rw [holds_compare, hnocase]
  simp only [hholds, eval_text]
  rw [Ne, Ne, ← compareValues_text_eq]
  constructor
  · rintro ⟨o, ho, hne⟩
    constructor
    · intro hnull
      simp [hnull, compareValues] at ho
    · intro heq
      exact hne (Option.some.inj (ho.symm.trans heq))
  · rintro ⟨hnull, hne⟩
    obtain ⟨o, ho⟩ := exists_compareValues_text (s := s) hnull
    exact ⟨o, ho, fun h ↦ hne (h ▸ ho)⟩

/-- `COALESCE(e, 0) = 0` refuses what is unknown along with what is false. -/
theorem holds_coalesce_eq_zero {e : Expr} {t : Option Bool}
    (he : e.eval engine db params env = ofTruth t) :
    (compare .eq (coalesce e (integer 0)) (integer 0)).Holds engine db params env ↔
      ¬ e.Holds engine db params env := by
  have hholds : e.Holds engine db params env ↔ t = some true := by
    rw [Holds, he, truth_ofTruth]
  have hzero : compareValues false (.integer 0) (.integer 0) = some .eq := by decide +kernel
  have hone : compareValues false (.integer 1) (.integer 0) = some .gt := by decide +kernel
  have hliteral : Int64.ofNat 0 = 0 := rfl
  rw [hholds, holds_compare]
  simp only [eval_coalesce, eval_integer, he, isNocase, Bool.or_self, hliteral]
  rcases t with - | (_ | _)
  · simp [ofTruth, hzero, Comparison.holds]
  · simp [ofTruth, hzero, Comparison.holds]
  · simp [ofTruth, hone, Comparison.holds]

end Expr

end Holds

end Sql

end Khive
