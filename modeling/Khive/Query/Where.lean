import Khive.Foundation.Precedence
import Khive.Query.Compile

/-!
# What a `WHERE` clause means

The compiler writes a tree of conditions as text, with parentheses around an `OR` and nowhere else.
The text is read back here by the precedence of SQL, with any truth values for its conditions, and
compared with the tree. On a path of variable length the text goes out in pieces, on the start and
on the end of the path, and the pieces are read as one conjunction.

A subtree without a condition is always true. The compiler leaves it out, which is right below an
`AND`; below an `OR` it leaves the other operand standing where the whole is true. So the text has
the truth value of the tree, whatever the conditions are, exactly when no `OR` has one operand with
conditions and one without.
-/

namespace Khive

namespace Sql

open Precedence (Connectives Token Reads)

/-! ## Texts with `AND` and `OR` -/

/-- Three-valued logic, with `AND` over `OR`. -/
def logic : Connectives (Option Bool) where
  tight := truthAnd
  loose := truthOr
  all := some true
  none := some false
  tight_assoc u v w := by rcases u with - | (_ | _) <;> rcases v with - | (_ | _) <;>
    rcases w with - | (_ | _) <;> rfl
  loose_assoc u v w := by rcases u with - | (_ | _) <;> rcases v with - | (_ | _) <;>
    rcases w with - | (_ | _) <;> rfl
  all_tight v := by rcases v with - | (_ | _) <;> rfl
  none_loose v := by rcases v with - | (_ | _) <;> rfl

namespace Expr

/-- The text of a condition as its connectives, its parentheses, and what lies between them. -/
def tokens : Expr → List (Token Expr)
  | and l r => l.tokens ++ .tight :: r.tokens
  | or l r => l.tokens ++ .loose :: r.tokens
  | paren e => .opening :: (e.tokens ++ [.closing])
  | e => [.leaf e]

theorem tokens_and (l r : Expr) : (l.and r).tokens = l.tokens ++ .tight :: r.tokens := rfl

theorem tokens_or (l r : Expr) : (l.or r).tokens = l.tokens ++ .loose :: r.tokens := rfl

theorem tokens_paren (e : Expr) : e.paren.tokens = .opening :: (e.tokens ++ [.closing]) := rfl

def tokenText : Token Expr → String
  | .leaf e => e.render
  | .tight => " AND "
  | .loose => " OR "
  | .opening => "("
  | .closing => ")"

/-- Neither a connective nor parentheses are outermost. -/
def IsAtomic : Expr → Prop
  | and _ _ | or _ _ | paren _ => False
  | _ => True

theorem tokens_of_isAtomic {e : Expr} (h : e.IsAtomic) : e.tokens = [.leaf e] := by
  cases e <;> first | rfl | exact h.elim

theorem join_tokens_of_isAtomic {e : Expr} (h : e.IsAtomic) :
    String.join (e.tokens.map tokenText) = e.render := by
  rw [tokens_of_isAtomic h, List.map_singleton, String.join_cons, tokenText]
  simp

/-- The tokens spell the text. -/
theorem join_tokens (e : Expr) : String.join (e.tokens.map tokenText) = e.render := by
  induction e with
  | and l r ihl ihr =>
    rw [tokens_and, List.map_append, List.map_cons, String.join_append, String.join_cons, ihl, ihr]
    exact String.append_assoc.symm
  | or l r ihl ihr =>
    rw [tokens_or, List.map_append, List.map_cons, String.join_append, String.join_cons, ihl, ihr]
    exact String.append_assoc.symm
  | paren e ih =>
    rw [tokens_paren, List.map_cons, List.map_append, String.join_cons, String.join_append, ih]
    exact String.append_assoc.symm
  | _ => exact join_tokens_of_isAtomic trivial

end Expr

end Sql

namespace Query

open Sql (Expr Value truthAnd truthOr run_bind_eq_ok run_pure_eq_ok run_lift_eq_ok)
open Precedence (Reads)

/-! ## What the tree means -/

/-- The way down to an operand. -/
inductive Turn where
  | left
  | right

/-- Truth values for the conditions of a tree, by their places in it. -/
abbrev Assignment := List Turn → Option Bool

namespace Assignment

/-- The values below an operand. -/
def below (turn : Turn) (σ : Assignment) : Assignment := fun place ↦ σ (turn :: place)

theorem below_const (turn : Turn) (v : Option Bool) :
    below turn (fun _ ↦ v) = fun _ ↦ v := rfl

/-- The values of a tree from those of its operands. -/
def fork (l r : Assignment) : Assignment
  | [] => some true
  | .left :: place => l place
  | .right :: place => r place

end Assignment

namespace WhereExpr

/-- The truth value of the tree. -/
def value : WhereExpr → Assignment → Option Bool
  | and l r, σ => truthAnd (l.value (σ.below .left)) (r.value (σ.below .right))
  | or l r, σ => truthOr (l.value (σ.below .left)) (r.value (σ.below .right))
  | condition _, σ => σ []
  | true, _ => some .true

/-- The values of the conditions that are kept, from left to right. -/
def leafValues (keep : Condition → Bool) : WhereExpr → Assignment → List (Option Bool)
  | and l r, σ | or l r, σ =>
    l.leafValues keep (σ.below .left) ++ r.leafValues keep (σ.below .right)
  | condition c, σ => if keep c then [σ []] else []
  | true, _ => []

/-- No `OR` has one operand with conditions and one without. -/
def Balanced : WhereExpr → Prop
  | and l r => l.Balanced ∧ r.Balanced
  | or l r => (l.conditions = [] ↔ r.conditions = []) ∧ l.Balanced ∧ r.Balanced
  | condition _ => True
  | true => True

/-- The value of the tree without the operands that have no conditions. -/
def kept : WhereExpr → Assignment → Option (Option Bool)
  | and l r, σ => Option.merge truthAnd (l.kept (σ.below .left)) (r.kept (σ.below .right))
  | or l r, σ => Option.merge truthOr (l.kept (σ.below .left)) (r.kept (σ.below .right))
  | condition _, σ => some (σ [])
  | true, _ => none

theorem kept_eq_none {w : WhereExpr} {σ : Assignment} : w.kept σ = none ↔ w.conditions = [] := by
  induction w generalizing σ with
  | and l r ihl ihr | or l r ihl ihr =>
    rw [kept, conditions, List.append_eq_nil_iff, ← ihl (σ := σ.below .left),
      ← ihr (σ := σ.below .right)]
    cases l.kept (σ.below .left) <;> cases r.kept (σ.below .right) <;> simp
  | condition c => simp [kept, conditions]
  | true => simp [kept, conditions]

theorem truthOr_true (v : Option Bool) : truthOr v (some Bool.true) = some Bool.true := by
  rcases v with - | (_ | _) <;> rfl

theorem value_of_no_conditions {w : WhereExpr} (h : w.conditions = []) (σ : Assignment) :
    w.value σ = some Bool.true := by
  induction w generalizing σ with
  | and l r ihl ihr =>
    obtain ⟨hl, hr⟩ := List.append_eq_nil_iff.mp h
    rw [value, ihl hl, ihr hr]
    rfl
  | or l r ihl ihr =>
    obtain ⟨hl, hr⟩ := List.append_eq_nil_iff.mp h
    rw [value, ihl hl, ihr hr]
    rfl
  | condition c => cases h
  | true => rfl

/-- In a balanced tree nothing is lost. -/
theorem value_of_balanced {w : WhereExpr} (h : w.Balanced) (σ : Assignment) :
    (w.kept σ).getD (some Bool.true) = w.value σ := by
  induction w generalizing σ with
  | and l r ihl ihr =>
    rw [kept, value, ← ihl h.1, ← ihr h.2]
    rcases l.kept (σ.below .left) with - | (- | (_ | _)) <;>
      rcases r.kept (σ.below .right) with - | (- | (_ | _)) <;> rfl
  | or l r ihl ihr =>
    obtain ⟨hboth, hl, hr⟩ := h
    by_cases hempty : l.conditions = []
    · have hsome : (or l r).conditions = [] :=
        List.append_eq_nil_iff.mpr ⟨hempty, hboth.mp hempty⟩
      rw [kept_eq_none.mpr hsome, value_of_no_conditions hsome]
      rfl
    · have hl' : l.kept (σ.below .left) ≠ none := fun hnone ↦ hempty (kept_eq_none.mp hnone)
      have hr' : r.kept (σ.below .right) ≠ none :=
        fun hnone ↦ hempty (hboth.mpr (kept_eq_none.mp hnone))
      obtain ⟨x, hx⟩ := Option.ne_none_iff_exists'.mp hl'
      obtain ⟨y, hy⟩ := Option.ne_none_iff_exists'.mp hr'
      rw [kept, value, ← ihl hl, ← ihr hr, hx, hy]
      rfl
  | condition c => rfl
  | true => rfl

/-- With every condition false, whatever is kept is false. -/
theorem kept_false {w : WhereExpr} (h : w.conditions ≠ []) :
    w.kept (fun _ ↦ some Bool.false) = some (some Bool.false) := by
  have hall : ∀ w : WhereExpr, w.kept (fun _ ↦ some Bool.false) = none ∨
      w.kept (fun _ ↦ some Bool.false) = some (some Bool.false) := by
    intro w
    induction w with
    | and l r ihl ihr | or l r ihl ihr =>
      rcases ihl with hl | hl <;> rcases ihr with hr | hr <;>
        simp [kept, Assignment.below_const, hl, hr, truthAnd, truthOr]
    | condition c => exact .inr rfl
    | true => exact .inl rfl
  exact (hall w).resolve_left fun hnone ↦ h (kept_eq_none.mp hnone)

/-- With every condition true, the tree is true, and so is whatever is kept. -/
theorem value_true (w : WhereExpr) : w.value (fun _ ↦ some Bool.true) = some Bool.true := by
  induction w with
  | and l r ihl ihr | or l r ihl ihr =>
    rw [value, Assignment.below_const, Assignment.below_const, ihl, ihr]
    rfl
  | condition c => rfl
  | true => rfl

/-- **What an unbalanced tree loses**: some truth values make the tree true and what is kept of
it false. -/
theorem exists_lost {w : WhereExpr} (h : ¬ w.Balanced) :
    ∃ σ, w.kept σ = some (some Bool.false) ∧ w.value σ = some Bool.true := by
  induction w with
  | and l r ihl ihr =>
    rcases not_and_or.mp h with hl | hr
    · -- the other operand is made true, so what is lost decides
      obtain ⟨σ, hkept, hvalue⟩ := ihl hl
      refine ⟨.fork σ fun _ ↦ some Bool.true, ?_, ?_⟩
      · show Option.merge truthAnd (l.kept σ) _ = _
        rw [hkept]
        rcases r.kept _ with - | (- | (_ | _)) <;> rfl
      · show truthAnd (l.value σ) (r.value fun _ ↦ some Bool.true) = _
        rw [hvalue, value_true]
        rfl
    · obtain ⟨σ, hkept, hvalue⟩ := ihr hr
      refine ⟨.fork (fun _ ↦ some Bool.true) σ, ?_, ?_⟩
      · show Option.merge truthAnd _ (r.kept σ) = _
        rw [hkept]
        rcases l.kept _ with - | (- | (_ | _)) <;> rfl
      · show truthAnd (l.value fun _ ↦ some Bool.true) (r.value σ) = _
        rw [hvalue, value_true]
        rfl
  | or l r ihl ihr =>
    by_cases hone : l.conditions = [] ↔ r.conditions = []
    · -- one of the operands loses something, and the other has conditions to make false
      by_cases hl : l.Balanced
      · have hr : ¬ r.Balanced := fun hr ↦ h ⟨hone, hl, hr⟩
        obtain ⟨σ, hkept, hvalue⟩ := ihr hr
        have hsome : l.conditions ≠ [] := by
          rw [Ne, hone, ← kept_eq_none (σ := σ), hkept]
          exact Option.some_ne_none _
        refine ⟨.fork (fun _ ↦ some Bool.false) σ, ?_, ?_⟩
        · show Option.merge truthOr (l.kept fun _ ↦ some Bool.false) (r.kept σ) = _
          rw [hkept, kept_false hsome]
          rfl
        · show truthOr _ (r.value σ) = _
          rw [hvalue]
          exact truthOr_true _
      · obtain ⟨σ, hkept, hvalue⟩ := ihl hl
        have hsome : r.conditions ≠ [] := by
          rw [Ne, ← hone, ← kept_eq_none (σ := σ), hkept]
          exact Option.some_ne_none _
        refine ⟨.fork σ fun _ ↦ some Bool.false, ?_, ?_⟩
        · show Option.merge truthOr (l.kept σ) (r.kept fun _ ↦ some Bool.false) = _
          rw [hkept, kept_false hsome]
          rfl
        · show truthOr (l.value σ) _ = _
          rw [hvalue]
          rfl
    · -- an operand without conditions makes the whole true, and the other one is all that is kept
      refine ⟨fun _ ↦ some Bool.false, kept_false fun hnone ↦ hone ?_, ?_⟩
      · obtain ⟨hl, hr⟩ := List.append_eq_nil_iff.mp hnone
        exact iff_of_true hl hr
      · rw [value]
        by_cases hl : l.conditions = []
        · rw [value_of_no_conditions hl]
          rfl
        · have hr : r.conditions = [] := by
            by_contra hr
            exact hone (iff_of_false hl hr)
          rw [value_of_no_conditions hr]
          exact truthOr_true _
  | condition c => exact absurd trivial h
  | true => exact absurd trivial h

end WhereExpr

/-! ## What the text means -/

/-- The truth value of a condition that may be absent, given those of its leaves: read with `AND`
over `OR`, and true when there is none. -/
def Evaluates : Option Expr → List (Option Bool) → Option Bool → Prop
  | none, vs, v => vs = [] ∧ v = some true
  | some e, vs, v => Reads Sql.logic .whole e.tokens vs v

/-- Conditions joined by `AND`. -/
def conjoin : List Expr → Option Expr
  | [] => none
  | e :: es => combine .and (some e) (conjoin es)

/-- Joined, they are the text that a statement has. -/
theorem render_conjoin (es : List Expr) (hne : es ≠ []) :
    (conjoin es).map Expr.render = some (Sql.renderConjunction es) := by
  induction es with
  | nil => exact absurd rfl hne
  | cons e es ih =>
    cases es with
    | nil => simp [conjoin, combine, Sql.renderConjunction]
    | cons f es =>
      have hrest := ih (List.cons_ne_nil _ _)
      obtain ⟨g, hg, htext⟩ := Option.map_eq_some_iff.mp hrest
      have hjoined : conjoin (e :: f :: es) = some (.and e g) := by
        rw [conjoin, hg]
        rfl
      have hand : (Expr.and e g).render = e.render ++ " AND " ++ g.render := rfl
      rw [hjoined, Option.map_some, hand, htext]
      exact congrArg some String.intercalate_cons_cons.symm

/-- The condition is a chain that has what is kept of the tree as its value. -/
def Carries : Option Expr → List (Option Bool) → Option (Option Bool) → Prop
  | none, vs, x => vs = [] ∧ x = none
  | some e, vs, x => ∃ v, x = some v ∧ Reads Sql.logic .chain e.tokens vs v

namespace Carries

variable {o o' : Option Expr} {vs ws : List (Option Bool)} {x y : Option (Option Bool)}

/-- What a condition carries is all it can be read as. -/
theorem evaluates (h : Carries o vs x) (v : Option Bool) :
    Evaluates o vs v ↔ v = x.getD (some true) := by
  cases o with
  | none =>
    obtain ⟨rfl, rfl⟩ := h
    exact and_iff_right rfl
  | some e =>
    obtain ⟨w, rfl, hreads⟩ := h
    constructor
    · intro hv
      exact hv.unique hreads.chain
    · rintro rfl
      exact hreads.chain

theorem atomic {e : Expr} (h : e.IsAtomic) (v : Option Bool) :
    Carries (some e) [v] (some v) := by
  refine ⟨v, rfl, ?_⟩
  rw [Expr.tokens_of_isAtomic h]
  exact .atom (.leaf e v)

theorem and (h : Carries o vs x) (h' : Carries o' ws y) :
    Carries (combine .and o o') (vs ++ ws) (Option.merge truthAnd x y) := by
  cases o with
  | none =>
    obtain ⟨rfl, rfl⟩ := h
    cases o' <;> simpa [combine] using h'
  | some e =>
    obtain ⟨v, rfl, hreads⟩ := h
    cases o' with
    | none =>
      obtain ⟨rfl, rfl⟩ := h'
      exact ⟨v, rfl, by rwa [List.append_nil]⟩
    | some e' =>
      obtain ⟨w, rfl, hreads'⟩ := h'
      exact ⟨truthAnd v w, rfl, hreads.tight_chain hreads'⟩

/-- The parentheses make an atom of an `OR`. -/
theorem or (h : Carries o vs x) (h' : Carries o' ws y) :
    Carries (combine (fun l r ↦ .paren (.or l r)) o o') (vs ++ ws)
      (Option.merge truthOr x y) := by
  cases o with
  | none =>
    obtain ⟨rfl, rfl⟩ := h
    cases o' <;> simpa [combine] using h'
  | some e =>
    obtain ⟨v, rfl, hreads⟩ := h
    cases o' with
    | none =>
      obtain ⟨rfl, rfl⟩ := h'
      exact ⟨v, rfl, by rwa [List.append_nil]⟩
    | some e' =>
      obtain ⟨w, rfl, hreads'⟩ := h'
      exact ⟨truthOr v w, rfl, .atom (.group (hreads.chain.loose hreads'))⟩

end Carries

/-! ## Predicates -/

section Compiler

variable {tables : CharTables} {p p' : List Value} {e : Expr}

/-- A predicate is written without connectives. -/
theorem isAtomic_of_compileConditionPredicate {column : Expr} {c : Condition}
    (h : (compileConditionPredicate column c).run p = .ok (e, p')) : e.IsAtomic := by
  unfold compileConditionPredicate at h
  split at h
  -- `CONTAINS` and `STARTS WITH`
  case h_1 | h_2 =>
    unfold literalPredicate at h
    split at h
    · obtain ⟨param, p₁, -, h⟩ := run_bind_eq_ok.mp h
      obtain ⟨rfl, -⟩ := run_pure_eq_ok.mp h
      trivial
    · exact absurd h Sql.run_throw_ne_ok
  case h_3 =>
    unfold inPredicate at h
    split at h
    · obtain ⟨rfl, -⟩ := run_pure_eq_ok.mp h
      trivial
    · obtain ⟨items, p₁, -, h⟩ := run_bind_eq_ok.mp h
      obtain ⟨rfl, -⟩ := run_pure_eq_ok.mp h
      trivial
    · exact absurd h Sql.run_throw_ne_ok
  -- `IS NULL` and `IS NOT NULL`
  case h_4 | h_5 =>
    unfold nullPredicate at h
    split at h
    · obtain ⟨rfl, -⟩ := run_pure_eq_ok.mp h
      trivial
    · exact absurd h Sql.run_throw_ne_ok
  -- the comparisons
  all_goals
    obtain ⟨v, p₁, -, h⟩ := run_bind_eq_ok.mp h
    obtain ⟨param, p₂, -, h⟩ := run_bind_eq_ok.mp h
    obtain ⟨rfl, -⟩ := run_pure_eq_ok.mp h
    trivial

/-! ## The clause of a chain of joins -/

/-- The clause carries what is kept of the tree. -/
theorem carries_compileWhereExpr {vars : Variables} {w : WhereExpr} {o : Option Expr}
    (h : (compileWhereExpr tables vars w).run p = .ok (o, p')) (σ : Assignment) :
    Carries o (w.leafValues (fun _ ↦ true) σ) (w.kept σ) := by
  induction w generalizing p p' o σ with
  | true =>
    obtain ⟨rfl, -⟩ := run_pure_eq_ok.mp h
    exact ⟨rfl, rfl⟩
  | condition c =>
    obtain ⟨e, p₁, he, h⟩ := run_bind_eq_ok.mp h
    obtain ⟨rfl, -⟩ := run_pure_eq_ok.mp h
    unfold compileSingleCondition at he
    split at he
    · exact absurd he Sql.run_throw_ne_ok
    · obtain ⟨column, p₁, -, he⟩ := run_bind_eq_ok.mp he
      exact .atomic (isAtomic_of_compileConditionPredicate he) (σ [])
  | and l r ihl ihr =>
    obtain ⟨ol, p₁, hl, h⟩ := run_bind_eq_ok.mp h
    obtain ⟨or, p₂, hr, h⟩ := run_bind_eq_ok.mp h
    obtain ⟨rfl, -⟩ := run_pure_eq_ok.mp h
    exact (ihl hl _).and (ihr hr _)
  | or l r ihl ihr =>
    obtain ⟨ol, p₁, hl, h⟩ := run_bind_eq_ok.mp h
    obtain ⟨or, p₂, hr, h⟩ := run_bind_eq_ok.mp h
    obtain ⟨rfl, -⟩ := run_pure_eq_ok.mp h
    exact (ihl hl _).or (ihr hr _)

/-! ## The pieces of a path of variable length -/

variable {start stop : Option String}

/-- The condition is on the start. -/
def onStart (start : Option String) (c : Condition) : Bool := start == some c.var

/-- Every condition is on one side. -/
def OnSide (start : Option String) (side : Bool) (w : WhereExpr) : Prop :=
  ∀ c ∈ w.conditions, onStart start c = side

theorem exprEndpointSet_eq (w : WhereExpr) :
    exprEndpointSet start stop w =
      (w.conditions.any fun c ↦ start == some c.var, w.conditions.any fun c ↦ stop == some c.var) := by
  induction w with
  | and l r ihl ihr | or l r ihl ihr =>
    rw [exprEndpointSet, ihl, ihr, WhereExpr.conditions, List.any_append, List.any_append]
  | condition c => simp [exprEndpointSet, WhereExpr.conditions]
  | true => rfl

/-- The values on a side, of a tree that is on this side or on the other one. -/
theorem leafValues_of_onSide {w : WhereExpr} {side : Bool} (h : OnSide start side w)
    (σ : Assignment) (keep : Bool) :
    w.leafValues (fun c ↦ onStart start c == keep) σ =
      if side = keep then w.leafValues (fun _ ↦ true) σ else [] := by
  induction w generalizing σ with
  | and l r ihl ihr | or l r ihl ihr =>
    obtain ⟨hl, hr⟩ := List.forall_mem_append.mp h
    rw [WhereExpr.leafValues, WhereExpr.leafValues, ihl hl, ihr hr]
    split_ifs <;> rfl
  | condition c =>
    rw [WhereExpr.leafValues, h c List.mem_cons_self]
    by_cases hside : side = keep <;> simp [hside, WhereExpr.leafValues]
  | true =>
    rw [WhereExpr.leafValues]
    split_ifs <;> rfl

theorem compileVarLenCondition_eq_ok {c : Condition} {side : Bool}
    (h : (compileVarLenCondition tables start stop c).run p = .ok ((e, side), p')) :
    e.IsAtomic ∧ onStart start c = side ∧ (side = false → stop = some c.var) := by
  unfold compileVarLenCondition at h
  split_ifs at h with hstart hstop
  · obtain ⟨column, p₁, -, h⟩ := run_bind_eq_ok.mp h
    obtain ⟨e', p₂, he, h⟩ := run_bind_eq_ok.mp h
    obtain ⟨heq, -⟩ := run_pure_eq_ok.mp h
    obtain ⟨rfl, rfl⟩ := Prod.mk.inj heq
    exact ⟨isAtomic_of_compileConditionPredicate he, beq_iff_eq.mpr hstart, fun hside ↦ nomatch hside⟩
  · obtain ⟨column, p₁, -, h⟩ := run_bind_eq_ok.mp h
    obtain ⟨e', p₂, he, h⟩ := run_bind_eq_ok.mp h
    obtain ⟨heq, -⟩ := run_pure_eq_ok.mp h
    obtain ⟨rfl, rfl⟩ := Prod.mk.inj heq
    exact ⟨isAtomic_of_compileConditionPredicate he, beq_eq_false_iff_ne.mpr hstart, fun _ ↦ hstop⟩
  · exact absurd h Sql.run_throw_ne_ok

theorem map_fst_combineEndpoint (join : Expr → Expr → Expr) (x y : Option (Expr × Bool)) :
    (combineEndpoint join x y).map Prod.fst =
      combine join (x.map Prod.fst) (y.map Prod.fst) := by
  cases x <;> cases y <;> rfl

/-- The side of a piece is that of one of its operands. -/
theorem side_combineEndpoint {join : Expr → Expr → Expr} {x y : Option (Expr × Bool)} {side : Bool}
    (h : (combineEndpoint join x y).map Prod.snd = some side) :
    x.map Prod.snd = some side ∨ y.map Prod.snd = some side := by
  cases x with
  | none => cases y <;> exact .inr h
  | some x => cases y <;> exact .inl h

/-- **One piece**: it carries what is kept of the tree, every condition of which is on the start
or on the end, and it is on the side of one of them. -/
theorem carries_compileVariableLengthWhereToSql {w : WhereExpr} {x : Option (Expr × Bool)}
    (h : (compileVariableLengthWhereToSql tables start stop w).run p = .ok (x, p')) :
    (∀ σ, Carries (x.map Prod.fst) (w.leafValues (fun _ ↦ true) σ) (w.kept σ)) ∧
      (∀ c ∈ w.conditions, onStart start c = false → stop = some c.var) ∧
      ∀ side, x.map Prod.snd = some side → ∃ c ∈ w.conditions, onStart start c = side := by
  induction w generalizing p p' x with
  | true =>
    obtain ⟨rfl, -⟩ := run_pure_eq_ok.mp h
    refine ⟨fun _ ↦ ⟨rfl, rfl⟩, fun c hc ↦ ?_, fun side hside ↦ ?_⟩
    · exact absurd hc List.not_mem_nil
    · exact nomatch hside
  | condition c =>
    obtain ⟨⟨e, side⟩, p₁, he, h⟩ := run_bind_eq_ok.mp h
    obtain ⟨rfl, -⟩ := run_pure_eq_ok.mp h
    obtain ⟨hatomic, hside, hstop⟩ := compileVarLenCondition_eq_ok he
    refine ⟨fun σ ↦ .atomic hatomic (σ []), fun d hd hfalse ↦ ?_, fun side' hside' ↦ ?_⟩
    · obtain rfl := List.mem_singleton.mp hd
      exact hstop (hside.symm.trans hfalse)
    · obtain rfl := Option.some.inj hside'
      exact ⟨c, List.mem_cons_self, hside⟩
  | and l r ihl ihr =>
    obtain ⟨xl, p₁, hl, h⟩ := run_bind_eq_ok.mp h
    obtain ⟨xr, p₂, hr, h⟩ := run_bind_eq_ok.mp h
    obtain ⟨rfl, -⟩ := run_pure_eq_ok.mp h
    obtain ⟨hcarries, hstop, hside⟩ := ihl hl
    obtain ⟨hcarries', hstop', hside'⟩ := ihr hr
    refine ⟨fun σ ↦ ?_, List.forall_mem_append.mpr ⟨hstop, hstop'⟩, fun side h ↦ ?_⟩
    · rw [map_fst_combineEndpoint]
      exact (hcarries _).and (hcarries' _)
    · rcases side_combineEndpoint h with h | h
      · obtain ⟨c, hc, hc'⟩ := hside side h
        exact ⟨c, List.mem_append_left _ hc, hc'⟩
      · obtain ⟨c, hc, hc'⟩ := hside' side h
        exact ⟨c, List.mem_append_right _ hc, hc'⟩
  | or l r ihl ihr =>
    obtain ⟨xl, p₁, hl, h⟩ := run_bind_eq_ok.mp h
    obtain ⟨xr, p₂, hr, h⟩ := run_bind_eq_ok.mp h
    obtain ⟨rfl, -⟩ := run_pure_eq_ok.mp h
    obtain ⟨hcarries, hstop, hside⟩ := ihl hl
    obtain ⟨hcarries', hstop', hside'⟩ := ihr hr
    refine ⟨fun σ ↦ ?_, List.forall_mem_append.mpr ⟨hstop, hstop'⟩, fun side h ↦ ?_⟩
    · rw [map_fst_combineEndpoint]
      exact (hcarries _).or (hcarries' _)
    · rcases side_combineEndpoint h with h | h
      · obtain ⟨c, hc, hc'⟩ := hside side h
        exact ⟨c, List.mem_append_left _ hc, hc'⟩
      · obtain ⟨c, hc, hc'⟩ := hside' side h
        exact ⟨c, List.mem_append_right _ hc, hc'⟩

/-- The conditions of a list, one after the other, with what they carry together. -/
inductive CarriesAll : List Expr → List (Option Bool) → Option (Option Bool) → Prop
  | nil : CarriesAll [] [] none
  | cons {e : Expr} {es : List Expr} {vs ws : List (Option Bool)} {x y : Option (Option Bool)}
      (h : Carries (some e) vs x) (hs : CarriesAll es ws y) :
      CarriesAll (e :: es) (vs ++ ws) (Option.merge truthAnd x y)

theorem truthAnd_assoc (u v w : Option Bool) :
    truthAnd (truthAnd u v) w = truthAnd u (truthAnd v w) := Sql.logic.tight_assoc u v w

theorem truthAnd_comm (u v : Option Bool) : truthAnd u v = truthAnd v u := by
  rcases u with - | (_ | _) <;> rcases v with - | (_ | _) <;> rfl

theorem merge_assoc (x y z : Option (Option Bool)) :
    Option.merge truthAnd (Option.merge truthAnd x y) z =
      Option.merge truthAnd x (Option.merge truthAnd y z) := by
  cases x <;> cases y <;> cases z <;> simp [Option.merge, truthAnd_assoc]

theorem merge_comm (x y : Option (Option Bool)) :
    Option.merge truthAnd x y = Option.merge truthAnd y x := by
  cases x <;> cases y <;> simp [Option.merge, truthAnd_comm]

namespace CarriesAll

variable {es fs : List Expr} {vs ws : List (Option Bool)} {x y : Option (Option Bool)}

theorem append (h : CarriesAll es vs x) (h' : CarriesAll fs ws y) :
    CarriesAll (es ++ fs) (vs ++ ws) (Option.merge truthAnd x y) := by
  induction h with
  | nil =>
    cases y <;> exact h'
  | cons he _ ih =>
    rw [merge_assoc, List.append_assoc]
    exact .cons he ih

/-- Joined by `AND`, they are one condition. -/
theorem carries (h : CarriesAll es vs x) : Carries (conjoin es) vs x := by
  induction h with
  | nil => exact ⟨rfl, rfl⟩
  | cons he _ ih => exact he.and ih

theorem of_carries {o : Option Expr} (h : Carries o vs x) : CarriesAll o.toList vs x := by
  cases o with
  | none =>
    obtain ⟨rfl, rfl⟩ := h
    exact .nil
  | some e =>
    have hall := cons h nil
    rw [List.append_nil] at hall
    obtain ⟨v, rfl, -⟩ := h
    exact hall

end CarriesAll

/-- **Where an accepted `OR` goes**: it mentions one endpoint alone, so all of it is on the side of
the piece. -/
theorem onSide_of_accepted {w : WhereExpr} {side : Bool}
    (haccepted : ((exprEndpointSet start stop w).1 && (exprEndpointSet start stop w).2) = false)
    (hstop : ∀ c ∈ w.conditions, onStart start c = false → stop = some c.var)
    (hside : ∃ c ∈ w.conditions, onStart start c = side) : OnSide start side w := by
  rw [exprEndpointSet_eq] at haccepted
  obtain ⟨c, hc, rfl⟩ := hside
  intro d hd
  cases hcstart : onStart start c with
  | true =>
    by_contra hdstart
    rw [Bool.not_eq_true] at hdstart
    have hmentioned : (w.conditions.any fun c ↦ start == some c.var) = true :=
      List.any_eq_true.mpr ⟨c, hc, hcstart⟩
    have hended : (w.conditions.any fun c ↦ stop == some c.var) = true :=
      List.any_eq_true.mpr ⟨d, hd, beq_iff_eq.mpr (hstop d hd hdstart)⟩
    rw [hmentioned, hended] at haccepted
    cases haccepted
  | false =>
    by_contra hdstart
    rw [Bool.not_eq_false] at hdstart
    have hmentioned : (w.conditions.any fun c ↦ start == some c.var) = true :=
      List.any_eq_true.mpr ⟨d, hd, hdstart⟩
    have hended : (w.conditions.any fun c ↦ stop == some c.var) = true :=
      List.any_eq_true.mpr ⟨c, hc, beq_iff_eq.mpr (hstop c hc hcstart)⟩
    rw [hmentioned, hended] at haccepted
    cases haccepted

/-- An accepted `OR` mentions one endpoint alone. -/
theorem not_spans_of_accepted {l r : WhereExpr}
    (haccepted : rejectOrSpanning start stop (.or l r) = .ok ()) :
    ((exprEndpointSet start stop (.or l r)).1 && (exprEndpointSet start stop (.or l r)).2) =
      false := by
  rw [exprEndpointSet]
  by_contra hboth
  rw [Bool.not_eq_false] at hboth
  rw [rejectOrSpanning] at haccepted
  simp only [hboth, if_true] at haccepted
  exact absurd haccepted throw_ne_ok

/-- The pieces carry what is kept of the tree: those on the start with the values on the start,
those on the end with the values on the end. -/
theorem carries_compileVariableLengthWhere {w : WhereExpr} {r : Routed}
    (haccepted : rejectOrSpanning start stop w = .ok ())
    (h : (compileVariableLengthWhere tables start stop w).run p = .ok (r, p')) (σ : Assignment) :
    ∃ x y, CarriesAll r.start (w.leafValues (fun c ↦ onStart start c == true) σ) x ∧
      CarriesAll r.stop (w.leafValues (fun c ↦ onStart start c == false) σ) y ∧
      Option.merge truthAnd x y = w.kept σ := by
  induction w generalizing p p' r σ with
  | true =>
    obtain ⟨rfl, -⟩ := run_pure_eq_ok.mp h
    exact ⟨none, none, .nil, .nil, rfl⟩
  | condition c =>
    obtain ⟨⟨e, side⟩, p₁, he, h⟩ := run_bind_eq_ok.mp h
    obtain ⟨rfl, -⟩ := run_pure_eq_ok.mp h
    obtain ⟨hatomic, hside, -⟩ := compileVarLenCondition_eq_ok he
    have hcarries := CarriesAll.of_carries (.atomic hatomic (σ []))
    simp only [WhereExpr.leafValues, hside]
    cases side with
    | true => exact ⟨_, none, hcarries, .nil, rfl⟩
    | false => exact ⟨none, _, .nil, hcarries, rfl⟩
  | and l r ihl ihr =>
    obtain ⟨hl, hr⟩ := seq_eq_ok.mp haccepted
    obtain ⟨rl, p₁, hrl, h⟩ := run_bind_eq_ok.mp h
    obtain ⟨rr, p₂, hrr, h⟩ := run_bind_eq_ok.mp h
    obtain ⟨rfl, -⟩ := run_pure_eq_ok.mp h
    obtain ⟨xl, yl, hxl, hyl, hkeptl⟩ := ihl hl hrl (σ.below .left)
    obtain ⟨xr, yr, hxr, hyr, hkeptr⟩ := ihr hr hrr (σ.below .right)
    refine ⟨_, _, hxl.append hxr, hyl.append hyr, ?_⟩
    rw [WhereExpr.kept, ← hkeptl, ← hkeptr]
    -- the pieces of the two operands are regrouped by the side they are on
    calc Option.merge truthAnd (Option.merge truthAnd xl xr) (Option.merge truthAnd yl yr)
      _ = Option.merge truthAnd xl (Option.merge truthAnd (Option.merge truthAnd xr yl) yr) := by
        rw [merge_assoc, merge_assoc]
      _ = Option.merge truthAnd xl (Option.merge truthAnd (Option.merge truthAnd yl xr) yr) := by
        rw [merge_comm xr yl]
      _ = Option.merge truthAnd (Option.merge truthAnd xl yl) (Option.merge truthAnd xr yr) := by
        rw [merge_assoc, merge_assoc]
  | or l r ihl ihr =>
    obtain ⟨xl, p₁, hl, h⟩ := run_bind_eq_ok.mp h
    obtain ⟨xr, p₂, hr, h⟩ := run_bind_eq_ok.mp h
    obtain ⟨rfl, -⟩ := run_pure_eq_ok.mp h
    -- an `OR` stays one piece, and `rejectOrSpanning` has put all of it on one side
    have hpiece : (compileVariableLengthWhereToSql tables start stop (.or l r)).run p =
        .ok (combineEndpoint (fun l r ↦ .paren (.or l r)) xl xr, p₂) :=
      run_bind_eq_ok.mpr ⟨xl, p₁, hl, run_bind_eq_ok.mpr
        ⟨xr, p₂, hr, run_pure_eq_ok.mpr ⟨rfl, rfl⟩⟩⟩
    obtain ⟨hcarries, hstop, hside⟩ := carries_compileVariableLengthWhereToSql hpiece
    have hspans := not_spans_of_accepted haccepted
    have hcarries := hcarries σ
    cases hpieces : combineEndpoint (fun l r ↦ .paren (.or l r)) xl xr with
    | none =>
      rw [hpieces] at hcarries
      obtain ⟨hvalues, hkept⟩ := hcarries
      have hempty : OnSide start true (.or l r) := by
        intro c hc
        rw [WhereExpr.kept_eq_none.mp hkept] at hc
        exact absurd hc List.not_mem_nil
      rw [leafValues_of_onSide hempty, leafValues_of_onSide hempty, hvalues, hkept]
      exact ⟨none, none, .nil, .nil, rfl⟩
    | some piece =>
      obtain ⟨e, side⟩ := piece
      rw [hpieces] at hcarries hside
      have honSide := onSide_of_accepted hspans hstop (hside side rfl)
      rw [leafValues_of_onSide honSide, leafValues_of_onSide honSide]
      have hall := CarriesAll.of_carries hcarries
      cases side with
      | true => exact ⟨_, none, hall, .nil, Option.merge_none_right⟩
      | false => exact ⟨none, _, .nil, hall, Option.merge_none_left⟩

/-! ## The tree and its text -/

/-- What carries the value of what is kept is read as the tree exactly when the tree is balanced. -/
theorem preserved_iff {w : WhereExpr} {o : Option Expr} {vs : Assignment → List (Option Bool)}
    (h : ∀ σ, Carries o (vs σ) (w.kept σ)) :
    (∀ σ v, Evaluates o (vs σ) v ↔ v = w.value σ) ↔ w.Balanced := by
  constructor
  · intro hpreserved
    by_contra hunbalanced
    obtain ⟨σ, hkept, hvalue⟩ := WhereExpr.exists_lost hunbalanced
    have hread := ((h σ).evaluates (some false)).mpr (by rw [hkept]; rfl)
    have hfalse := (hpreserved σ (some false)).mp hread
    rw [hvalue] at hfalse
    cases hfalse
  · intro hbalanced σ v
    rw [(h σ).evaluates, WhereExpr.value_of_balanced hbalanced]

end Compiler

/-- **What a `WHERE` clause means**: on a chain of joins, and on a path of variable length whose
tree is accepted, the text has the truth value of the tree for every choice of truth values of its
conditions exactly when no `OR` has one operand with conditions and one without. -/
theorem where_preserved_iff (tables : CharTables) (w : WhereExpr) :
    (∀ (vars : Variables) (p p' : List Value) (o : Option Expr),
      (compileWhereExpr tables vars w).run p = .ok (o, p') →
        ((∀ σ v, Evaluates o (w.leafValues (fun _ ↦ true) σ) v ↔ v = w.value σ) ↔ w.Balanced)) ∧
    ∀ (start stop : Option String) (p p' : List Value) (r : Routed),
      rejectOrSpanning start stop w = .ok () →
      (compileVariableLengthWhere tables start stop w).run p = .ok (r, p') →
        ((∀ σ v, Evaluates (conjoin (r.start ++ r.stop))
            (w.leafValues (fun c ↦ onStart start c == true) σ ++
              w.leafValues (fun c ↦ onStart start c == false) σ) v ↔ v = w.value σ) ↔
          w.Balanced) := by
  constructor
  · intro vars p p' o h
    exact preserved_iff fun σ ↦ carries_compileWhereExpr h σ
  · intro start stop p p' r haccepted h
    refine preserved_iff fun σ ↦ ?_
    obtain ⟨x, y, hstart, hstop, hkept⟩ := carries_compileVariableLengthWhere haccepted h σ
    rw [← hkept]
    exact (hstart.append hstop).carries

/-- Characters of ASCII alone. -/
private def plainTables : CharTables := ⟨Char.isAlphanum, fun _ ↦ false⟩

private def absent (name : String) : WhereExpr := .condition ⟨"a", .field name, .isNull, .null⟩

private def absentText (source name : String) : Expr := .isNull (.column source name)

/-- On `a.name IS NULL OR a.kind IS NULL` the text means the tree, for a node that is joined and
for a node that starts a path. -/
theorem absent_or_absent_preserved :
    (∀ σ v, Evaluates (some (.paren (.or (absentText "n0" "name") (absentText "n0" "kind"))))
        [σ [.left], σ [.right]] v ↔
      v = (WhereExpr.or (absent "name") (absent "kind")).value σ) ∧
    ∀ σ v, Evaluates (some (.paren (.or (absentText "s" "name") (absentText "s" "kind"))))
        [σ [.left], σ [.right]] v ↔
      v = (WhereExpr.or (absent "name") (absent "kind")).value σ :=
  ⟨((where_preserved_iff plainTables (.or (absent "name") (absent "kind"))).1
      [("a", "n0", .node)] [] [] _ rfl).mpr ⟨by decide, trivial, trivial⟩,
    ((where_preserved_iff plainTables (.or (absent "name") (absent "kind"))).2
      (some "a") (some "b") [] [] ⟨[_], []⟩ rfl rfl).mpr ⟨by decide, trivial, trivial⟩⟩

/-- `TRUE OR a.name IS NULL` is true, and its text is `n0.name IS NULL`. -/
theorem true_or_absent_lost :
    (compileWhereExpr plainTables [("a", "n0", .node)] (.or .true (absent "name"))).run [] =
        .ok (some (absentText "n0" "name"), []) ∧
      ¬ ∀ σ v, Evaluates (some (absentText "n0" "name"))
          ((WhereExpr.or .true (absent "name")).leafValues (fun _ ↦ true) σ) v ↔
        v = (WhereExpr.or .true (absent "name")).value σ := by
  refine ⟨rfl, fun h ↦ ?_⟩
  have hread : Evaluates (some (absentText "n0" "name")) [some false] (some false) :=
    .chain (.atom (.leaf _ _))
  have hlost := (h (fun _ ↦ some false) (some false)).mp hread
  cases hlost

end Query

end Khive
