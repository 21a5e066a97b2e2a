import Khive.Charter.Registry

/-!
# Indentation

The lexer turns the lines of a source into a forest by their indents. A first pass bounds the number
of indents that are open at once. A second one reads the blocks: a block is the lines deeper than
its parent, all of the indent of its first line but for the blocks of these lines. The first pass
forgets an indent that no block uses and the second one keeps its block open, so the indents of the
two are compared one by one from the outermost on: those of the pass are never larger.
-/

namespace Khive.Charter.Lex

inductive Tok where
  | word (text : String)
  | str (text : String)
  | int (value : ℤ)
  | duration (value : ℤ)
  | lParen
  | rParen
  | comma
  | eq
  | colon
  | op (text : String)

structure Line where
  number : ℕ
  indent : ℕ
  toks : List Tok

/-- A line and the lines indented under it. -/
structure Node where
  line : Line
  children : List Node

/-- `MAX_NESTING_DEPTH`. -/
def maxNestingDepth : ℕ := 64

/-! ## The pass over the levels -/

/-- The stack of levels after a line, the last one first. -/
def openAfter (levels : List ℕ) (indent : ℕ) : List ℕ :=
  indent :: levels.dropWhile fun level ↦ decide (indent ≤ level)

/-- The first loop of `tree`. -/
def checkLevels : List ℕ → List Line → Except (List Diagnostic) Unit
  | _, [] => .ok ()
  | levels, line :: lines =>
    let levels := openAfter levels line.indent
    if maxNestingDepth < levels.length then
      .error [⟨line.number, "nesting_too_deep",
        s!"source nesting exceeds the {maxNestingDepth} level limit"⟩]
    else checkLevels levels lines

/-! ## Blocks -/

/-- What a call of `block` returns, the errors it was given included, and the lines it leaves. -/
structure Block where
  nodes : List Node
  errors : List Diagnostic
  rest : List Line

/-- A line that belongs to the block of the parent. -/
def inBlock (parentIndent : Option ℕ) (line : Line) : Bool :=
  parentIndent.all fun parent ↦ decide (parent < line.indent)

def indentMismatch (line : Line) : Diagnostic :=
  ⟨line.number, "indent_mismatch", "this line dedents to a level no enclosing block uses"⟩

def indentUnexpected (line : Line) : Diagnostic :=
  ⟨line.number, "indent_unexpected", "unexpected indent"⟩

/-- A block of children goes to the last node, if that has none yet. -/
def attach (nodes : List Node) (children : List Node) (deeper : Line) :
    List Node × List Diagnostic :=
  match nodes.getLast? with
  | some last =>
    if last.children.isEmpty then (nodes.dropLast ++ [{ last with children }], [])
    else (nodes, [indentUnexpected deeper])
  | none => (nodes, [indentUnexpected deeper])

/-- `block`, with the rounds of its loops and the calls below it that may still be made; `none` when
either runs out. -/
def block : ℕ → ℕ → List Line → Option ℕ → Option ℕ → List Node → List Diagnostic → Option Block
  | 0, _, _, _, _, _, _ => none
  | _ + 1, _, [], _, _, nodes, errors => some ⟨nodes, errors, []⟩
  | rounds + 1, depth, next :: lines, parentIndent, level, nodes, errors =>
    if !inBlock parentIndent next then some ⟨nodes, errors, next :: lines⟩
    else
      match level with
      | none =>
        block rounds depth lines parentIndent (some next.indent) (nodes ++ [⟨next, []⟩]) errors
      | some l =>
        if next.indent < l then
          block rounds depth lines parentIndent level nodes (errors ++ [indentMismatch next])
        else if l < next.indent then
          match depth with
          | 0 => none
          | below + 1 =>
            (block rounds below (next :: lines) (some l) none [] errors).bind fun inner ↦
              let (nodes, unexpected) := attach nodes inner.nodes next
              block rounds depth inner.rest parentIndent level nodes (inner.errors ++ unexpected)
        else block rounds depth lines parentIndent level (nodes ++ [⟨next, []⟩]) errors

/-- Enough rounds for the loops of `block`: one for each line and one for each block of it. -/
def roundsFor (lines : List Line) : ℕ := 2 * lines.length + 2

/-- `tree`; `none` when the recursion of `block` goes deeper than the limit. -/
def tree (lines : List Line) : Option (Except (List Diagnostic) (List Node)) :=
  match checkLevels [] lines with
  | .error errors => some (.error errors)
  | .ok () => do
    let result ← block (roundsFor lines) (maxNestingDepth - 1) lines none none [] []
    some (if result.errors.isEmpty then .ok result.nodes else .error result.errors)

/-- The rounds of a call of `block`, with those of the calls below it. -/
inductive Reads : Option ℕ → Option ℕ → List Node → List Diagnostic → List Line → Block → Prop
  | done {parentIndent level nodes errors} :
      Reads parentIndent level nodes errors [] ⟨nodes, errors, []⟩
  | leave {parentIndent level nodes errors line lines} (h : inBlock parentIndent line = false) :
      Reads parentIndent level nodes errors (line :: lines) ⟨nodes, errors, line :: lines⟩
  | first {parentIndent nodes errors line lines result} (h : inBlock parentIndent line = true)
      (hrest : Reads parentIndent (some line.indent) (nodes ++ [⟨line, []⟩]) errors lines result) :
      Reads parentIndent none nodes errors (line :: lines) result
  | mismatch {parentIndent l nodes errors line lines result} (h : inBlock parentIndent line = true)
      (hlt : line.indent < l)
      (hrest : Reads parentIndent (some l) nodes (errors ++ [indentMismatch line]) lines result) :
      Reads parentIndent (some l) nodes errors (line :: lines) result
  | aligned {parentIndent nodes errors line lines result} (h : inBlock parentIndent line = true)
      (hrest : Reads parentIndent (some line.indent) (nodes ++ [⟨line, []⟩]) errors lines result) :
      Reads parentIndent (some line.indent) nodes errors (line :: lines) result
  | deeper {parentIndent l nodes errors line lines inner result}
      (h : inBlock parentIndent line = true) (hlt : l < line.indent)
      (hinner : Reads (some l) none [] errors (line :: lines) inner)
      (hrest : Reads parentIndent (some l) (attach nodes inner.nodes line).1
        (inner.errors ++ (attach nodes inner.nodes line).2) inner.rest result) :
      Reads parentIndent (some l) nodes errors (line :: lines) result

section Block

variable {rounds depth l : ℕ} {lines others : List Line} {line : Line} {parentIndent : Option ℕ}
  {level : Option ℕ} {nodes : List Node} {errors : List Diagnostic} {result : Block}

@[simp] theorem inBlock_iff :
    inBlock parentIndent line = true ↔ ∀ parent ∈ parentIndent, parent < line.indent := by
  simp [inBlock, Option.all_eq_true]

/-! ### The rounds of the loop -/

theorem block_nil : block (rounds + 1) depth [] parentIndent level nodes errors =
    some ⟨nodes, errors, []⟩ := rfl

theorem block_cons : block (rounds + 1) depth (line :: lines) parentIndent level nodes errors =
    if !inBlock parentIndent line then some ⟨nodes, errors, line :: lines⟩
    else
      match level with
      | none =>
        block rounds depth lines parentIndent (some line.indent) (nodes ++ [⟨line, []⟩]) errors
      | some l =>
        if line.indent < l then
          block rounds depth lines parentIndent level nodes (errors ++ [indentMismatch line])
        else if l < line.indent then
          match depth with
          | 0 => none
          | below + 1 =>
            (block rounds below (line :: lines) (some l) none [] errors).bind fun inner ↦
              block rounds depth inner.rest parentIndent level (attach nodes inner.nodes line).1
                (inner.errors ++ (attach nodes inner.nodes line).2)
        else block rounds depth lines parentIndent level (nodes ++ [⟨line, []⟩]) errors := rfl

theorem block_break (h : inBlock parentIndent line = false) :
    block (rounds + 1) depth (line :: lines) parentIndent level nodes errors =
      some ⟨nodes, errors, line :: lines⟩ := by
  rw [block_cons]
  simp only [h, Bool.not_false, if_true]

theorem block_first (h : inBlock parentIndent line = true) :
    block (rounds + 1) depth (line :: lines) parentIndent none nodes errors =
      block rounds depth lines parentIndent (some line.indent) (nodes ++ [⟨line, []⟩]) errors := by
  rw [block_cons]
  simp only [h, Bool.not_true, Bool.false_eq_true, if_false]

theorem block_mismatch (h : inBlock parentIndent line = true) (hlt : line.indent < l) :
    block (rounds + 1) depth (line :: lines) parentIndent (some l) nodes errors =
      block rounds depth lines parentIndent (some l) nodes (errors ++ [indentMismatch line]) := by
  rw [block_cons]
  simp only [h, Bool.not_true, Bool.false_eq_true, if_false]
  exact if_pos hlt

theorem block_aligned (h : inBlock parentIndent line = true) (heq : line.indent = l) :
    block (rounds + 1) depth (line :: lines) parentIndent (some l) nodes errors =
      block rounds depth lines parentIndent (some l) (nodes ++ [⟨line, []⟩]) errors := by
  rw [block_cons]
  simp only [h, Bool.not_true, Bool.false_eq_true, if_false]
  exact (if_neg heq.not_lt).trans (if_neg heq.not_gt)

theorem block_deeper (h : inBlock parentIndent line = true) (hlt : l < line.indent) :
    block (rounds + 1) (depth + 1) (line :: lines) parentIndent (some l) nodes errors =
      (block rounds depth (line :: lines) (some l) none [] errors).bind fun inner ↦
        block rounds (depth + 1) inner.rest parentIndent (some l)
          (attach nodes inner.nodes line).1
          (inner.errors ++ (attach nodes inner.nodes line).2) := by
  rw [block_cons]
  simp only [h, Bool.not_true, Bool.false_eq_true, if_false]
  exact (if_neg hlt.not_gt).trans (if_pos hlt)

theorem block_too_deep (h : inBlock parentIndent line = true) (hlt : l < line.indent) :
    block (rounds + 1) 0 (line :: lines) parentIndent (some l) nodes errors = none := by
  rw [block_cons]
  simp only [h, Bool.not_true, Bool.false_eq_true, if_false]
  exact (if_neg hlt.not_gt).trans (if_pos hlt)

/-! ### What a call reads -/

theorem reads_of_block
    (h : block rounds depth lines parentIndent level nodes errors = some result) :
    Reads parentIndent level nodes errors lines result := by
  induction rounds generalizing depth lines parentIndent level nodes errors result with
  | zero => cases h
  | succ rounds ih =>
    cases lines with
    | nil =>
      obtain rfl := Option.some.inj h
      exact .done
    | cons line lines =>
      by_cases hin : inBlock parentIndent line = true
      · cases level with
        | none =>
          rw [block_first hin] at h
          exact .first hin (ih h)
        | some l =>
          rcases lt_trichotomy line.indent l with hlt | rfl | hlt
          · rw [block_mismatch hin hlt] at h
            exact .mismatch hin hlt (ih h)
          · rw [block_aligned hin rfl] at h
            exact .aligned hin (ih h)
          · cases depth with
            | zero => cases (block_too_deep hin hlt).symm.trans h
            | succ depth =>
              rw [block_deeper hin hlt] at h
              obtain ⟨inner, hinner, hrest⟩ := Option.bind_eq_some_iff.mp h
              exact .deeper hin hlt (ih hinner) (ih hrest)
      · rw [block_break (Bool.eq_false_iff.mpr hin)] at h
        obtain rfl := Option.some.inj h
        exact .leave (Bool.eq_false_iff.mpr hin)

theorem inBlock_of_lt (hlevel : ∀ parent ∈ parentIndent, parent < l) (hlt : l < line.indent) :
    inBlock parentIndent line = true :=
  inBlock_iff.mpr fun parent hparent ↦ (hlevel parent hparent).trans hlt

theorem inBlock_some_iff : inBlock (some l) line = true ↔ l < line.indent := by
  simp

theorem dropWhile_dropWhile {p q : Line → Bool} (h : ∀ x, q x = true → p x = true) :
    (lines.dropWhile q).dropWhile p = lines.dropWhile p := by
  induction lines with
  | nil => rfl
  | cons line lines ih =>
    by_cases hq : q line = true
    · rw [List.dropWhile_cons_of_pos hq, List.dropWhile_cons_of_pos (h line hq), ih]
    · rw [List.dropWhile_cons_of_neg hq]

theorem takeWhile_eq_append {p q : Line → Bool} (h : ∀ x, q x = true → p x = true) :
    lines.takeWhile p = lines.takeWhile q ++ (lines.dropWhile q).takeWhile p := by
  induction lines with
  | nil => rfl
  | cons line lines ih =>
    by_cases hq : q line = true
    · rw [List.takeWhile_cons_of_pos hq, List.dropWhile_cons_of_pos hq,
        List.takeWhile_cons_of_pos (h line hq), ih, List.cons_append]
    · rw [List.takeWhile_cons_of_neg hq, List.dropWhile_cons_of_neg hq, List.nil_append]

/-- A call reads the block and nothing behind it, whatever it reports. -/
theorem Reads.rest_eq (h : Reads parentIndent level nodes errors lines result)
    (hlevel : ∀ l ∈ level, ∀ parent ∈ parentIndent, parent < l) :
    result.rest = lines.dropWhile (inBlock parentIndent) := by
  induction h with
  | done => rfl
  | leave h => rw [List.dropWhile_cons_of_neg (by simp [h])]
  | first h hrest ih =>
    rw [List.dropWhile_cons_of_pos h]
    refine ih fun l hl ↦ ?_
    obtain rfl := Option.some.inj hl
    exact inBlock_iff.mp h
  | mismatch h hlt hrest ih =>
    rw [List.dropWhile_cons_of_pos h]
    exact ih hlevel
  | aligned h hrest ih =>
    rw [List.dropWhile_cons_of_pos h]
    exact ih hlevel
  | deeper h hlt hinner hrest ihinner ihrest =>
    rw [ihrest hlevel, ihinner nofun]
    exact dropWhile_dropWhile fun x hx ↦ inBlock_of_lt (hlevel _ rfl) (inBlock_some_iff.mp hx)

/-- Errors are only added. -/
theorem Reads.errors_prefix (h : Reads parentIndent level nodes errors lines result) :
    errors <+: result.errors := by
  induction h with
  | done => exact List.prefix_rfl
  | leave => exact List.prefix_rfl
  | first h hrest ih => exact ih
  | mismatch h hlt hrest ih => exact (List.prefix_append _ _).trans ih
  | aligned h hrest ih => exact ih
  | deeper h hlt hinner hrest ihinner ihrest =>
    exact ihinner.trans ((List.prefix_append _ _).trans ihrest)

end Block

end Khive.Charter.Lex
