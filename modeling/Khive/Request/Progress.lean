import Khive.Request.Dispatch

/-!
# The parser's loops end by themselves

The loops of the parser carry fuel, and what happens when it runs out is no behaviour of the
code. It never does: every function that reads leaves a suffix of the text it was given, and a
pass that goes on has read its separator, so the text shrinks with each pass. Any fuel beyond the
length of the text gives the same result, and that much is what every loop is given.
-/

namespace Khive

variable {α : Type}

namespace Parser

/-- The second cursor stands at or behind the first, in the same text. -/
def Reaches (p q : Parser) : Prop := q.rest <:+ p.rest

theorem Reaches.refl (p : Parser) : p.Reaches p := List.suffix_refl _

theorem Reaches.trans {p q r : Parser} (h₁ : p.Reaches q) (h₂ : q.Reaches r) : p.Reaches r :=
  List.IsSuffix.trans h₂ h₁

theorem Reaches.length_le {p q : Parser} (h : p.Reaches q) : q.rest.length ≤ p.rest.length :=
  List.IsSuffix.length_le h

theorem reaches_advance (p : Parser) (n : Nat) : p.Reaches (p.advance n) := List.drop_suffix _ _

theorem reaches_skipWs (p : Parser) : p.Reaches p.skipWs := reaches_advance _ _

/-- Past a character the text is shorter. -/
theorem length_advance {p : Parser} {c : Char} (h : p.peek = some c) :
    (p.advance 1).rest.length < p.rest.length := by
  obtain ⟨cs, hcs⟩ := List.head?_eq_some_iff.mp h
  rw [advance, hcs]
  exact Nat.lt_succ_self _

/-- Past a separator and the whitespace around it. -/
theorem length_next {p q : Parser} {c : Char} (hq : p.Reaches q) (h : q.skipWs.peek = some c) :
    (q.skipWs.advance 1).skipWs.rest.length < p.rest.length :=
  calc (q.skipWs.advance 1).skipWs.rest.length
      ≤ (q.skipWs.advance 1).rest.length := (reaches_skipWs _).length_le
    _ < q.skipWs.rest.length := length_advance h
    _ ≤ p.rest.length := (hq.trans (reaches_skipWs q)).length_le

/-- A function that reads from the front of the text and leaves the rest. -/
def Consumes (f : Parser → Except DslError (α × Parser)) : Prop :=
  ∀ ⦃p q : Parser⦄ ⦃a : α⦄, f p = .ok (a, q) → p.Reaches q

theorem expectChar_reaches {p q : Parser} {want : Char} (h : p.expectChar want = .ok q) :
    p.Reaches q := by
  simp only [expectChar] at h
  split at h
  · split_ifs at h
    cases h
    exact (reaches_skipWs p).trans (reaches_advance _ _)
  · cases h

theorem parseIdentifier_consumes : Consumes parseIdentifier := by
  intro p q name h
  simp only [parseIdentifier] at h
  split_ifs at h
  cases h
  exact (reaches_skipWs p).trans (reaches_advance _ _)

theorem parseTool_consumes : Consumes parseTool := by
  intro p q tool h
  obtain ⟨⟨name, p₁⟩, hname, h⟩ := bind_eq_ok.mp h
  have h₁ := parseIdentifier_consumes hname
  dsimp only at h
  split_ifs at h
  · obtain ⟨⟨sub, p₂⟩, hsub, h⟩ := bind_eq_ok.mp h
    have h₂ := (reaches_advance p₁ 1).trans (parseIdentifier_consumes hsub)
    dsimp only at h
    split_ifs at h
    cases h
    exact h₁.trans h₂
  · cases h
    exact h₁

theorem parseIndex_consumes : Consumes parseIndex := by
  intro p q index h
  simp only [parseIndex] at h
  split_ifs at h
  split at h
  · split_ifs at h
    cases h
    exact (reaches_advance _ _).trans (reaches_advance _ _)
  · cases h

theorem prevSegments_consumes (fuel : Nat) (path : String) : Consumes (prevSegments fuel path) := by
  induction fuel generalizing path with
  | zero =>
    intro p q result h
    cases h
    exact Reaches.refl _
  | succ fuel ih =>
    intro p q result h
    rw [prevSegments] at h
    split_ifs at h
    · obtain ⟨⟨segment, p₁⟩, hsegment, h⟩ := bind_eq_ok.mp h
      exact ((reaches_advance p 1).trans (parseIdentifier_consumes hsegment)).trans (ih _ h)
    · obtain ⟨⟨index, p₁⟩, hindex, h⟩ := bind_eq_ok.mp h
      exact ((reaches_advance p 1).trans (parseIndex_consumes hindex)).trans (ih _ h)
    · cases h
      exact Reaches.refl _

theorem parsePrevRef_consumes : Consumes parsePrevRef := by
  intro p q v h
  obtain ⟨⟨ident, p₁⟩, hident, h⟩ := bind_eq_ok.mp h
  have h₁ := (reaches_advance p 1).trans (parseIdentifier_consumes (mapError_eq_ok.mp hident))
  dsimp only at h
  split_ifs at h
  obtain ⟨⟨path, p₂⟩, hpath, h⟩ := bind_eq_ok.mp h
  cases h
  exact h₁.trans (prevSegments_consumes _ _ hpath)

/-! ## The loop over separated items -/

section Separated

variable {close : Char} {expected : String} {unclosed : DslError}
  {item : List α → Parser → Except DslError (α × Parser)}

/-- One pass that succeeds: an item, then either a comma and another pass or the end. -/
theorem separated_eq_ok {fuel : Nat} {items result : List α} {p q : Parser} :
    separated close expected unclosed item (fuel + 1) items p = .ok (result, q) ↔
      ∃ a p₁, item items p = .ok (a, p₁) ∧
        ((p₁.skipWs.peek = some ',' ∧ separated close expected unclosed item fuel (items ++ [a])
            (p₁.skipWs.advance 1).skipWs = .ok (result, q)) ∨
          (p₁.skipWs.peek = some close ∧ close ≠ ',' ∧ result = items ++ [a] ∧
            q = p₁.skipWs.advance 1)) := by
  rw [separated, bind_eq_ok]
  simp only [Prod.exists]
  refine exists₂_congr fun a p₁ ↦ and_congr_right fun _ ↦ ?_
  cases hc : p₁.skipWs.peek with
  | none => exact iff_of_false (fun h ↦ nomatch h) (by simp)
  | some c =>
    dsimp only
    split_ifs with hcomma hclose
    · subst hcomma
      refine ⟨fun h ↦ Or.inl ⟨rfl, h⟩, ?_⟩
      rintro (h | ⟨hclose, hne, -⟩)
      · exact h.2
      · exact absurd (Option.some.inj hclose).symm hne
    · subst hclose
      constructor
      · intro h
        cases h
        exact Or.inr ⟨rfl, hcomma, rfl, rfl⟩
      · rintro (h | ⟨-, -, rfl, rfl⟩)
        · exact absurd (Option.some.inj h.1) hcomma
        · rfl
    · refine iff_of_false (fun h ↦ nomatch h) ?_
      rintro (h | h)
      · exact hcomma (Option.some.inj h.1)
      · exact hclose (Option.some.inj h.1)

variable (hitem : ∀ items, Consumes (item items))
include hitem

theorem separated_consumes (fuel : Nat) (items : List α) :
    Consumes (separated close expected unclosed item fuel items) := by
  induction fuel generalizing items with
  | zero =>
    intro p q result h
    cases h
  | succ fuel ih =>
    intro p q result h
    obtain ⟨a, p₁, ha, ⟨-, h⟩ | ⟨-, -, -, rfl⟩⟩ := separated_eq_ok.mp h
    · refine Reaches.trans ?_ (ih _ h)
      exact ((hitem items ha).trans (reaches_skipWs _)).trans
        ((reaches_advance _ 1).trans (reaches_skipWs _))
    · exact ((hitem items ha).trans (reaches_skipWs _)).trans (reaches_advance _ 1)

/-- Fuel beyond the length of the text makes no difference. -/
theorem separated_fuel {n m : Nat} {items : List α} {p : Parser} (hn : p.rest.length < n)
    (hm : p.rest.length < m) :
    separated close expected unclosed item n items p
      = separated close expected unclosed item m items p := by
  induction n generalizing m items p with
  | zero => exact absurd hn (Nat.not_lt_zero _)
  | succ n ih =>
    obtain ⟨m, rfl⟩ := Nat.exists_eq_add_one_of_ne_zero (Nat.ne_zero_of_lt hm)
    rw [separated, separated]
    cases ha : item items p with
    | error e => rfl
    | ok r =>
      obtain ⟨a, p₁⟩ := r
      simp only [ok_bind]
      split
      · rename_i c hc
        split_ifs
        · have hlt := length_next (hitem items ha) hc
          exact ih (by omega) (by omega)
        · rfl
        · rfl
      · rfl

end Separated

end Parser

open Khive.Parser

/-! ## Values and operations -/

section Values

variable {lib : Libraries}

theorem parseValue_consumes (hint : Option String) : Consumes (parseValue lib hint) := by
  intro p q v h
  obtain ⟨span, -, h⟩ := bind_eq_ok.mp h
  obtain ⟨value, -, h⟩ := bind_eq_ok.mp h
  cases h
  exact (reaches_skipWs p).trans (reaches_advance _ _)

theorem parseKey_consumes : Consumes (parseKey lib) := by
  intro p q key h
  simp only [parseKey] at h
  split at h
  · split_ifs at h
    obtain ⟨span, -, h⟩ := bind_eq_ok.mp h
    obtain ⟨name, -, h⟩ := bind_eq_ok.mp h
    obtain ⟨p₁, hp₁, h⟩ := bind_eq_ok.mp h
    cases h
    have hquoted : p.Reaches (p.skipWs.advance (span + 1)) :=
      (reaches_skipWs p).trans (reaches_advance _ _)
    have hcolon := (reaches_skipWs (p.skipWs.advance (span + 1))).trans (expectChar_reaches hp₁)
    exact (hquoted.trans hcolon).trans (reaches_skipWs _)
  · cases h

variable {value : Option String → Parser → Except DslError (ArgValue × Parser)}
  (hvalue : ∀ hint, Consumes (value hint))
include hvalue

theorem parseMember_consumes : Consumes (parseMember lib value) := by
  intro p q m h
  obtain ⟨⟨key, p₁⟩, hkey, h⟩ := bind_eq_ok.mp h
  obtain ⟨⟨v, p₂⟩, hv, h⟩ := bind_eq_ok.mp h
  cases h
  exact (parseKey_consumes hkey).trans (hvalue _ hv)

theorem parseArrayArgBody_consumes : Consumes (parseArrayArgBody value) := by
  intro p q v h
  have hopen : p.Reaches (p.advance 1).skipWs := (reaches_advance _ 1).trans (reaches_skipWs _)
  simp only [parseArrayArgBody] at h
  split_ifs at h
  · cases h
    exact hopen.trans (reaches_advance _ 1)
  · obtain ⟨⟨elements, p₁⟩, hp₁, h⟩ := bind_eq_ok.mp h
    cases h
    exact hopen.trans (separated_consumes (fun _ ↦ hvalue none) _ _ hp₁)

theorem parseObjectArgBody_consumes : Consumes (parseObjectArgBody lib value) := by
  intro p q v h
  have hopen : p.Reaches (p.advance 1).skipWs := (reaches_advance _ 1).trans (reaches_skipWs _)
  simp only [parseObjectArgBody] at h
  split_ifs at h
  · cases h
    exact hopen.trans (reaches_advance _ 1)
  · obtain ⟨⟨pairs, p₁⟩, hp₁, h⟩ := bind_eq_ok.mp h
    cases h
    exact hopen.trans (separated_consumes (fun _ ↦ parseMember_consumes hvalue) _ _ hp₁)

end Values

section Operations

variable {lib : Libraries}

theorem parseArgValueAt_consumes {array object : Parser → Except DslError (ArgValue × Parser)}
    (harray : Consumes array) (hobject : Consumes object) (hint : Option String) :
    Consumes (parseArgValueAt lib array object hint) := by
  intro p q v h
  simp only [parseArgValueAt] at h
  split_ifs at h
  · exact (reaches_skipWs p).trans (parsePrevRef_consumes h)
  · exact (reaches_skipWs p).trans (harray h)
  · exact (reaches_skipWs p).trans (hobject h)
  · obtain ⟨⟨v, p₁⟩, hv, h⟩ := bind_eq_ok.mp h
    cases h
    exact (reaches_skipWs p).trans (parseValue_consumes _ hv)

theorem parseArgValueWithHint_consumes (room : Nat) (hint : Option String) :
    Consumes (parseArgValueWithHint lib room hint) := by
  induction room generalizing hint with
  | zero =>
    have hdeep : Consumes nestingTooDeep := fun _ _ _ h ↦ nomatch h
    exact parseArgValueAt_consumes hdeep hdeep hint
  | succ room ih =>
    exact parseArgValueAt_consumes (parseArrayArgBody_consumes ih)
      (parseObjectArgBody_consumes ih) hint

theorem parseArgName_consumes : Consumes parseArgName := by
  intro p q name h
  obtain ⟨⟨ident, p₁⟩, hident, h⟩ := bind_eq_ok.mp h
  obtain ⟨p₂, hp₂, h⟩ := bind_eq_ok.mp h
  cases h
  exact ((parseIdentifier_consumes hident).trans (expectChar_reaches hp₂)).trans (reaches_skipWs _)

theorem parseArg_consumes (args : List (String × ArgValue)) : Consumes (parseArg lib args) := by
  intro p q arg h
  obtain ⟨⟨name, p₁⟩, hname, h⟩ := bind_eq_ok.mp h
  obtain ⟨⟨v, p₂⟩, hv, h⟩ := bind_eq_ok.mp h
  dsimp only at h
  split_ifs at h
  cases h
  exact (parseArgName_consumes hname).trans (parseArgValueWithHint_consumes _ _ hv)

theorem parseArgs_consumes (callStart : Nat) : Consumes (parseArgs lib callStart) := by
  intro p q args h
  simp only [parseArgs] at h
  split_ifs at h
  · cases h
    exact (reaches_skipWs p).trans (reaches_advance _ 1)
  · exact (reaches_skipWs p).trans (separated_consumes parseArg_consumes _ _ h)

theorem parseOp_consumes : Consumes (parseOp lib) := by
  intro p q op h
  obtain ⟨⟨tool, callStart, p₁⟩, hhead, h⟩ := bind_eq_ok.mp h
  obtain ⟨⟨args, p₂⟩, hargs, h⟩ := bind_eq_ok.mp h
  cases h
  obtain ⟨⟨name, p₃⟩, hname, hhead⟩ := bind_eq_ok.mp hhead
  obtain ⟨p₄, hp₄, hhead⟩ := bind_eq_ok.mp hhead
  cases hhead
  refine (parseTool_consumes hname).trans ?_
  exact ((reaches_skipWs _).trans (expectChar_reaches hp₄)).trans (parseArgs_consumes _ hargs)

end Operations

/-! ## Chains and batches -/

section Chains

variable {parse : Parser → Except DslError (α × Parser)} {check : α → Except DslError Unit}

/-- One pass over a chain: another operation behind a pipe, or the end. -/
theorem pipeline_eq_ok {fuel : Nat} {ops ops' : List α} {p q : Parser} :
    pipeline parse check (fuel + 1) ops p = .ok (ops', q) ↔
      (p.peek = some '|' ∧ ops.length < maxOps ∧ ∃ op p₁,
        parse (p.advance 1).skipWs = .ok (op, p₁) ∧ check op = .ok () ∧
          pipeline parse check fuel (ops ++ [op]) p₁.skipWs = .ok (ops', q)) ∨
        (p.peek ≠ some '|' ∧ ops' = ops ∧ q = p) := by
  rw [pipeline]
  split_ifs with hpipe hfull
  · refine iff_of_false (fun h ↦ nomatch h) ?_
    rintro (h | h)
    · exact absurd h.2.1 (Nat.not_lt.mpr hfull)
    · exact h.1 hpipe
  · simp only [bind_eq_ok, exists_check, Prod.exists, hpipe, Nat.not_le.mp hfull, true_and, ne_eq,
      not_true_eq_false, false_and, or_false]
  · simp only [hpipe, false_and, false_or, Except.ok.injEq, Prod.mk.injEq, ne_eq,
      not_false_eq_true, true_and]
    exact and_congr eq_comm eq_comm

/-- One pass over a batch: a unit, then either another or the end. -/
theorem batchUnits_eq_ok {fuel : Nat} {ops ops' : List α} {ranges ranges' : List OpRange}
    {p q : Parser} :
    batchUnits parse (fuel + 1) ops ranges p = .ok (ops', ranges', q) ↔
      ∃ ops₁ p₁, parseUnit parse ops p = .ok (ops₁, p₁) ∧
        ((∃ p₂, parseSeparator p₁ = .ok (.next p₂) ∧
            batchUnits parse fuel ops₁ (ranges ++ [⟨ops.length, ops₁.length⟩]) p₂
              = .ok (ops', ranges', q)) ∨
          (parseSeparator p₁ = .ok (.done q) ∧ ops' = ops₁ ∧
            ranges' = ranges ++ [⟨ops.length, ops₁.length⟩])) := by
  rw [batchUnits, bind_eq_ok]
  simp only [Prod.exists]
  refine exists₂_congr fun ops₁ p₁ ↦ and_congr_right fun _ ↦ ?_
  rw [bind_eq_ok]
  cases hsep : parseSeparator p₁ with
  | error e => simp
  | ok separator =>
    cases separator with
    | next p₂ => simp
    | done p₂ =>
      simp only [Except.ok.injEq, exists_eq_left', Prod.mk.injEq, reduceCtorEq, false_and,
        exists_false, false_or, Separator.done.injEq]
      constructor
      · rintro ⟨rfl, rfl, rfl⟩
        exact ⟨rfl, rfl, rfl⟩
      · rintro ⟨rfl, rfl, rfl⟩
        exact ⟨rfl, rfl, rfl⟩

variable (hparse : Consumes parse)
include hparse

theorem pipeline_fuel {n m : Nat} {ops : List α} {p : Parser}
    (hn : p.rest.length ≤ n) (hm : p.rest.length ≤ m) :
    pipeline parse check n ops p = pipeline parse check m ops p := by
  induction n generalizing m ops p with
  | zero =>
    -- no text is left, so neither loop makes a pass
    have hempty : p.rest = [] := List.length_eq_zero_iff.mp (Nat.le_zero.mp hn)
    cases m with
    | zero => rfl
    | succ m =>
      have hpeek : ¬p.peek = some '|' := by simp [peek, hempty]
      rw [pipeline, pipeline, if_neg hpeek]
  | succ n ih =>
    cases m with
    | zero =>
      have hempty : p.rest = [] := List.length_eq_zero_iff.mp (Nat.le_zero.mp hm)
      have hpeek : ¬p.peek = some '|' := by simp [peek, hempty]
      rw [pipeline, pipeline, if_neg hpeek]
    | succ m =>
      rw [pipeline, pipeline]
      split_ifs with hpeek
      · rfl
      · cases hop : parse (p.advance 1).skipWs with
        | error e => rfl
        | ok r =>
          obtain ⟨op, p₁⟩ := r
          have hlt : p₁.skipWs.rest.length < p.rest.length :=
            calc p₁.skipWs.rest.length
                ≤ (p.advance 1).skipWs.rest.length :=
                  ((hparse hop).trans (reaches_skipWs p₁)).length_le
              _ ≤ (p.advance 1).rest.length := (reaches_skipWs _).length_le
              _ < p.rest.length := length_advance hpeek
          have hn' : p₁.skipWs.rest.length ≤ n := by omega
          have hm' : p₁.skipWs.rest.length ≤ m := by omega
          simp only [ok_bind]
          rw [ih hn' hm']
      · rfl

theorem pipeline_consumes (fuel : Nat) (ops : List α) :
    Consumes (pipeline parse check fuel ops) := by
  induction fuel generalizing ops with
  | zero =>
    intro p q result h
    cases h
    exact Reaches.refl _
  | succ fuel ih =>
    intro p q result h
    rcases pipeline_eq_ok.mp h with ⟨-, -, op, p₁, hop, -, h⟩ | ⟨-, -, rfl⟩
    · have hnext : p.Reaches (p.advance 1).skipWs := (reaches_advance _ 1).trans (reaches_skipWs _)
      exact (hnext.trans (hparse hop)).trans ((reaches_skipWs _).trans (ih _ h))
    · exact Reaches.refl _

theorem parseUnit_consumes (ops : List α) : Consumes (parseUnit parse ops) := by
  intro p q result h
  rw [parseUnit] at h
  split_ifs at h
  obtain ⟨⟨op, p₁⟩, hop, h⟩ := bind_eq_ok.mp h
  exact ((hparse hop).trans (reaches_skipWs _)).trans (pipeline_consumes hparse _ _ h)

theorem batchUnits_fuel {n m : Nat} {ops : List α} {ranges : List OpRange} {p : Parser}
    (hn : p.rest.length < n) (hm : p.rest.length < m) :
    batchUnits parse n ops ranges p = batchUnits parse m ops ranges p := by
  induction n generalizing m ops ranges p with
  | zero => exact absurd hn (Nat.not_lt_zero _)
  | succ n ih =>
    obtain ⟨m, rfl⟩ := Nat.exists_eq_add_one_of_ne_zero (Nat.ne_zero_of_lt hm)
    rw [batchUnits, batchUnits]
    cases hunit : parseUnit parse ops p with
    | error e => rfl
    | ok r =>
      obtain ⟨ops', p₁⟩ := r
      simp only [ok_bind]
      cases hsep : parseSeparator p₁ with
      | error e => rfl
      | ok separator =>
        cases separator with
        | done p₂ => rfl
        | next p₂ =>
          have hlt : p₂.rest.length < p.rest.length := by
            have hle := (parseUnit_consumes hparse ops hunit).length_le
            simp only [parseSeparator] at hsep
            split at hsep
            · rename_i c hc
              split_ifs at hsep
              · cases hsep
                have hskip := (reaches_skipWs (p₁.advance 1)).length_le
                have hadv := length_advance hc
                omega
              · cases hsep
            · cases hsep
          exact ih (by omega) (by omega)

end Chains

end Khive
