import Khive.Request.Progress

/-!
# Where the loops read

To speak about the parts of a text that a loop hands to its item parser, run the loop with an
item parser that also returns the cursor it started from. Such a run goes through the same
cursors and returns the same items, each at the cursor where it was read.
-/

namespace Khive

variable {α : Type}

/-- Return each item with the cursor it was read at. -/
def located (item : List α → Parser → Except DslError (α × Parser))
    (items : List (Parser × α)) (p : Parser) : Except DslError ((Parser × α) × Parser) :=
  (item (items.map Prod.snd) p).map fun r ↦ ((p, r.1), r.2)

/-- The same for a parser that looks at nothing before it. -/
def locatedOp (parse : Parser → Except DslError (α × Parser)) :
    Parser → Except DslError ((Parser × α) × Parser) :=
  fun p ↦ located (fun _ p ↦ parse p) [] p

/-- What a loop has read, when it succeeds. -/
def okList {β γ : Type} (x : Except DslError (List β × γ)) : List β :=
  match x with
  | .ok r => r.1
  | .error _ => []

theorem located_eq_ok {item : List α → Parser → Except DslError (α × Parser)}
    {items : List (Parser × α)} {p p₁ : Parser} {a : α}
    (h : item (items.map Prod.snd) p = .ok (a, p₁)) : located item items p = .ok ((p, a), p₁) := by
  rw [located, h]
  rfl

theorem locatedOp_eq_ok {parse : Parser → Except DslError (α × Parser)} {p p₁ : Parser} {a : α}
    (h : parse p = .ok (a, p₁)) : locatedOp parse p = .ok ((p, a), p₁) := by
  rw [locatedOp, located, h]
  rfl

/-- A loop that starts with one more item reads no others. -/
private theorem forall_read {motive : Parser × α → Prop} {cursors items : List (Parser × α)}
    {e : Parser × α} (he : motive e)
    (h : ∀ f ∈ cursors, f ∈ items ++ [e] ∨ motive f) : ∀ f ∈ cursors, f ∈ items ∨ motive f := by
  intro f hf
  rcases h f hf with hmem | hmem
  · rcases List.mem_append.mp hmem with hmem | hmem
    · exact Or.inl hmem
    · cases List.mem_singleton.mp hmem
      exact Or.inr he
  · exact Or.inr hmem

/-- A located run of the loop over separated items. -/
theorem separated_located {close : Char} {expected : String} {unclosed : DslError}
    {item : List α → Parser → Except DslError (α × Parser)} {fuel : Nat}
    {items : List (Parser × α)} {result : List α} {p q : Parser}
    (h : Parser.separated close expected unclosed item fuel (items.map Prod.snd) p
      = .ok (result, q)) :
    ∃ cursors, Parser.separated close expected unclosed (located item) fuel items p
        = .ok (cursors, q) ∧ cursors.map Prod.snd = result ∧
      ∀ e ∈ cursors, e ∈ items ∨ ∃ before r, item before e.1 = .ok (e.2, r) := by
  induction fuel generalizing items p with
  | zero => cases h
  | succ fuel ih =>
    obtain ⟨a, p₁, ha, hnext⟩ := Parser.separated_eq_ok.mp h
    have hstep := located_eq_ok ha
    have happend : items.map Prod.snd ++ [a] = (items ++ [(p, a)]).map Prod.snd := by simp
    rcases hnext with ⟨hcomma, h⟩ | ⟨hclose, hne, rfl, rfl⟩
    · rw [happend] at h
      obtain ⟨cursors, hrun, hmap, hread⟩ := ih h
      refine ⟨cursors, Parser.separated_eq_ok.mpr ⟨_, p₁, hstep, Or.inl ⟨hcomma, hrun⟩⟩, hmap, ?_⟩
      exact forall_read ⟨_, p₁, ha⟩ hread
    · refine ⟨items ++ [(p, a)], Parser.separated_eq_ok.mpr
        ⟨_, p₁, hstep, Or.inr ⟨hclose, hne, rfl, rfl⟩⟩, happend.symm, ?_⟩
      exact forall_read ⟨_, p₁, ha⟩ fun e he ↦ Or.inl he

/-- A located run from the start: every item was read at its cursor. -/
theorem separated_cursors {close : Char} {expected : String} {unclosed : DslError}
    {item : List α → Parser → Except DslError (α × Parser)} {fuel : Nat} {result : List α}
    {p q : Parser} (h : Parser.separated close expected unclosed item fuel [] p = .ok (result, q)) :
    ∃ cursors, Parser.separated close expected unclosed (located item) fuel [] p
        = .ok (cursors, q) ∧ cursors.map Prod.snd = result ∧
      ∀ e ∈ cursors, ∃ before r, item before e.1 = .ok (e.2, r) := by
  have hnil : Parser.separated close expected unclosed item fuel
      (([] : List (Parser × α)).map Prod.snd) p = .ok (result, q) := h
  obtain ⟨cursors, hrun, hmap, hread⟩ := separated_located hnil
  exact ⟨cursors, hrun, hmap, fun e he ↦ (hread e he).resolve_left List.not_mem_nil⟩

/-- What holds of the items read so far, pass by pass, holds of all. -/
theorem separated_invariant {close : Char} {expected : String} {unclosed : DslError}
    {item : List α → Parser → Except DslError (α × Parser)} {motive : List α → Prop}
    (hstep : ∀ {items p a q}, motive items → item items p = .ok (a, q) → motive (items ++ [a]))
    {fuel : Nat} {items result : List α} {p q : Parser} (hitems : motive items)
    (h : Parser.separated close expected unclosed item fuel items p = .ok (result, q)) :
    motive result := by
  induction fuel generalizing items p with
  | zero => cases h
  | succ fuel ih =>
    obtain ⟨a, p₁, ha, ⟨-, h⟩ | ⟨-, -, rfl, -⟩⟩ := Parser.separated_eq_ok.mp h
    · exact ih (hstep hitems ha) h
    · exact hstep hitems ha

section Chains

variable {parse : Parser → Except DslError (α × Parser)}

/-- A located run over a chain. -/
theorem pipeline_located {check : α → Except DslError Unit} {fuel : Nat}
    {ops : List (Parser × α)} {result : List α} {p q : Parser}
    (h : pipeline parse check fuel (ops.map Prod.snd) p = .ok (result, q)) :
    ∃ cursors, pipeline (locatedOp parse) (fun e ↦ check e.2) fuel ops p = .ok (cursors, q) ∧
      cursors.map Prod.snd = result ∧
      ∀ e ∈ cursors, e ∈ ops ∨ ∃ r, parse e.1 = .ok (e.2, r) := by
  induction fuel generalizing ops p with
  | zero =>
    cases h
    exact ⟨ops, rfl, rfl, fun e he ↦ Or.inl he⟩
  | succ fuel ih =>
    rcases pipeline_eq_ok.mp h with ⟨hpipe, hlt, op, p₁, hop, hcheck, h⟩ | ⟨hpipe, rfl, rfl⟩
    · rw [List.length_map] at hlt
      have happend : ops.map Prod.snd ++ [op]
          = (ops ++ [((p.advance 1).skipWs, op)]).map Prod.snd := by simp
      rw [happend] at h
      obtain ⟨cursors, hrun, hmap, hread⟩ := ih h
      refine ⟨cursors, pipeline_eq_ok.mpr
        (Or.inl ⟨hpipe, hlt, _, p₁, locatedOp_eq_ok hop, hcheck, hrun⟩), hmap, ?_⟩
      exact forall_read ⟨p₁, hop⟩ hread
    · exact ⟨ops, pipeline_eq_ok.mpr (Or.inr ⟨hpipe, rfl, rfl⟩), rfl, fun e he ↦ Or.inl he⟩

theorem parseUnit_located {ops : List (Parser × α)} {result : List α} {p q : Parser}
    (h : parseUnit parse (ops.map Prod.snd) p = .ok (result, q)) :
    ∃ cursors, parseUnit (locatedOp parse) ops p = .ok (cursors, q) ∧
      cursors.map Prod.snd = result ∧
      ∀ e ∈ cursors, e ∈ ops ∨ ∃ r, parse e.1 = .ok (e.2, r) := by
  rw [parseUnit, List.length_map] at h
  split_ifs at h with hfull
  obtain ⟨⟨op, p₁⟩, hop, h⟩ := bind_eq_ok.mp h
  have happend : ops.map Prod.snd ++ [op] = (ops ++ [(p, op)]).map Prod.snd := by simp
  dsimp only at h
  rw [happend] at h
  obtain ⟨cursors, hrun, hmap, hread⟩ := pipeline_located h
  refine ⟨cursors, ?_, hmap, forall_read ⟨p₁, hop⟩ hread⟩
  rw [parseUnit, if_neg hfull]
  exact bind_eq_ok.mpr ⟨_, locatedOp_eq_ok hop, hrun⟩

/-- A located run over a batch. -/
theorem batchUnits_located {fuel : Nat} {ops : List (Parser × α)} {result : List α}
    {ranges ranges' : List OpRange} {p q : Parser}
    (h : batchUnits parse fuel (ops.map Prod.snd) ranges p = .ok (result, ranges', q)) :
    ∃ cursors, batchUnits (locatedOp parse) fuel ops ranges p = .ok (cursors, ranges', q) ∧
      cursors.map Prod.snd = result ∧
      ∀ e ∈ cursors, e ∈ ops ∨ ∃ r, parse e.1 = .ok (e.2, r) := by
  induction fuel generalizing ops ranges p with
  | zero => cases h
  | succ fuel ih =>
    obtain ⟨ops₁, p₁, hunit, hnext⟩ := batchUnits_eq_ok.mp h
    obtain ⟨unit, hunit', rfl, hread⟩ := parseUnit_located hunit
    rw [List.length_map, List.length_map] at hnext
    rcases hnext with ⟨p₂, hsep, h⟩ | ⟨hsep, rfl, rfl⟩
    · obtain ⟨cursors, hrun, hmap, hread'⟩ := ih h
      refine ⟨cursors, batchUnits_eq_ok.mpr ⟨unit, p₁, hunit', Or.inl ⟨p₂, hsep, hrun⟩⟩, hmap, ?_⟩
      intro e he
      rcases hread' e he with hmem | hmem
      · exact hread e hmem
      · exact Or.inr hmem
    · exact ⟨unit, batchUnits_eq_ok.mpr ⟨unit, p₁, hunit', Or.inr ⟨hsep, rfl, rfl⟩⟩, rfl, hread⟩

/-- A located run over a whole batch. -/
theorem batchUnits_cursors {fuel : Nat} {result : List α} {ranges : List OpRange} {p q : Parser}
    (h : batchUnits parse fuel [] [] p = .ok (result, ranges, q)) :
    ∃ cursors, batchUnits (locatedOp parse) fuel [] [] p = .ok (cursors, ranges, q) ∧
      cursors.map Prod.snd = result ∧ ∀ e ∈ cursors, ∃ r, parse e.1 = .ok (e.2, r) := by
  have hnil : batchUnits parse fuel (([] : List (Parser × α)).map Prod.snd) [] p
      = .ok (result, ranges, q) := h
  obtain ⟨cursors, hrun, hmap, hread⟩ := batchUnits_located hnil
  exact ⟨cursors, hrun, hmap, fun e he ↦ (hread e he).resolve_left List.not_mem_nil⟩

end Chains

end Khive
