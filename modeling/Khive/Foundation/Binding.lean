import Khive.Foundation.Checks
import Khive.Foundation.Select

/-!
# Parameters bound while a statement is written

A statement is written piece by piece, and the values in it are appended to a list of parameters as
they come up; a piece refers to a value by the place it got. The pieces need not end up in the order
they were written in, nor once only.

`Bound voc p leaves p'` is what one such step has to promise: the parameters grow from `p` to `p'`,
every placeholder among the leaves stands for the value it was made for, every new parameter is used
by one of them, and everything else in the leaves comes from the vocabulary. Steps compose. What the
values are is read off the pieces themselves: `entries` lists them in the order of the text, each
with what it is there for.
-/

namespace Khive

namespace Sql

variable {ε α β : Type}

/-- A computation that appends parameters, and may fail. -/
abbrev Binder (ε : Type) := StateT (List Value) (Except ε)

/-- `params.push(v)`, and the placeholder `?{params.len()}`. -/
def push (v : Value) : Binder ε Expr := fun params ↦
  .ok (.param (params.length + 1) v, params ++ [v])

/-- The same for a member of an `IN` list. -/
def pushOperand (v : Value) : Binder ε Operand := fun params ↦
  .ok (.param (params.length + 1) v, params ++ [v])

/-- The same for a limit. -/
def pushPlaceholder (v : Value) : Binder ε Placeholder := fun params ↦
  .ok (⟨params.length + 1, v⟩, params ++ [v])

/-- A column restricted to a list of values: no condition for none, an equation for one. -/
def oneOf (column : Expr) : List Value → Binder ε (List Expr)
  | [] => pure []
  | [v] => do
    let p ← push v
    return [.compare .eq column p]
  | values => do
    let items ← values.mapM pushOperand
    return [.inList column items]

/-! ## Runs -/

section Run

variable {p p' p'' : List Value}

theorem run_bind_eq_ok {x : Binder ε α} {f : α → Binder ε β} {b : β} :
    (x >>= f).run p = .ok (b, p'') ↔
      ∃ a p', x.run p = .ok (a, p') ∧ (f a).run p' = .ok (b, p'') := by
  rw [StateT.run_bind, bind_eq_ok]
  constructor
  · rintro ⟨⟨a, p'⟩, hx, hf⟩
    exact ⟨a, p', hx, hf⟩
  · rintro ⟨a, p', hx, hf⟩
    exact ⟨(a, p'), hx, hf⟩

theorem run_pure_eq_ok {a b : α} :
    (pure a : Binder ε α).run p = .ok (b, p') ↔ a = b ∧ p = p' := by
  rw [StateT.run_pure]
  constructor
  · intro h
    exact Prod.mk.inj (Except.ok.inj h)
  · rintro ⟨rfl, rfl⟩
    rfl

theorem run_throw_ne_ok {e : ε} {a : α × List Value} :
    (throw e : Binder ε α).run p ≠ .ok a := by
  simp [throw, throwThe, MonadExceptOf.throw, StateT.run, StateT.lift, bind, Except.bind]

/-- A check that passes, before more work. -/
theorem run_guard_eq_ok {condition : Prop} [Decidable condition] {e : ε} {k : Unit → Binder ε α}
    {a : α} :
    (if condition then throw e >>= k else k ()).run p = .ok (a, p') ↔
      ¬condition ∧ (k ()).run p = .ok (a, p') := by
  by_cases h : condition
  · simp only [h, if_true, not_true_eq_false, false_and, iff_false]
    intro hrun
    obtain ⟨_, _, hthrow, -⟩ := run_bind_eq_ok.mp hrun
    exact run_throw_ne_ok hthrow
  · simp only [h, if_false, not_false_eq_true, true_and]

theorem run_lift_eq_ok {x : Except ε α} {a : α} :
    (liftM x : Binder ε α).run p = .ok (a, p') ↔ x = .ok a ∧ p = p' := by
  cases x with
  | error e => simp [liftM, monadLift, MonadLift.monadLift, StateT.run, StateT.lift, bind,
      Except.bind]
  | ok b => simp [liftM, monadLift, MonadLift.monadLift, StateT.run, StateT.lift, bind, Except.bind,
      pure, Except.pure]

theorem run_push_eq_ok {v : Value} {e : Expr} :
    (push v : Binder ε Expr).run p = .ok (e, p') ↔
      .param (p.length + 1) v = e ∧ p ++ [v] = p' := by
  simp [push, StateT.run]

theorem run_pushOperand_eq_ok {v : Value} {o : Operand} :
    (pushOperand v : Binder ε Operand).run p = .ok (o, p') ↔
      .param (p.length + 1) v = o ∧ p ++ [v] = p' := by
  simp [pushOperand, StateT.run]

theorem run_pushPlaceholder_eq_ok {v : Value} {o : Placeholder} :
    (pushPlaceholder v : Binder ε Placeholder).run p = .ok (o, p') ↔
      ⟨p.length + 1, v⟩ = o ∧ p ++ [v] = p' := by
  simp [pushPlaceholder, StateT.run]

end Run

/-! ## What a step binds -/

/-- The values that placeholders were made for, each with what it is there for. -/
def entries (xs : List Placement) : List (Slot × Value) := xs.map fun x ↦ (x.slot, x.value)

/-- What a column restricted to a list of values asks for. -/
def restriction (column : Expr) (values : List Value) : List (Slot × Value) :=
  values.map fun v ↦ (if values.length = 1 then .comparison .eq column else .member column, v)

section Entries

variable {p p' : List Value}

@[simp] theorem entries_nil : entries [] = [] := rfl

@[simp] theorem entries_append {xs ys : List Placement} :
    entries (xs ++ ys) = entries xs ++ entries ys := List.map_append

@[simp] theorem entries_flatMap {f : α → List Placement} {xs : List α} :
    entries (xs.flatMap f) = xs.flatMap fun x ↦ entries (f x) := List.map_flatMap

theorem entries_push {v : Value} {e : Expr} (slot : Slot)
    (h : (push v : Binder ε Expr).run p = .ok (e, p')) : entries (e.placements slot) = [(slot, v)] := by
  obtain ⟨rfl, -⟩ := run_push_eq_ok.mp h
  rfl

theorem entries_pushOperand {v : Value} {o : Operand} (slot : Slot)
    (h : (pushOperand v : Binder ε Operand).run p = .ok (o, p')) :
    entries (o.placements slot) = [(slot, v)] := by
  obtain ⟨rfl, -⟩ := run_pushOperand_eq_ok.mp h
  rfl

/-- A loop binds what its body binds, in turn. -/
theorem flatMap_of_mapM {γ : Type} {f : α → Binder ε β} {g : β → List γ} {ask : α → List γ}
    {xs : List α} {bs : List β}
    (hf : ∀ x q b q', (f x).run q = .ok (b, q') → g b = ask x)
    (h : (xs.mapM f).run p = .ok (bs, p')) : bs.flatMap g = xs.flatMap ask := by
  induction xs generalizing p bs with
  | nil =>
    rw [List.mapM_nil, run_pure_eq_ok] at h
    obtain ⟨rfl, -⟩ := h
    rfl
  | cons x xs ih =>
    rw [List.mapM_cons, run_bind_eq_ok] at h
    obtain ⟨b, q, hb, h⟩ := h
    obtain ⟨rest, q', hrest, h⟩ := run_bind_eq_ok.mp h
    obtain ⟨rfl, rfl⟩ := run_pure_eq_ok.mp h
    rw [List.flatMap_cons, List.flatMap_cons, hf x p b q hb, ih hrest]

theorem entries_oneOf {column : Expr} {values : List Value} {es : List Expr}
    (hcolumn : column.placements .other = [])
    (h : (oneOf column values : Binder ε (List Expr)).run p = .ok (es, p')) :
    entries (placementsOf es) = restriction column values := by
  match values with
  | [] =>
    obtain ⟨rfl, -⟩ := run_pure_eq_ok.mp h
    rfl
  | [v] =>
    obtain ⟨e, q, he, h⟩ := run_bind_eq_ok.mp h
    obtain ⟨rfl, -⟩ := run_pure_eq_ok.mp h
    simp only [placementsOf_cons, placementsOf_nil, Expr.placements, hcolumn, List.nil_append,
      List.append_nil]
    exact entries_push _ he
  | v :: w :: values =>
    obtain ⟨items, q, hitems, h⟩ := run_bind_eq_ok.mp h
    obtain ⟨rfl, -⟩ := run_pure_eq_ok.mp h
    have hask : items.flatMap (fun o ↦ entries (o.placements (.member column))) =
        (v :: w :: values).flatMap fun v ↦ [(.member column, v)] :=
      flatMap_of_mapM (fun _ _ _ _ ho ↦ entries_pushOperand _ ho) hitems
    simp only [placementsOf_cons, placementsOf_nil, Expr.placements, hcolumn, List.nil_append,
      List.append_nil, entries_flatMap]
    rw [hask, ← List.map_eq_flatMap]
    exact List.map_congr_left fun v _ ↦ rfl

end Entries

/-! ## Steps -/

/-- The words that a statement may contain. -/
structure Vocabulary where
  columns : String → Prop
  texts : String → Prop
  paths : String → Prop
  outputs : String → Prop

/-- A placeholder has its value among the parameters; everything else is in the vocabulary. -/
def Leaf.Fits (voc : Vocabulary) (params : List Value) : Leaf → Prop
  | param index value => 1 ≤ index ∧ params[index - 1]? = some value
  | column _ name => voc.columns name
  | text s => voc.texts s
  | path s => voc.paths s
  | output name => voc.outputs name

structure Bound (voc : Vocabulary) (p : List Value) (leaves : List Leaf) (p' : List Value) :
    Prop where
  grows : p <+: p'
  fits : ∀ leaf ∈ leaves, leaf.Fits voc p'
  covers : ∀ index, p.length < index → index ≤ p'.length → ∃ value, .param index value ∈ leaves

variable {voc : Vocabulary} {p p' p'' : List Value} {leaves leaves' : List Leaf}

theorem Leaf.Fits.mono {leaf : Leaf} (h : leaf.Fits voc p) (hgrows : p <+: p') :
    leaf.Fits voc p' := by
  cases leaf with
  | param index value =>
    obtain ⟨suffix, rfl⟩ := hgrows
    obtain ⟨hindex, hvalue⟩ := h
    refine ⟨hindex, ?_⟩
    have hlt : index - 1 < p.length := (List.getElem?_eq_some_iff.mp hvalue).1
    rw [List.getElem?_append_left hlt, hvalue]
  | column | text | path | output => exact h

namespace Bound

/-- No new parameters. -/
theorem still (h : ∀ leaf ∈ leaves, leaf.Fits voc p) : Bound voc p leaves p where
  grows := List.prefix_rfl
  fits := h
  covers index hlt hle := absurd hle (by omega)

theorem nil : Bound voc p [] p := still (by simp)

theorem trans (h : Bound voc p leaves p') (h' : Bound voc p' leaves' p'') :
    Bound voc p (leaves ++ leaves') p'' where
  grows := h.grows.trans h'.grows
  fits leaf hleaf := by
    rcases List.mem_append.mp hleaf with hleaf | hleaf
    · exact (h.fits leaf hleaf).mono h'.grows
    · exact h'.fits leaf hleaf
  covers index hlt hle := by
    by_cases hold : index ≤ p'.length
    · obtain ⟨value, hmem⟩ := h.covers index hlt hold
      exact ⟨value, List.mem_append_left _ hmem⟩
    · obtain ⟨value, hmem⟩ := h'.covers index (by omega) hle
      exact ⟨value, List.mem_append_right _ hmem⟩

/-- The pieces may be put elsewhere, with more text around them. -/
theorem weaken (h : Bound voc p leaves p') (hsub : ∀ leaf ∈ leaves, leaf ∈ leaves')
    (hnew : ∀ leaf ∈ leaves', leaf ∈ leaves ∨ leaf.Fits voc p') : Bound voc p leaves' p' where
  grows := h.grows
  fits leaf hleaf := (hnew leaf hleaf).elim (h.fits leaf) id
  covers index hlt hle := by
    obtain ⟨value, hmem⟩ := h.covers index hlt hle
    exact ⟨value, hsub _ hmem⟩

theorem congr (h : Bound voc p leaves p') (hmem : ∀ leaf, leaf ∈ leaves ↔ leaf ∈ leaves') :
    Bound voc p leaves' p' :=
  h.weaken (fun leaf ↦ (hmem leaf).mp) fun leaf hleaf ↦ .inl ((hmem leaf).mpr hleaf)

/-- A piece with text in front of it. -/
theorem text (h : Bound voc p leaves p') (hnew : ∀ leaf ∈ leaves', leaf.Fits voc p') :
    Bound voc p (leaves' ++ leaves) p' :=
  h.weaken (fun _ ↦ List.mem_append_right _) fun leaf hleaf ↦
    (List.mem_append.mp hleaf).elim (fun h ↦ .inr (hnew leaf h)) .inl

/-- A piece with text behind it. -/
theorem textBehind (h : Bound voc p leaves p') (hnew : ∀ leaf ∈ leaves', leaf.Fits voc p') :
    Bound voc p (leaves ++ leaves') p' :=
  h.weaken (fun _ ↦ List.mem_append_left _) fun leaf hleaf ↦
    (List.mem_append.mp hleaf).imp_right (hnew leaf)

theorem single (v : Value) : Bound voc p [.param (p.length + 1) v] (p ++ [v]) where
  grows := List.prefix_append _ _
  fits leaf hleaf := by
    obtain rfl := List.mem_singleton.mp hleaf
    simp [Leaf.Fits]
  covers index hlt hle := by
    simp only [List.length_append, List.length_singleton] at hle
    obtain rfl : index = p.length + 1 := by omega
    exact ⟨v, List.mem_singleton_self _⟩

theorem push {v : Value} {e : Expr} (h : (push v : Binder ε Expr).run p = .ok (e, p')) :
    Bound voc p e.leaves p' := by
  obtain ⟨rfl, rfl⟩ := run_push_eq_ok.mp h
  exact single v

theorem pushOperand {v : Value} {o : Operand}
    (h : (pushOperand v : Binder ε Operand).run p = .ok (o, p')) : Bound voc p [o.leaf] p' := by
  obtain ⟨rfl, rfl⟩ := run_pushOperand_eq_ok.mp h
  exact single v

theorem pushPlaceholder {v : Value} {o : Placeholder}
    (h : (pushPlaceholder v : Binder ε Placeholder).run p = .ok (o, p')) :
    Bound voc p [o.leaf] p' := by
  obtain ⟨rfl, rfl⟩ := run_pushPlaceholder_eq_ok.mp h
  exact single v

/-- A loop is bound when its body is, with the parameters that there are by then. -/
theorem mapM {f : α → Binder ε β} {leavesOf : β → List Leaf} {xs : List α} {bs : List β}
    (hf : ∀ x ∈ xs, ∀ q b q', p <+: q → (f x).run q = .ok (b, q') → Bound voc q (leavesOf b) q')
    (h : (xs.mapM f).run p = .ok (bs, p')) : Bound voc p (bs.flatMap leavesOf) p' := by
  induction xs generalizing p bs with
  | nil =>
    rw [List.mapM_nil, run_pure_eq_ok] at h
    obtain ⟨rfl, rfl⟩ := h
    exact nil
  | cons x xs ih =>
    rw [List.mapM_cons, run_bind_eq_ok] at h
    obtain ⟨b, q, hb, h⟩ := h
    obtain ⟨rest, q', hrest, h⟩ := run_bind_eq_ok.mp h
    obtain ⟨rfl, rfl⟩ := run_pure_eq_ok.mp h
    have hbound := hf x List.mem_cons_self p b q List.prefix_rfl hb
    have htail : Bound voc q (rest.flatMap leavesOf) q' :=
      ih (fun y hy r c r' hr ↦ hf y (List.mem_cons_of_mem _ hy) r c r' (hbound.grows.trans hr)) hrest
    exact hbound.trans htail

theorem oneOf {column : Expr} {values : List Value} {es : List Expr}
    (hcolumn : ∀ q, ∀ leaf ∈ column.leaves, leaf.Fits voc q)
    (h : (oneOf column values : Binder ε (List Expr)).run p = .ok (es, p')) :
    Bound voc p (leavesOf es) p' := by
  match values with
  | [] =>
    obtain ⟨rfl, rfl⟩ := run_pure_eq_ok.mp h
    exact nil
  | [v] =>
    obtain ⟨e, q, he, h⟩ := run_bind_eq_ok.mp h
    obtain ⟨rfl, rfl⟩ := run_pure_eq_ok.mp h
    simpa [Expr.leaves] using (push he).text (hcolumn q)
  | v :: w :: values =>
    obtain ⟨items, q, hitems, h⟩ := run_bind_eq_ok.mp h
    obtain ⟨rfl, rfl⟩ := run_pure_eq_ok.mp h
    have hbound : Bound voc p (items.flatMap fun o ↦ [o.leaf]) q :=
      mapM (fun _ _ q b q' _ hb ↦ pushOperand hb) hitems
    rw [← List.map_eq_flatMap] at hbound
    simpa [Expr.leaves] using hbound.text (hcolumn q)

/-- In a statement that is bound every placeholder stands for the value it was made for. -/
theorem of_mem_placements {s : Statement} (h : Bound voc [] s.leaves p') {x : Placement}
    (hx : x ∈ s.placements) :
    1 ≤ x.index ∧ x.index ≤ p'.length ∧ p'[x.index - 1]? = some x.value := by
  have hmem : x.leaf ∈ s.leaves.filter Leaf.isParam :=
    s.map_leaf_placements ▸ List.mem_map_of_mem hx
  obtain ⟨hpos, hvalue⟩ := h.fits _ (List.mem_of_mem_filter hmem)
  have hlt := (List.getElem?_eq_some_iff.mp hvalue).1
  exact ⟨hpos, by omega, hvalue⟩

/-- And every parameter has a placeholder. -/
theorem exists_mem_placements {s : Statement} (h : Bound voc [] s.leaves p') {index : Nat}
    (hpos : 1 ≤ index) (hle : index ≤ p'.length) : ∃ x ∈ s.placements, x.index = index := by
  obtain ⟨value, hmem⟩ := h.covers index hpos hle
  have hparam : Leaf.param index value ∈ s.placements.map Placement.leaf :=
    s.map_leaf_placements ▸ List.mem_filter.mpr ⟨hmem, rfl⟩
  obtain ⟨x, hx, heq⟩ := List.mem_map.mp hparam
  exact ⟨x, hx, (Leaf.param.inj heq).1⟩

theorem map_bound_placements {s : Statement} (h : Bound voc [] s.leaves p') :
    s.placements.map (Placement.bound p') =
      (entries s.placements).map fun (slot, v) ↦ (slot, some v) := by
  rw [entries, List.map_map]
  exact List.map_congr_left fun x hx ↦ congrArg (Prod.mk x.slot) (h.of_mem_placements hx).2.2

end Bound

end Sql

end Khive
