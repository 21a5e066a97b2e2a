import Mathlib

/-!
# Tables with a key

A table is a list of rows no two of which have the same key. Rows are read by their key; a row is
replaced by one of the same key, and a row is inserted when its key is not held. What a table answers
to each key determines which rows it has, and every operation is described by its answers.
-/

namespace Khive

/-- Rows of which no two have the same key. -/
@[ext]
structure Table (α κ : Type) (key : α → κ) where
  rows : List α
  distinct : (rows.map key).Nodup
  deriving DecidableEq

namespace Table

variable {α κ : Type} [DecidableEq κ] {key : α → κ} {t t' : Table α κ key} {x y : α} {k : κ}

def empty : Table α κ key := ⟨[], List.nodup_nil⟩

def get (t : Table α κ key) (k : κ) : Option α := t.rows.find? fun x ↦ key x = k

theorem get_eq_some : t.get k = some x ↔ x ∈ t.rows ∧ key x = k := by
  constructor
  · intro h
    exact ⟨List.mem_of_find?_eq_some h, by simpa using List.find?_some h⟩
  · rintro ⟨hx, rfl⟩
    cases hget : t.get (key x) with
    | none => exact absurd (List.find?_eq_none.mp hget x hx) (by simp)
    | some y =>
      have hy : y ∈ t.rows ∧ key y = key x :=
        ⟨List.mem_of_find?_eq_some hget, by simpa using List.find?_some hget⟩
      rw [List.inj_on_of_nodup_map t.distinct hy.1 hx hy.2]

theorem mem_of_get (h : t.get k = some x) : x ∈ t.rows := (get_eq_some.mp h).1

theorem key_of_get (h : t.get k = some x) : key x = k := (get_eq_some.mp h).2

theorem get_of_mem (h : x ∈ t.rows) : t.get (key x) = some x := get_eq_some.mpr ⟨h, rfl⟩

theorem get_eq_none : t.get k = none ↔ k ∉ t.rows.map key := by
  simp [get, List.find?_eq_none]

/-! ## Replacing a row -/

theorem map_key_put (rows : List α) (x : α) :
    (rows.map fun held ↦ if key held = key x then x else held).map key = rows.map key := by
  rw [List.map_map]
  refine List.map_congr_left fun held _ ↦ ?_
  by_cases h : key held = key x
  · simp [h]
  · simp [h]

/-- Put a row in the place of the one that has its key. -/
def put (t : Table α κ key) (x : α) : Table α κ key where
  rows := t.rows.map fun held ↦ if key held = key x then x else held
  distinct := by rw [map_key_put]; exact t.distinct

theorem mem_put : y ∈ (t.put x).rows ↔
    y = x ∧ (t.get (key x)).isSome ∨ y ∈ t.rows ∧ key y ≠ key x := by
  rw [put, List.mem_map]
  constructor
  · rintro ⟨held, hheld, rfl⟩
    by_cases h : key held = key x
    · refine Or.inl ⟨if_pos h, ?_⟩
      rw [← h, get_of_mem hheld]
      rfl
    · rw [if_neg h]
      exact Or.inr ⟨hheld, h⟩
  · rintro (⟨rfl, h⟩ | ⟨hy, hne⟩)
    · obtain ⟨held, hheld⟩ := Option.isSome_iff_exists.mp h
      exact ⟨held, mem_of_get hheld, if_pos (key_of_get hheld)⟩
    · exact ⟨y, hy, if_neg hne⟩

theorem get_put_of_ne (h : k ≠ key x) : (t.put x).get k = t.get k := by
  refine Option.ext fun y ↦ ?_
  rw [get_eq_some, get_eq_some, mem_put]
  constructor
  · rintro ⟨⟨rfl, -⟩ | ⟨hy, -⟩, hk⟩
    · exact absurd hk.symm h
    · exact ⟨hy, hk⟩
  · rintro ⟨hy, rfl⟩
    exact ⟨Or.inr ⟨hy, h⟩, rfl⟩

theorem get_put_self (h : t.get (key x) = some y) : (t.put x).get (key x) = some x :=
  get_eq_some.mpr ⟨mem_put.mpr (Or.inl ⟨rfl, by rw [h]; rfl⟩), rfl⟩

/-- What the table answers after a row of a held key is replaced. -/
theorem get_put (h : t.get (key x) = some y) (k : κ) :
    (t.put x).get k = if k = key x then some x else t.get k := by
  by_cases hk : k = key x
  · rw [if_pos hk, hk, get_put_self h]
  · rw [if_neg hk, get_put_of_ne hk]

/-! ## Updating a row -/

/-- Change the row of a key, but not its key. -/
def update (t : Table α κ key) (k : κ) (f : α → α) (hf : ∀ x, key (f x) = key x) :
    Table α κ key where
  rows := t.rows.map fun held ↦ if key held = k then f held else held
  distinct := by
    have hkeys : (t.rows.map fun held ↦ if key held = k then f held else held).map key =
        t.rows.map key := by
      rw [List.map_map]
      refine List.map_congr_left fun held _ ↦ ?_
      by_cases h : key held = k
      · simp [h, hf]
      · simp [h]
    rw [hkeys]
    exact t.distinct

theorem get_update (f : α → α) (hf : ∀ x, key (f x) = key x) (k' : κ) :
    (t.update k f hf).get k' = if k' = k then (t.get k).map f else t.get k' := by
  refine Option.ext fun y ↦ ?_
  rw [get_eq_some, update, List.mem_map]
  by_cases hk : k' = k
  · rw [if_pos hk, Option.map_eq_some_iff]
    constructor
    · rintro ⟨⟨held, hheld, rfl⟩, hy⟩
      by_cases h : key held = k
      · rw [if_pos h]
        exact ⟨held, get_eq_some.mpr ⟨hheld, h⟩, rfl⟩
      · rw [if_neg h] at hy
        exact absurd (hy.trans hk) h
    · rintro ⟨held, hheld, rfl⟩
      obtain ⟨hmem, h⟩ := get_eq_some.mp hheld
      exact ⟨⟨held, hmem, if_pos h⟩, by rw [hf, h, hk]⟩
  · rw [if_neg hk, get_eq_some]
    constructor
    · rintro ⟨⟨held, hheld, rfl⟩, hy⟩
      by_cases h : key held = k
      · rw [if_pos h, hf] at hy
        exact absurd (hy.symm.trans h) hk
      · rw [if_neg h] at hy ⊢
        exact ⟨hheld, hy⟩
    · rintro ⟨hy, rfl⟩
      exact ⟨⟨y, hy, if_neg hk⟩, rfl⟩

/-! ## Inserting a row -/

omit [DecidableEq κ] in
theorem nodup_insert {rows : List α} (h : (rows.map key).Nodup) (hx : key x ∉ rows.map key) :
    ((rows ++ [x]).map key).Nodup := by
  rw [List.map_append, List.nodup_append]
  refine ⟨h, List.nodup_singleton _, fun a ha b hb hab ↦ hx ?_⟩
  rw [← List.mem_singleton.mp hb, ← hab]
  exact ha

/-- Insert a row of a new key. -/
def insert (t : Table α κ key) (x : α) : Option (Table α κ key) :=
  if h : key x ∈ t.rows.map key then none else some ⟨t.rows ++ [x], nodup_insert t.distinct h⟩

theorem insert_eq_some :
    t.insert x = some t' ↔ t.get (key x) = none ∧ t'.rows = t.rows ++ [x] := by
  rw [get_eq_none]
  by_cases h : key x ∈ t.rows.map key
  · simp [insert, h]
  · rw [insert, dif_neg h, Option.some.injEq]
    constructor
    · rintro rfl
      exact ⟨h, rfl⟩
    · rintro ⟨-, hrows⟩
      cases t' with
      | mk rows distinct =>
        cases hrows
        rfl

theorem get_insert (h : t.insert x = some t') (k : κ) :
    t'.get k = if k = key x then some x else t.get k := by
  obtain ⟨hfresh, hrows⟩ := insert_eq_some.mp h
  by_cases hk : k = key x
  · rw [if_pos hk, hk, get_eq_some, hrows]
    exact ⟨List.mem_append_right _ List.mem_cons_self, rfl⟩
  · rw [if_neg hk]
    refine Option.ext fun y ↦ ?_
    rw [get_eq_some, get_eq_some, hrows, List.mem_append, List.mem_singleton]
    constructor
    · rintro ⟨hy | rfl, hky⟩
      · exact ⟨hy, hky⟩
      · exact absurd hky.symm hk
    · rintro ⟨hy, hky⟩
      exact ⟨Or.inl hy, hky⟩

/-- Insert a row, in the place of the one that has its key. -/
def upsert (t : Table α κ key) (x : α) : Table α κ key := (t.insert x).getD (t.put x)

theorem get_upsert (t : Table α κ key) (x : α) (k : κ) :
    (t.upsert x).get k = if k = key x then some x else t.get k := by
  unfold upsert
  rcases hinsert : t.insert x with _ | t'
  · obtain ⟨y, hy⟩ : ∃ y, t.get (key x) = some y := by
      by_contra hnone
      have hfresh : key x ∉ t.rows.map key :=
        get_eq_none.mp (Option.eq_none_iff_forall_ne_some.mpr (not_exists.mp hnone))
      rw [insert, dif_neg hfresh] at hinsert
      exact absurd hinsert (by simp)
    exact get_put hy k
  · exact get_insert hinsert k

/-! ## Deleting rows -/

/-- Keep the rows that satisfy `p`. -/
def filter (t : Table α κ key) (p : α → Bool) : Table α κ key where
  rows := t.rows.filter p
  distinct := t.distinct.sublist (List.filter_sublist.map key)

theorem get_filter (t : Table α κ key) (p : α → Bool) (k : κ) :
    (t.filter p).get k = (t.get k).filter p := by
  refine Option.ext fun y ↦ ?_
  rw [get_eq_some, filter, List.mem_filter, Option.filter_eq_some_iff, get_eq_some]
  tauto

end Table

end Khive
