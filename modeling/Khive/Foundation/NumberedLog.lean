import Mathlib.Data.List.Sort
import Mathlib.Tactic

/-!
# Numbered logs

A log hands out consecutive numbers, keeps what was appended under them, and may forget a prefix.
The numbers it holds are dense by construction: a log is the number before its first entry
together with the list of its entries. Forgetting a prefix moves the base up and never moves the
head back, so a number is given once even when every entry is forgotten.

`Later l l'` says that `l'` can have come from `l` by such steps, in terms of what a reader can
see: floor and head have not fallen, and where both hold a number they hold the same entry under
it. A reader that takes pages from ever later logs misses only what was forgotten.
-/

namespace Khive

/-- The entries numbered `base + 1`, `base + 2`, and so on. -/
structure Log (α : Type) where
  base : ℕ
  entries : List α

namespace Log

variable {α : Type} {l l' l'' : Log α} {n after before : ℤ} {x : α}

def empty : Log α := ⟨0, []⟩

/-- The first number not forgotten. -/
def floor (l : Log α) : ℤ := l.base + 1

/-- The last number given out. -/
def head (l : Log α) : ℤ := l.base + l.entries.length

def get? (l : Log α) (n : ℤ) : Option α :=
  if l.base < n then l.entries[(n - l.base - 1).toNat]? else none

@[simp] theorem get?_empty : (empty : Log α).get? n = none := by
  simp [get?, empty]

theorem floor_pos (l : Log α) : 1 ≤ l.floor := by
  unfold floor
  omega

theorem floor_le_head_succ (l : Log α) : l.floor ≤ l.head + 1 := by
  unfold floor head
  omega

/-- **Density.** A log holds exactly the numbers from its floor to its head. -/
theorem isSome_get? : (l.get? n).isSome ↔ l.floor ≤ n ∧ n ≤ l.head := by
  unfold get? floor head
  split
  · rw [Option.isSome_iff_ne_none, ne_eq, List.getElem?_eq_none_iff]
    omega
  · simp only [Option.isSome_none, Bool.false_eq_true, false_iff]
    omega

theorem bounds_of_get? (h : l.get? n = some x) : l.floor ≤ n ∧ n ≤ l.head :=
  isSome_get?.mp (Option.isSome_iff_exists.mpr ⟨x, h⟩)

theorem exists_get? (hf : l.floor ≤ n) (hh : n ≤ l.head) : ∃ x, l.get? n = some x :=
  Option.isSome_iff_exists.mp (isSome_get?.mpr ⟨hf, hh⟩)

theorem get?_eq_none (h : ¬ (l.floor ≤ n ∧ n ≤ l.head)) : l.get? n = none := by
  rwa [← Option.not_isSome_iff_eq_none, isSome_get?]

/-! ## Appending -/

def append (l : Log α) (x : α) : Log α := ⟨l.base, l.entries ++ [x]⟩

@[simp] theorem floor_append : (l.append x).floor = l.floor := rfl

@[simp] theorem head_append : (l.append x).head = l.head + 1 := by
  simp only [head, append, List.length_append, List.length_singleton]
  omega

theorem get?_append : (l.append x).get? n = if n = l.head + 1 then some x else l.get? n := by
  unfold get? head append
  by_cases hbase : (l.base : ℤ) < n
  · rw [if_pos hbase, if_pos hbase]
    by_cases hnew : n = l.base + l.entries.length + 1
    · rw [if_pos hnew, show (n - l.base - 1).toNat = l.entries.length from by omega,
        List.getElem?_concat_length]
    · rw [if_neg hnew]
      by_cases hold : (n - l.base - 1).toNat < l.entries.length
      · exact List.getElem?_append_left hold
      · rw [List.getElem?_eq_none (by simp only [List.length_append, List.length_singleton]; omega),
          List.getElem?_eq_none (by omega)]
  · rw [if_neg hbase, if_neg (by omega), if_neg hbase]

/-! ## Forgetting a prefix -/

/-- Forgets the entries numbered below `before`, as far as there are any. -/
def truncate (l : Log α) (before : ℤ) : Log α :=
  let removed := (min before (l.head + 1) - l.floor).toNat
  ⟨l.base + removed, l.entries.drop removed⟩

@[simp] theorem head_truncate : (l.truncate before).head = l.head := by
  simp only [truncate, head, floor, List.length_drop]
  omega

theorem floor_truncate :
    (l.truncate before).floor = max l.floor (min before (l.head + 1)) := by
  simp only [truncate, head, floor]
  omega

theorem get?_truncate :
    (l.truncate before).get? n = if n < before then none else l.get? n := by
  by_cases hn : (l.truncate before).floor ≤ n ∧ n ≤ l.head
  · have hfloor := hn.1
    rw [floor_truncate] at hfloor
    have hbase : ((l.truncate before).base : ℤ) < n := by
      have := hn.1
      unfold floor at this
      omega
    rw [if_neg (by omega), get?, if_pos hbase, get?, if_pos (by unfold floor at hfloor; omega)]
    unfold floor head at hfloor
    simp only [truncate, floor, head, List.getElem?_drop]
    congr 1
    omega
  · rw [get?_eq_none (by rwa [head_truncate])]
    rw [floor_truncate] at hn
    split
    · rfl
    · rw [get?_eq_none]
      omega

/-! ## Later logs -/

/-- What a reader can see of `l` and `l'` when `l'` came later. -/
structure Later (l l' : Log α) : Prop where
  floor_le : l.floor ≤ l'.floor
  head_le : l.head ≤ l'.head
  get?_eq : ∀ n, l'.floor ≤ n → n ≤ l.head → l'.get? n = l.get? n

theorem Later.refl (l : Log α) : Later l l := ⟨le_rfl, le_rfl, fun _ _ _ ↦ rfl⟩

theorem Later.trans (h : Later l l') (h' : Later l' l'') : Later l l'' where
  floor_le := h.floor_le.trans h'.floor_le
  head_le := h.head_le.trans h'.head_le
  get?_eq n hfloor hhead := by
    rw [h'.get?_eq n hfloor (hhead.trans h.head_le)]
    exact h.get?_eq n (h'.floor_le.trans hfloor) hhead

theorem later_append (l : Log α) (x : α) : Later l (l.append x) where
  floor_le := le_rfl
  head_le := by rw [head_append]; omega
  get?_eq n _ hhead := by rw [get?_append, if_neg (by omega)]

theorem later_truncate (l : Log α) (before : ℤ) : Later l (l.truncate before) where
  floor_le := by rw [floor_truncate]; omega
  head_le := by rw [head_truncate]
  get?_eq n hfloor hhead := by
    rw [floor_truncate] at hfloor
    rw [get?_truncate, if_neg (by omega)]

/-! ## Pages -/

/-- Entries under strictly increasing numbers. -/
abbrev Ascending (es : List (ℤ × α)) : Prop := es.Pairwise fun a b ↦ a.1 < b.1

/-- Every entry with its number, in order. -/
def numbered (l : Log α) : List (ℤ × α) := l.entries.mapIdx fun i x ↦ (l.floor + i, x)

theorem mem_numbered {e : ℤ × α} : e ∈ l.numbered ↔ l.get? e.1 = some e.2 := by
  obtain ⟨n, y⟩ := e
  simp only [numbered, List.mem_mapIdx, get?, floor, Prod.mk.injEq]
  constructor
  · rintro ⟨i, hi, hn, rfl⟩
    rw [if_pos (by omega), show (n - l.base - 1).toNat = i from by omega]
    exact List.getElem?_eq_getElem hi
  · intro h
    split at h
    · obtain ⟨hi, hy⟩ := List.getElem?_eq_some_iff.mp h
      exact ⟨_, hi, by omega, hy⟩
    · exact absurd h (by simp)

theorem ascending_numbered (l : Log α) : Ascending l.numbered := by
  rw [Ascending, numbered, List.pairwise_iff_getElem]
  intro i j hi hj hij
  simp only [List.getElem_mapIdx]
  omega

/-- Two ascending lists of the same entries are equal. -/
theorem Ascending.ext {es es' : List (ℤ × α)} (h : Ascending es) (h' : Ascending es')
    (hmem : ∀ e, e ∈ es ↔ e ∈ es') : es = es' := by
  have hnodup : ∀ {es : List (ℤ × α)}, Ascending es → es.Nodup := fun h ↦
    h.imp fun hlt heq ↦ (heq ▸ hlt).false
  refine ((List.perm_ext_iff_of_nodup (hnodup h) (hnodup h')).mpr hmem).eq_of_pairwise ?_ h h'
  intro a b _ _ hab hba
  exact absurd (hab.trans hba) (lt_irrefl _)

/-- The first `limit` entries above `after`. -/
def page (l : Log α) (after : ℤ) (limit : ℕ) : List (ℤ × α) :=
  (l.numbered.filter fun e ↦ after < e.1).take limit

/-- Where the next page starts, when the log has entries past this one. -/
def next (l : Log α) (es : List (ℤ × α)) : Option ℤ :=
  (es.getLast?.map Prod.fst).filter (· < l.head)

theorem get?_of_mem_page {limit : ℕ} {e : ℤ × α} (h : e ∈ l.page after limit) :
    after < e.1 ∧ l.get? e.1 = some e.2 := by
  have hmem := List.mem_filter.mp (List.mem_of_mem_take h)
  exact ⟨of_decide_eq_true hmem.2, mem_numbered.mp hmem.1⟩

theorem ascending_page (l : Log α) (after : ℤ) (limit : ℕ) : Ascending (l.page after limit) :=
  ((ascending_numbered l).filter _).sublist (List.take_sublist _ _)

/-- A page has no holes: what the log holds above `after` and up to an entry of the page is on
the page. -/
theorem mem_page_of_le {limit : ℕ} {a e : ℤ × α} (ha : a ∈ l.page after limit)
    (hafter : after < e.1) (hle : e.1 ≤ a.1) (he : l.get? e.1 = some e.2) :
    e ∈ l.page after limit := by
  have hall : e ∈ l.numbered.filter fun e ↦ after < e.1 :=
    List.mem_filter.mpr ⟨mem_numbered.mpr he, decide_eq_true hafter⟩
  have hsorted : Ascending (l.numbered.filter fun e ↦ after < e.1) :=
    (ascending_numbered l).filter _
  rw [Ascending, ← List.take_append_drop limit (l.numbered.filter _)] at hsorted
  rw [← List.take_append_drop limit (l.numbered.filter _)] at hall
  rcases List.mem_append.mp hall with htake | hdrop
  · exact htake
  · exact absurd ((List.pairwise_append.mp hsorted).2.2 a ha e hdrop) (by omega)

/-- An empty page means that nothing is above `after`. -/
theorem le_of_page_eq_nil {limit : ℕ} (hlimit : 0 < limit) (h : l.page after limit = [])
    (hn : l.get? n = some x) : n ≤ after := by
  by_contra hlt
  have hmem : (n, x) ∈ l.numbered.filter fun e ↦ after < e.1 :=
    List.mem_filter.mpr ⟨mem_numbered.mpr hn, decide_eq_true (by omega)⟩
  rcases List.take_eq_nil_iff.mp h with hzero | hnil
  · omega
  · rw [hnil] at hmem
    exact List.not_mem_nil hmem

/-- The last number on a page, or where the page started. -/
def lastOf (after : ℤ) (es : List (ℤ × α)) : ℤ := ((es.getLast?.map Prod.fst).getD after)

theorem next_eq_some {es : List (ℤ × α)} :
    l.next es = some n ↔ (∃ e, es.getLast? = some e ∧ e.1 = n) ∧ n < l.head := by
  simp only [next, Option.filter_eq_some_iff, Option.map_eq_some_iff, decide_eq_true_eq]

/-- The log holds an entry above the page exactly when the page says where to go on. -/
theorem next_eq_none_iff {limit : ℕ} (hlimit : 0 < limit) :
    l.next (l.page after limit) = none ↔
      ∀ n x, l.get? n = some x → n ≤ lastOf after (l.page after limit) := by
  rcases hlast : (l.page after limit).getLast? with _ | e
  · have hnil := List.getLast?_eq_none_iff.mp hlast
    rw [next, lastOf, hlast]
    simp only [Option.map_none, Option.filter_none, Option.getD_none, true_iff]
    exact fun n x hn ↦ le_of_page_eq_nil hlimit hnil hn
  · have he := (get?_of_mem_page (List.mem_of_getLast? hlast)).2
    rw [next, lastOf, hlast]
    simp only [Option.map_some, Option.getD_some, Option.filter_eq_none_iff, Option.some.injEq,
      forall_eq', decide_eq_true_eq, not_lt]
    constructor
    · intro hhead n x hn
      exact (bounds_of_get? hn).2.trans hhead
    · intro hall
      obtain ⟨y, hy⟩ := exists_get? (l := l) (n := l.head)
        ((bounds_of_get? he).1.trans (bounds_of_get? he).2) le_rfl
      exact hall _ _ hy

/-! ## A reader over ever later logs -/

/-- A reader's pages, each from the log as it stood then, until a page says to stop. -/
inductive Reads : ℤ → List (Log α) → List (ℤ × α) → Prop
  | last (l : Log α) (after : ℤ) (limit : ℕ) (hlimit : 0 < limit)
      (hnext : l.next (l.page after limit) = none) : Reads after [l] (l.page after limit)
  | more (l : Log α) (after : ℤ) (limit : ℕ) (hlimit : 0 < limit) (a : ℤ)
      (hnext : l.next (l.page after limit) = some a) (ls : List (Log α)) (es : List (ℤ × α))
      (rest : Reads a ls es) : Reads after (l :: ls) (l.page after limit ++ es)

variable {ls : List (Log α)} {es : List (ℤ × α)}

theorem lt_of_next {limit : ℕ} (h : l.next (l.page after limit) = some n) : after < n := by
  obtain ⟨⟨e, hlast, rfl⟩, -⟩ := next_eq_some.mp h
  exact (get?_of_mem_page (List.mem_of_getLast? hlast)).1

theorem le_of_mem_page_of_next {limit : ℕ} (h : l.next (l.page after limit) = some n)
    {e : ℤ × α} (he : e ∈ l.page after limit) : e.1 ≤ n := by
  obtain ⟨⟨a, hlast, rfl⟩, -⟩ := next_eq_some.mp h
  obtain ⟨front, hfront⟩ := List.getLast?_eq_some_iff.mp hlast
  have hsorted := ascending_page l after limit
  rw [Ascending, hfront] at hsorted
  rw [hfront] at he
  rcases List.mem_append.mp he with hmem | hmem
  · exact ((List.pairwise_append.mp hsorted).2.2 e hmem a (List.mem_singleton_self a)).le
  · exact (congrArg Prod.fst (List.mem_singleton.mp hmem)).le

theorem Reads.after_lt (h : Reads after ls es) : ∀ e ∈ es, after < e.1 := by
  induction h with
  | last l after limit _ _ => exact fun e he ↦ (get?_of_mem_page he).1
  | more l after limit _ a hnext ls es _ ih =>
    intro e he
    rcases List.mem_append.mp he with hpage | hrest
    · exact (get?_of_mem_page hpage).1
    · exact (lt_of_next hnext).trans (ih e hrest)

theorem Reads.ascending (h : Reads after ls es) : Ascending es := by
  induction h with
  | last l after limit _ _ => exact ascending_page l after limit
  | more l after limit _ a hnext ls es hrest ih =>
    refine List.pairwise_append.mpr ⟨ascending_page l after limit, ih, ?_⟩
    exact fun e he e' he' ↦ (le_of_mem_page_of_next hnext he).trans_lt (hrest.after_lt e' he')

theorem Reads.get? (h : Reads after ls es) : ∀ e ∈ es, ∃ l ∈ ls, l.get? e.1 = some e.2 := by
  induction h with
  | last l after limit _ _ =>
    exact fun e he ↦ ⟨l, List.mem_singleton_self l, (get?_of_mem_page he).2⟩
  | more l after limit _ a _ ls es _ ih =>
    intro e he
    rcases List.mem_append.mp he with hpage | hrest
    · exact ⟨l, List.mem_cons_self, (get?_of_mem_page hpage).2⟩
    · obtain ⟨l', hl', hget⟩ := ih e hrest
      exact ⟨l', List.mem_cons_of_mem _ hl', hget⟩

/-- **Nothing missed.** A number above `after` that the first log had given out is returned
unless the last log has forgotten it. -/
theorem Reads.mem (h : Reads after ls es) (hls : ls.Pairwise Later) {first last : Log α}
    (hfirst : ls.head? = some first) (hlast : ls.getLast? = some last)
    (hafter : after < n) (hhead : n ≤ first.head) (hfloor : last.floor ≤ n) :
    n ∈ es.map Prod.fst := by
  induction h generalizing first with
  | last l after limit hlimit hnext =>
    obtain rfl : l = first := by simpa using hfirst
    obtain rfl : l = last := by simpa using hlast
    obtain ⟨x, hx⟩ := exists_get? hfloor hhead
    have hle := (next_eq_none_iff hlimit).mp hnext n x hx
    rcases hpage : (l.page after limit).getLast? with _ | e
    · rw [lastOf, hpage] at hle
      exact absurd hle (by simpa using hafter)
    · rw [lastOf, hpage] at hle
      exact List.mem_map.mpr
        ⟨(n, x), mem_page_of_le (List.mem_of_getLast? hpage) hafter hle hx, rfl⟩
  | more l after limit hlimit a hnext ls es hrest ih =>
    obtain rfl : l = first := by simpa using hfirst
    rw [List.map_append, List.mem_append]
    -- a completed reader has a page after this one, and the last log is among the later ones
    obtain ⟨l', ls', rfl⟩ : ∃ l' ls', ls = l' :: ls' := by
      cases hrest <;> exact ⟨_, _, rfl⟩
    have hlast' : (l' :: ls').getLast? = some last := by
      rwa [List.getLast?_cons_cons] at hlast
    have hlater := (List.pairwise_cons.mp hls).1
    by_cases ha : n ≤ a
    · have hfloor' : l.floor ≤ n :=
        (hlater last (List.mem_of_getLast? hlast')).floor_le.trans hfloor
      obtain ⟨x, hx⟩ := exists_get? hfloor' hhead
      obtain ⟨⟨e, hpage, rfl⟩, -⟩ := next_eq_some.mp hnext
      exact .inl (List.mem_map.mpr
        ⟨(n, x), mem_page_of_le (List.mem_of_getLast? hpage) hafter ha hx, rfl⟩)
    · have hfirst' : (l' :: ls').head? = some l' := rfl
      exact .inr (ih (List.pairwise_cons.mp hls).2 hfirst' hlast' (by omega)
        (hhead.trans (hlater l' List.mem_cons_self).head_le))

end Log

end Khive
