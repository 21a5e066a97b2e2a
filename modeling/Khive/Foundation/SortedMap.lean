import Mathlib

/-!
# Maps ordered by key

A map ordered by key is the list of its entries in key order. Insertion walks the list to the
place of the key and replaces an entry that is already there. Collecting inserts a list of entries
one after another, so of several entries under one key the last survives, and `mem_collect` says
that nothing else happens.
-/

namespace Khive

namespace SortedMap

variable {κ α : Type} [LinearOrder κ]

/-- `BTreeMap::insert`. -/
def insert (k : κ) (a : α) : List (κ × α) → List (κ × α)
  | [] => [(k, a)]
  | (l, b) :: rest =>
    if k < l then (k, a) :: (l, b) :: rest
    else if k = l then (k, a) :: rest
    else (l, b) :: insert k a rest

/-- Insert the entries in turn. -/
def collect (entries : List (κ × α)) : List (κ × α) :=
  entries.foldl (fun m e ↦ insert e.1 e.2 m) []

/-- The keys increase strictly. -/
def Sorted (m : List (κ × α)) : Prop := m.Pairwise fun e f ↦ e.1 < f.1

theorem collect_append (entries : List (κ × α)) (e : κ × α) :
    collect (entries ++ [e]) = insert e.1 e.2 (collect entries) := by
  rw [collect, List.foldl_append, List.foldl_cons, List.foldl_nil, collect]

theorem mem_insert {k : κ} {a : α} {m : List (κ × α)} (hm : Sorted m) {e : κ × α} :
    e ∈ insert k a m ↔ e = (k, a) ∨ e ∈ m ∧ e.1 ≠ k := by
  induction m with
  | nil => simp [insert]
  | cons f rest ih =>
    obtain ⟨hf, hrest⟩ := List.pairwise_cons.mp hm
    rw [insert]
    split_ifs with hlt heq
    · -- the new key is below every key of the map
      have hne : e ∈ f :: rest → e.1 ≠ k := by
        intro he hk
        rcases List.mem_cons.mp he with rfl | he
        · exact absurd hk hlt.ne'
        · exact absurd hk (hlt.trans (hf e he)).ne'
      rw [List.mem_cons]
      exact or_congr_right ⟨fun h ↦ ⟨h, hne h⟩, fun h ↦ h.1⟩
    · -- the entry of the same key is replaced, and the keys behind it are larger
      subst heq
      rw [List.mem_cons, List.mem_cons]
      refine or_congr_right ⟨fun h ↦ ⟨Or.inr h, (hf e h).ne'⟩, ?_⟩
      rintro ⟨rfl | h, hne⟩
      · exact absurd rfl hne
      · exact h
    · rw [List.mem_cons, ih hrest, List.mem_cons]
      constructor
      · rintro (rfl | h | ⟨h, hne⟩)
        · exact Or.inr ⟨Or.inl rfl, Ne.symm heq⟩
        · exact Or.inl h
        · exact Or.inr ⟨Or.inr h, hne⟩
      · rintro (h | ⟨rfl | h, hne⟩)
        · exact Or.inr (Or.inl h)
        · exact Or.inl rfl
        · exact Or.inr (Or.inr ⟨h, hne⟩)

theorem sorted_insert (k : κ) (a : α) {m : List (κ × α)} (hm : Sorted m) :
    Sorted (insert k a m) := by
  induction m with
  | nil => exact List.pairwise_singleton _ _
  | cons f rest ih =>
    obtain ⟨hf, hrest⟩ := List.pairwise_cons.mp hm
    rw [insert]
    split_ifs with hlt heq
    · refine List.pairwise_cons.mpr ⟨fun e he ↦ ?_, hm⟩
      rcases List.mem_cons.mp he with rfl | he
      · exact hlt
      · exact hlt.trans (hf e he)
    · subst heq
      exact List.pairwise_cons.mpr ⟨hf, hrest⟩
    · refine List.pairwise_cons.mpr ⟨fun e he ↦ ?_, ih hrest⟩
      rcases (mem_insert hrest).mp he with rfl | ⟨he, -⟩
      · exact lt_of_le_of_ne (not_lt.mp hlt) (Ne.symm heq)
      · exact hf e he

theorem sorted_collect (entries : List (κ × α)) : Sorted (collect entries) := by
  induction entries using List.reverseRecOn with
  | nil => exact List.Pairwise.nil
  | append_singleton entries e ih =>
    rw [collect_append]
    exact sorted_insert _ _ ih

/-- The entry is in the list and no later entry has its key. -/
def Survives (entries : List (κ × α)) (e : κ × α) : Prop :=
  ∃ before after, entries = before ++ e :: after ∧ e.1 ∉ after.map Prod.fst

omit [LinearOrder κ] in
theorem survives_append {entries : List (κ × α)} {e f : κ × α} :
    Survives (entries ++ [f]) e ↔ e = f ∨ Survives entries e ∧ e.1 ≠ f.1 := by
  constructor
  · rintro ⟨before, after, heq, hlast⟩
    rcases List.eq_nil_or_concat after with rfl | ⟨after, g, rfl⟩
    · obtain ⟨-, hcons⟩ := List.append_inj' heq rfl
      exact Or.inl (List.cons.inj hcons).1.symm
    · rw [List.concat_eq_append, ← List.cons_append, ← List.append_assoc] at heq
      obtain ⟨rfl, hg⟩ := List.append_inj' heq rfl
      obtain rfl := (List.cons.inj hg).1
      rw [List.concat_eq_append, List.map_append, List.mem_append, not_or] at hlast
      refine Or.inr ⟨⟨before, after, rfl, hlast.1⟩, fun h ↦ hlast.2 ?_⟩
      exact List.mem_singleton.mpr h
  · rintro (rfl | ⟨⟨before, after, rfl, hlast⟩, hne⟩)
    · exact ⟨entries, [], rfl, List.not_mem_nil⟩
    · refine ⟨before, after ++ [f], by simp, ?_⟩
      rw [List.map_append, List.mem_append, not_or]
      exact ⟨hlast, fun h ↦ hne (List.mem_singleton.mp h)⟩

/-- **Last one wins**: collecting keeps, of the entries under each key, the last. -/
theorem mem_collect {entries : List (κ × α)} {e : κ × α} :
    e ∈ collect entries ↔ Survives entries e := by
  induction entries using List.reverseRecOn with
  | nil =>
    refine iff_of_false List.not_mem_nil ?_
    rintro ⟨before, after, heq, -⟩
    simp at heq
  | append_singleton entries f ih =>
    rw [collect_append, mem_insert (sorted_collect entries), ih, survives_append]

theorem mem_of_mem_collect {entries : List (κ × α)} {e : κ × α} (h : e ∈ collect entries) :
    e ∈ entries := by
  obtain ⟨before, after, rfl, -⟩ := mem_collect.mp h
  exact List.mem_append_right _ List.mem_cons_self

/-- Where every key occurs once, all entries survive. -/
theorem mem_collect_of_nodup {entries : List (κ × α)} (h : (entries.map Prod.fst).Nodup)
    {e : κ × α} : e ∈ collect entries ↔ e ∈ entries := by
  refine ⟨mem_of_mem_collect, fun he ↦ mem_collect.mpr ?_⟩
  obtain ⟨before, after, rfl⟩ := List.append_of_mem he
  rw [List.map_append, List.map_cons] at h
  exact ⟨before, after, rfl, (List.nodup_cons.mp (List.nodup_append.mp h).2.1).1⟩

/-- Inserting a key above all others appends. -/
theorem insert_of_forall_lt {k : κ} {a : α} {m : List (κ × α)} (h : ∀ e ∈ m, e.1 < k) :
    insert k a m = m ++ [(k, a)] := by
  induction m with
  | nil => rfl
  | cons f rest ih =>
    have hf : f.1 < k := h f List.mem_cons_self
    rw [insert, if_neg hf.not_gt, if_neg hf.ne', ih fun e he ↦ h e (List.mem_cons_of_mem _ he)]
    rfl

/-- A sorted list of entries is the map it collects to. -/
theorem collect_of_sorted {m : List (κ × α)} (hm : Sorted m) : collect m = m := by
  induction m using List.reverseRecOn with
  | nil => rfl
  | append_singleton m e ih =>
    obtain ⟨hm, -, hlt⟩ := List.pairwise_append.mp hm
    rw [collect_append, ih hm]
    exact insert_of_forall_lt fun f hf ↦ hlt f hf e (List.mem_singleton.mpr rfl)

/-! ## Lookup -/

theorem nodup_keys {m : List (κ × α)} (hm : Sorted m) : (m.map Prod.fst).Nodup := by
  rw [List.nodup_iff_pairwise_ne, List.pairwise_map]
  exact hm.imp fun h ↦ h.ne

theorem lookup_eq_none_iff {m : List (κ × α)} {k : κ} :
    m.lookup k = none ↔ k ∉ m.map Prod.fst := by
  simp only [List.lookup_eq_none_iff, List.mem_map, not_exists, not_and, bne_iff_ne]
  exact ⟨fun h e he heq ↦ h e he heq.symm, fun h e he heq ↦ h e he heq.symm⟩

omit [LinearOrder κ] in
theorem mem_of_lookup [BEq κ] [LawfulBEq κ] {m : List (κ × α)} {k : κ} {a : α}
    (h : m.lookup k = some a) : (k, a) ∈ m := by
  obtain ⟨before, after, rfl, -⟩ := List.lookup_eq_some_iff.mp h
  exact List.mem_append_right _ List.mem_cons_self

omit [LinearOrder κ] in
/-- Where every key occurs once, an entry is what its key looks up. -/
theorem lookup_of_mem [BEq κ] [LawfulBEq κ] {m : List (κ × α)} (hm : (m.map Prod.fst).Nodup)
    {k : κ} {a : α} (h : (k, a) ∈ m) : m.lookup k = some a := by
  induction m with
  | nil => exact absurd h List.not_mem_nil
  | cons e m ih =>
    obtain ⟨hkey, hm⟩ := List.nodup_cons.mp hm
    rcases List.mem_cons.mp h with rfl | h
    · rw [List.lookup_cons, beq_self_eq_true]
    · have hne : k ≠ e.1 := by
        rintro rfl
        exact hkey (List.mem_map.mpr ⟨_, h, rfl⟩)
      rw [List.lookup_cons, beq_false_of_ne hne]
      exact ih hm h

end SortedMap

/-! ## Bundled maps -/

/-- A map with its entries in key order: `BTreeMap`. -/
structure OrderedMap (κ α : Type) [LinearOrder κ] where
  entries : List (κ × α)
  sorted : SortedMap.Sorted entries

namespace OrderedMap

variable {κ α : Type} [LinearOrder κ]

/-- `BTreeMap::new`. -/
def empty : OrderedMap κ α := ⟨[], List.Pairwise.nil⟩

/-- `BTreeMap::get`. -/
def get (m : OrderedMap κ α) (k : κ) : Option α := m.entries.lookup k

/-- `BTreeMap::insert`. -/
def insert (m : OrderedMap κ α) (k : κ) (a : α) : OrderedMap κ α :=
  ⟨SortedMap.insert k a m.entries, SortedMap.sorted_insert k a m.sorted⟩

/-- `BTreeMap::retain`. -/
def retain (m : OrderedMap κ α) (keep : α → Bool) : OrderedMap κ α :=
  ⟨m.entries.filter fun e ↦ keep e.2, m.sorted.filter _⟩

/-- The entries whose key is kept. -/
def filterKeys (m : OrderedMap κ α) (keep : κ → Bool) : OrderedMap κ α :=
  ⟨m.entries.filter fun e ↦ keep e.1, m.sorted.filter _⟩

/-- `BTreeMap::remove`. -/
def erase (m : OrderedMap κ α) (k : κ) : OrderedMap κ α := m.filterKeys fun j ↦ decide (j ≠ k)

/-- `BTreeMap::extend` with the entries of another map. -/
def extend (m n : OrderedMap κ α) : OrderedMap κ α :=
  n.entries.foldl (fun m e ↦ m.insert e.1 e.2) m

/-- `BTreeMap::values`. -/
def values (m : OrderedMap κ α) : List α := m.entries.map Prod.snd

@[simp] theorem get_empty (k : κ) : (empty : OrderedMap κ α).get k = none := rfl

theorem get_eq_some {m : OrderedMap κ α} {k : κ} {a : α} :
    m.get k = some a ↔ (k, a) ∈ m.entries :=
  ⟨SortedMap.mem_of_lookup, SortedMap.lookup_of_mem (SortedMap.nodup_keys m.sorted)⟩

theorem mem_values {m : OrderedMap κ α} {a : α} : a ∈ m.values ↔ ∃ k, m.get k = some a := by
  simp only [values, List.mem_map, get_eq_some]
  constructor
  · rintro ⟨⟨k, _⟩, he, rfl⟩
    exact ⟨k, he⟩
  · rintro ⟨k, he⟩
    exact ⟨(k, a), he, rfl⟩

theorem get_insert (m : OrderedMap κ α) (k j : κ) (a : α) :
    (m.insert k a).get j = if j = k then some a else m.get j := by
  apply Option.ext
  intro b
  rw [get_eq_some, insert, SortedMap.mem_insert m.sorted, Prod.mk.injEq]
  split_ifs with h
  · simp [h, eq_comm]
  · simp [h, get_eq_some]

theorem get_retain (m : OrderedMap κ α) (keep : α → Bool) (k : κ) :
    (m.retain keep).get k = (m.get k).filter keep := by
  apply Option.ext
  intro a
  rw [get_eq_some, retain, List.mem_filter, Option.filter_eq_some_iff, get_eq_some]

theorem get_filterKeys (m : OrderedMap κ α) (keep : κ → Bool) (k : κ) :
    (m.filterKeys keep).get k = if keep k then m.get k else none := by
  apply Option.ext
  intro a
  rw [get_eq_some, filterKeys, List.mem_filter, ← get_eq_some]
  by_cases h : keep k <;> simp [h]

theorem get_erase (m : OrderedMap κ α) (k j : κ) :
    (m.erase k).get j = if j = k then none else m.get j := by
  rw [erase, get_filterKeys]
  by_cases h : j = k <;> simp [h]

/-- Where the other map has an entry it is that one. -/
theorem get_extend (m n : OrderedMap κ α) (k : κ) :
    (m.extend n).get k = (n.get k).or (m.get k) := by
  obtain ⟨entries, hsorted⟩ := n
  rw [extend]
  induction entries generalizing m with
  | nil => rfl
  | cons e entries ih =>
    obtain ⟨he, hentries⟩ := List.pairwise_cons.mp hsorted
    rw [List.foldl_cons, ih _ hentries, get_insert]
    change ((entries.lookup k).or _) = (((e :: entries).lookup k).or _)
    rw [List.lookup_cons]
    split_ifs with h
    · subst h
      -- no later entry has the key
      have hnone : entries.lookup e.1 = none := by
        rw [SortedMap.lookup_eq_none_iff, List.mem_map]
        rintro ⟨f, hf, heq⟩
        exact absurd heq (he f hf).ne'
      rw [hnone, beq_self_eq_true]
      rfl
    · rw [beq_false_of_ne h]

/-- A fold whose steps each change what is held under the key of the element. The elements have
different keys, so a key holds what its element makes of what was there. -/
theorem get_foldl {β : Type} {f : OrderedMap κ α → β → OrderedMap κ α} (key : β → κ)
    (g : β → Option α → Option α)
    (hf : ∀ m x k, (f m x).get k = if k = key x then g x (m.get k) else m.get k) {xs : List β}
    (hnodup : (xs.map key).Nodup) (m : OrderedMap κ α) :
    (∀ x ∈ xs, (xs.foldl f m).get (key x) = g x (m.get (key x))) ∧
      ∀ k ∉ xs.map key, (xs.foldl f m).get k = m.get k := by
  induction xs generalizing m with
  | nil => exact ⟨by simp, fun _ _ ↦ rfl⟩
  | cons y ys ih =>
    obtain ⟨hy, hys⟩ := List.nodup_cons.mp hnodup
    obtain ⟨hmem, hother⟩ := ih hys (f m y)
    refine ⟨fun x hx ↦ ?_, fun k hk ↦ ?_⟩
    · rw [List.foldl_cons]
      rcases List.mem_cons.mp hx with rfl | hx
      · rw [hother _ hy, hf, if_pos rfl]
      · have hne : key x ≠ key y := fun heq ↦ hy (heq ▸ List.mem_map_of_mem hx)
        rw [hmem x hx, hf, if_neg hne]
    · obtain ⟨hne, hk⟩ : k ≠ key y ∧ k ∉ ys.map key := by simpa using hk
      rw [List.foldl_cons, hother k hk, hf, if_neg hne]

theorem entries_eq_nil {m : OrderedMap κ α} : m.entries = [] ↔ ∀ k, m.get k = none := by
  constructor
  · intro h k
    rw [get, h]
    rfl
  · intro h
    rw [List.eq_nil_iff_forall_not_mem]
    rintro ⟨k, a⟩ hmem
    have hget := get_eq_some.mpr hmem
    rw [h] at hget
    cases hget

theorem nodup_keys (m : OrderedMap κ α) : (m.entries.map Prod.fst).Nodup :=
  SortedMap.nodup_keys m.sorted

theorem mem_keys {m : OrderedMap κ α} {k : κ} :
    k ∈ m.entries.map Prod.fst ↔ (m.get k).isSome := by
  rw [List.mem_map, Option.isSome_iff_exists]
  constructor
  · rintro ⟨⟨_, a⟩, hmem, rfl⟩
    exact ⟨a, get_eq_some.mpr hmem⟩
  · rintro ⟨a, hget⟩
    exact ⟨(k, a), get_eq_some.mp hget, rfl⟩

/-- A map is what it holds under each key. -/
theorem ext_get {m n : OrderedMap κ α} (h : ∀ k, m.get k = n.get k) : m = n := by
  obtain ⟨es, hes⟩ := m
  obtain ⟨fs, hfs⟩ := n
  have hmem : ∀ e, e ∈ es ↔ e ∈ fs := by
    rintro ⟨k, a⟩
    have hk := h k
    rw [← get_eq_some (m := ⟨es, hes⟩), ← get_eq_some (m := ⟨fs, hfs⟩), hk]
  have hperm : es.Perm fs := by
    have hnodup : ∀ {l : List (κ × α)}, SortedMap.Sorted l → l.Nodup := fun hl ↦
      hl.imp fun h ↦ ne_of_apply_ne Prod.fst h.ne
    exact (List.perm_ext_iff_of_nodup (hnodup hes) (hnodup hfs)).mpr hmem
  have heq : es = fs := hperm.eq_of_pairwise (fun _ _ _ _ h₁ h₂ ↦ absurd h₁ h₂.asymm) hes hfs
  subst heq
  rfl

end OrderedMap

end Khive
