import Khive.Foundation.PartialEq
import Khive.Foundation.SortedMap

/-!
# Equality and keys of ordered maps

Two ordered maps compare as their entries do, one after another. Since both are in key order, that
comes to holding equal values under every key. The keys of two maps together are collected into a
set, again in order.
-/

namespace Khive

namespace SortedMap

variable {κ α : Type} [LinearOrder κ]

theorem lookup_of_forall_lt {m : List (κ × α)} {k : κ} (h : ∀ e ∈ m, k < e.1) :
    m.lookup k = none := by
  rw [lookup_eq_none_iff, List.mem_map]
  rintro ⟨e, he, rfl⟩
  exact absurd (h e he) (lt_irrefl _)

/-- The entries compare equal, one after another, exactly where the maps hold equal values. -/
theorem beq_iff_lookup [BEq α] {m n : List (κ × α)} (hm : Sorted m) (hn : Sorted n) :
    (m == n) = true ↔ ∀ k, (m.lookup k == n.lookup k) = true := by
  induction m generalizing n with
  | nil =>
    cases n with
    | nil => simp
    | cons f n =>
      refine iff_of_false (by simp) fun h ↦ ?_
      have hf := h f.1
      rw [List.lookup_cons, beq_self_eq_true] at hf
      exact absurd hf (by simp)
  | cons e m ih =>
    cases n with
    | nil =>
      refine iff_of_false (by simp) fun h ↦ ?_
      have he := h e.1
      rw [List.lookup_cons, beq_self_eq_true] at he
      exact absurd he (by simp)
    | cons f n =>
      obtain ⟨he, hm⟩ := List.pairwise_cons.mp hm
      obtain ⟨hf, hn⟩ := List.pairwise_cons.mp hn
      have hcons : ((e :: m) == (f :: n)) = true ↔
          (e.1 = f.1 ∧ (e.2 == f.2) = true) ∧ (m == n) = true := by
        obtain ⟨k, a⟩ := e
        obtain ⟨l, b⟩ := f
        rw [List.cons_beq_cons, Bool.and_eq_true]
        change (k == l && a == b) = true ∧ _ ↔ _
        rw [Bool.and_eq_true, beq_iff_eq]
      rw [hcons, ih hm hn]
      constructor
      · rintro ⟨⟨hkey, hvalue⟩, htail⟩ k
        rw [List.lookup_cons, List.lookup_cons, hkey]
        by_cases hk : k = f.1
        · rw [hk, beq_self_eq_true]
          exact hvalue
        · rw [beq_false_of_ne hk]
          exact htail k
      · intro h
        -- the smaller of two different first keys would be missing from the other map
        have hkey : e.1 = f.1 := by
          rcases lt_trichotomy e.1 f.1 with hlt | heq | hlt
          · have hnone : (f :: n).lookup e.1 = none :=
              lookup_of_forall_lt (List.forall_mem_cons.mpr ⟨hlt, fun g hg ↦ hlt.trans (hf g hg)⟩)
            have hfirst := h e.1
            rw [hnone, List.lookup_cons, beq_self_eq_true] at hfirst
            exact absurd hfirst (by simp)
          · exact heq
          · have hnone : (e :: m).lookup f.1 = none :=
              lookup_of_forall_lt (List.forall_mem_cons.mpr ⟨hlt, fun g hg ↦ hlt.trans (he g hg)⟩)
            have hfirst := h f.1
            rw [hnone, List.lookup_cons, beq_self_eq_true] at hfirst
            exact absurd hfirst (by simp)
        refine ⟨⟨hkey, ?_⟩, fun k ↦ ?_⟩
        · have hfirst := h e.1
          rw [List.lookup_cons, List.lookup_cons, ← hkey, beq_self_eq_true] at hfirst
          exact hfirst
        · by_cases hk : k = e.1
          · subst hk
            rw [lookup_of_forall_lt he, lookup_of_forall_lt fun g hg ↦ hkey ▸ hf g hg]
            rfl
          · have hrest := h k
            rw [List.lookup_cons, List.lookup_cons, ← hkey, beq_false_of_ne hk] at hrest
            exact hrest

theorem mem_keys_collect {entries : List (κ × α)} {k : κ} :
    k ∈ (collect entries).map Prod.fst ↔ k ∈ entries.map Prod.fst := by
  induction entries using List.reverseRecOn with
  | nil => exact Iff.rfl
  | append_singleton entries e ih =>
    have hkeys : k ∈ (insert e.1 e.2 (collect entries)).map Prod.fst ↔
        k = e.1 ∨ k ∈ (collect entries).map Prod.fst := by
      simp only [List.mem_map, mem_insert (sorted_collect entries)]
      constructor
      · rintro ⟨f, rfl | ⟨hf, -⟩, rfl⟩
        · exact Or.inl rfl
        · exact Or.inr ⟨f, hf, rfl⟩
      · rintro (rfl | ⟨f, hf, rfl⟩)
        · exact ⟨(e.1, e.2), Or.inl rfl, rfl⟩
        · by_cases heq : f.1 = e.1
          · exact ⟨(e.1, e.2), Or.inl rfl, heq.symm⟩
          · exact ⟨f, Or.inr ⟨hf, heq⟩, rfl⟩
    rw [collect_append, hkeys, ih, List.map_append, List.mem_append, or_comm]
    simp

section Keyed

variable {β : Type} {key : β → κ}

/-- Lists in the order of a key, with the same members, are the same. -/
theorem eq_of_mem_iff {xs ys : List β} (hx : xs.Pairwise fun a b ↦ key a < key b)
    (hy : ys.Pairwise fun a b ↦ key a < key b) (h : ∀ a, a ∈ xs ↔ a ∈ ys) : xs = ys := by
  have hnodup : ∀ {l : List β}, (l.Pairwise fun a b ↦ key a < key b) → l.Nodup := fun hl ↦
    hl.imp fun hlt ↦ ne_of_apply_ne key hlt.ne
  have hperm : xs.Perm ys := (List.perm_ext_iff_of_nodup (hnodup hx) (hnodup hy)).mpr h
  exact hperm.eq_of_pairwise (fun _ _ _ _ h₁ h₂ ↦ absurd h₁ h₂.asymm) hx hy

theorem nodup_of_sorted {xs : List β} (hx : xs.Pairwise fun a b ↦ key a < key b) :
    (xs.map key).Nodup := by
  rw [List.nodup_iff_pairwise_ne, List.pairwise_map]
  exact hx.imp fun hlt ↦ hlt.ne

end Keyed

end SortedMap

namespace OrderedMap

variable {κ α : Type} [LinearOrder κ]

/-- `BTreeMap`'s `PartialEq`. -/
instance [BEq α] : BEq (OrderedMap κ α) := ⟨fun m n ↦ m.entries == n.entries⟩

theorem beq_iff_get [BEq α] {m n : OrderedMap κ α} :
    (m == n) = true ↔ ∀ k, (m.get k == n.get k) = true :=
  SortedMap.beq_iff_lookup m.sorted n.sorted

instance [BEq α] [ReflBEq α] : ReflBEq (OrderedMap κ α) where
  rfl {m} := by
    rw [beq_iff_get]
    exact fun _ ↦ beq_self_eq_true _

instance [BEq α] [PartialEquivBEq α] : PartialEquivBEq (OrderedMap κ α) where
  symm h := by
    rw [beq_iff_get] at h ⊢
    exact fun k ↦ PartialEquivBEq.symm (h k)
  trans h₁ h₂ := by
    rw [beq_iff_get] at h₁ h₂ ⊢
    exact fun k ↦ PartialEquivBEq.trans (h₁ k) (h₂ k)

/-- Collecting entries into a `BTreeMap`. -/
def collect (entries : List (κ × α)) : OrderedMap κ α :=
  ⟨SortedMap.collect entries, SortedMap.sorted_collect entries⟩

/-- `BTreeMap::keys`. -/
def keys (m : OrderedMap κ α) : List κ := m.entries.map Prod.fst

/-- `BTreeMap::contains_key`. -/
def containsKey (m : OrderedMap κ α) (k : κ) : Bool := (m.get k).isSome

theorem mem_keys_iff {m : OrderedMap κ α} {k : κ} : k ∈ m.keys ↔ m.get k ≠ none := by
  rw [keys, mem_keys, Option.isSome_iff_ne_none]

/-- Collecting keys into a `BTreeSet` and iterating over it. -/
def sortedSet (ks : List κ) : List κ := (collect (ks.map fun k ↦ (k, ()))).keys

theorem sorted_sortedSet (ks : List κ) : (sortedSet ks).Pairwise (· < ·) :=
  List.pairwise_map.mpr (SortedMap.sorted_collect _)

theorem mem_sortedSet {ks : List κ} {k : κ} : k ∈ sortedSet ks ↔ k ∈ ks := by
  rw [sortedSet, keys, collect, SortedMap.mem_keys_collect, List.map_map]
  simp

/-- The set does not depend on the order the keys come in. -/
theorem sortedSet_congr {ks ls : List κ} (h : ∀ k, k ∈ ks ↔ k ∈ ls) :
    sortedSet ks = sortedSet ls :=
  SortedMap.eq_of_mem_iff (sorted_sortedSet ks) (sorted_sortedSet ls) fun k ↦ by
    rw [mem_sortedSet, mem_sortedSet, h k]

/-- What is taken from the entries of a map, under the same keys, is in their order. -/
theorem sorted_filterMap {β : Type} {m : OrderedMap κ α} {f : κ × α → Option β} (key : β → κ)
    (hf : ∀ e b, f e = some b → key b = e.1) :
    (m.entries.filterMap f).Pairwise fun b b' ↦ key b < key b' := by
  rw [List.pairwise_filterMap]
  refine m.sorted.imp fun {e e'} hlt b hb b' hb' ↦ ?_
  rw [hf e b hb, hf e' b' hb']
  exact hlt

end OrderedMap

end Khive
