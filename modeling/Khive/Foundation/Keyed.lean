import Mathlib

/-!
# Lists as maps

Records with a key, read through a map collected from a list: the last record with a key is the
one the map holds. When the keys are distinct the map holds every record, and the two readings of
the list agree.

Distinctness is checked with a growing set of keys already seen, and iteration over a set of keys
is made deterministic by sorting; both are here with their specifications.
-/

namespace Khive

section Lookup

variable {α κ : Type} [DecidableEq κ]

/-- The record a map collected from `xs` holds at `k`. -/
def lookupBy (key : α → κ) (xs : List α) (k : κ) : Option α :=
  xs.reverse.find? fun x ↦ decide (key x = k)

variable {key : α → κ} {xs : List α} {k : κ} {x : α}

theorem mem_of_lookupBy (h : lookupBy key xs k = some x) : x ∈ xs :=
  List.mem_reverse.mp (List.mem_of_find?_eq_some h)

theorem key_of_lookupBy (h : lookupBy key xs k = some x) : key x = k := by
  have := List.find?_some h
  simpa using this

theorem lookupBy_eq_none : lookupBy key xs k = none ↔ k ∉ xs.map key := by
  simp [lookupBy, List.find?_eq_none]

theorem lookupBy_isSome : (lookupBy key xs k).isSome = true ↔ k ∈ xs.map key := by
  rw [Option.isSome_iff_ne_none, ne_eq, lookupBy_eq_none, not_not]

/-- Distinct keys: every record is found under its own key. -/
theorem lookupBy_of_mem (hnodup : (xs.map key).Nodup) (hx : x ∈ xs) :
    lookupBy key xs (key x) = some x := by
  have hmem : key x ∈ xs.map key := List.mem_map_of_mem hx
  obtain ⟨y, hy⟩ := Option.isSome_iff_exists.mp (lookupBy_isSome.mpr hmem)
  rw [hy, List.inj_on_of_nodup_map hnodup (mem_of_lookupBy hy) hx (key_of_lookupBy hy)]

end Lookup

section Repeats

variable {κ : Type} [DecidableEq κ]

/-- The first key that was seen before, if any. -/
def firstRepeat : List κ → List κ → Option κ
  | _, [] => none
  | seen, k :: ks => if k ∈ seen then some k else firstRepeat (k :: seen) ks

theorem firstRepeat_eq_none {seen ks : List κ} :
    firstRepeat seen ks = none ↔ ks.Nodup ∧ ∀ k ∈ ks, k ∉ seen := by
  induction ks generalizing seen with
  | nil => simp [firstRepeat]
  | cons k ks ih =>
    rw [firstRepeat]
    by_cases hk : k ∈ seen
    · simp [hk]
    · rw [if_neg hk, ih, List.nodup_cons]
      constructor
      · rintro ⟨hnodup, hseen⟩
        refine ⟨⟨fun h ↦ hseen k h List.mem_cons_self, hnodup⟩, fun k' hk' ↦ ?_⟩
        rcases List.mem_cons.mp hk' with rfl | hk'
        · exact hk
        · exact fun h ↦ hseen k' hk' (List.mem_cons_of_mem _ h)
      · rintro ⟨⟨hfresh, hnodup⟩, hseen⟩
        refine ⟨hnodup, fun k' hk' h ↦ ?_⟩
        rcases List.mem_cons.mp h with rfl | h
        · exact hfresh hk'
        · exact hseen k' (List.mem_cons_of_mem _ hk') h

end Repeats

section Sorted

variable {κ : Type} [DecidableEq κ]

/-- The distinct keys of a list, in the order `le` sorts them. -/
def sortedDistinct (le : κ → κ → Bool) (ks : List κ) : List κ :=
  ks.dedup.insertionSort (le · ·)

theorem mem_sortedDistinct {le : κ → κ → Bool} {ks : List κ} {k : κ} :
    k ∈ sortedDistinct le ks ↔ k ∈ ks := by
  rw [sortedDistinct, (List.perm_insertionSort _ _).mem_iff, List.mem_dedup]

theorem nodup_sortedDistinct (le : κ → κ → Bool) (ks : List κ) : (sortedDistinct le ks).Nodup :=
  (List.perm_insertionSort _ _).nodup_iff.mpr (List.nodup_dedup ks)

end Sorted

section FilterMap

variable {α κ : Type} {key : α → κ} {f : κ → Option α} {ks : List κ}

/-- Records made one per key, each carrying the key it was made for. -/
theorem map_filterMap_sublist (hf : ∀ k x, f k = some x → key x = k) :
    ((ks.filterMap f).map key).Sublist ks := by
  induction ks with
  | nil => simp
  | cons k ks ih =>
    cases hk : f k with
    | none =>
      rw [List.filterMap_cons_none hk]
      exact ih.cons k
    | some x =>
      rw [List.filterMap_cons_some hk, List.map_cons, hf k x hk]
      exact ih.cons_cons k

theorem mem_map_filterMap (hf : ∀ k x, f k = some x → key x = k) {k : κ} :
    k ∈ (ks.filterMap f).map key ↔ k ∈ ks ∧ (f k).isSome = true := by
  constructor
  · intro h
    obtain ⟨x, hx, rfl⟩ := List.mem_map.mp h
    obtain ⟨k', hk', hfk'⟩ := List.mem_filterMap.mp hx
    rw [hf k' x hfk', hfk']
    exact ⟨hk', rfl⟩
  · rintro ⟨hk, hsome⟩
    obtain ⟨x, hx⟩ := Option.isSome_iff_exists.mp hsome
    exact List.mem_map.mpr ⟨x, List.mem_filterMap.mpr ⟨k, hk, hx⟩, hf k x hx⟩

/-- The map collected from such records, in whatever order, is the function that made them. -/
theorem lookupBy_filterMap [DecidableEq κ] {xs : List α} (hxs : xs.Perm (ks.filterMap f))
    (hf : ∀ k x, f k = some x → key x = k) (hks : ks.Nodup) {k : κ}
    (hk : (f k).isSome = true → k ∈ ks) : lookupBy key xs k = f k := by
  have hnodup : (xs.map key).Nodup :=
    ((hxs.map key).nodup_iff).mpr ((map_filterMap_sublist hf).nodup hks)
  cases hfk : f k with
  | none =>
    rw [lookupBy_eq_none, (hxs.map key).mem_iff, mem_map_filterMap hf, hfk]
    simp
  | some x =>
    have hx : x ∈ xs := by
      refine hxs.mem_iff.mpr (List.mem_filterMap.mpr ⟨k, hk ?_, hfk⟩)
      rw [hfk]
      rfl
    rw [← hf k x hfk]
    exact lookupBy_of_mem hnodup hx

end FilterMap

end Khive
