import Khive.Foundation.Beam

/-!
# The bounded frontier

The frontier of a beam search holds the best candidates seen so far in order, with a cursor at the
first that is not expanded. It is maintained in place: a candidate goes where it belongs, the worst
one leaves when there is no room, and the cursor follows. The plain beam appends, sorts, and cuts
off, and looks for the first unexpanded candidate each time. The two agree.
-/

namespace Khive

namespace Vamana

open Beam

variable {δ : Type}

/-- A search candidate, and whether the beam has expanded it. -/
structure Candidate (δ : Type) where
  id : ℕ
  distance : δ
  expanded : Bool

/-- Distances compare first, and equal distances by id. -/
def Candidate.key (c : Candidate δ) : δ ×ₗ ℕ := toLex (c.distance, c.id)

structure Frontier (δ : Type) where
  entries : List (Candidate δ)
  capacity : ℕ
  cursor : ℕ

section Model

variable [LinearOrder δ]

namespace Frontier

def new (capacity : ℕ) : Frontier δ := ⟨[], capacity, 0⟩

/-- Offer a candidate. -/
def insert (f : Frontier δ) (id : ℕ) (distance : δ) : Frontier δ :=
  let pos := (f.entries.takeWhile fun c ↦ decide (c.key < toLex (distance, id))).length
  if f.capacity ≤ pos then f
  else
    let entries := if f.entries.length = f.capacity then f.entries.dropLast else f.entries
    { f with
      entries := entries.insertIdx pos ⟨id, distance, false⟩
      cursor := if pos ≤ f.cursor then pos else f.cursor }

/-- Mark the best unexpanded candidate and move the cursor behind the expanded ones. -/
def takeNext (f : Frontier δ) : Option ((ℕ × δ) × Frontier δ) :=
  match f.entries[f.cursor]? with
  | none => none
  | some best =>
    let entries := f.entries.set f.cursor { best with expanded := true }
    let expanded := ((entries.drop (f.cursor + 1)).takeWhile Candidate.expanded).length
    some ((best.id, best.distance), { f with entries, cursor := f.cursor + 1 + expanded })

end Frontier

/-! ## The plain beam -/

/-- Append a candidate, sort, and truncate. -/
def beamOffer (capacity : ℕ) (beam : List (Candidate δ)) (id : ℕ) (distance : δ) :
    List (Candidate δ) :=
  ((beam ++ [(⟨id, distance, false⟩ : Candidate δ)]).insertionSort
    fun a b : Candidate δ ↦ a.key ≤ b.key).take capacity

end Model

/-- The place of the first candidate that is not expanded. -/
def firstUnexpanded (beam : List (Candidate δ)) : ℕ := beam.findIdx fun c ↦ !c.expanded

/-- Expand the first candidate that is not expanded. -/
def beamTake (beam : List (Candidate δ)) : Option ((ℕ × δ) × List (Candidate δ)) :=
  beam[firstUnexpanded beam]?.map fun best ↦
    ((best.id, best.distance), beam.set (firstUnexpanded beam) { best with expanded := true })

/-! ## The first unexpanded candidate -/

section Cursor

variable {beam A B : List (Candidate δ)} {c best : Candidate δ}

theorem firstUnexpanded_of_lt (h : firstUnexpanded A < A.length) (B : List (Candidate δ)) :
    firstUnexpanded (A ++ B) = firstUnexpanded A := by
  rw [firstUnexpanded, List.findIdx_append]
  exact if_pos h

/-- Behind candidates that are all expanded, the place counts on. -/
theorem firstUnexpanded_of_all (h : ∀ c ∈ A, c.expanded = true) (B : List (Candidate δ)) :
    firstUnexpanded (A ++ B) = A.length + firstUnexpanded B := by
  have hnone : ¬firstUnexpanded A < A.length := by
    rw [firstUnexpanded, List.findIdx_lt_length]
    rintro ⟨c, hc, hnot⟩
    rw [h c hc] at hnot
    cases hnot
  rw [firstUnexpanded, List.findIdx_append]
  exact (if_neg hnone).trans (Nat.add_comm _ _)

/-- The candidates in front of the first unexpanded one are expanded. -/
theorem expanded_of_mem_take {n : ℕ} (hn : n ≤ firstUnexpanded beam) (hc : c ∈ beam.take n) :
    c.expanded = true := by
  obtain ⟨i, hi, rfl⟩ := List.getElem_of_mem hc
  rw [List.length_take] at hi
  rw [List.getElem_take]
  have hnot := List.not_of_lt_findIdx (show i < firstUnexpanded beam by omega)
  simpa using hnot

theorem not_expanded_of_getElem? (h : beam[firstUnexpanded beam]? = some best) :
    best.expanded = false := by
  obtain ⟨hlt, rfl⟩ := List.getElem?_eq_some_iff.mp h
  have hfound : (!beam[firstUnexpanded beam].expanded) = true :=
    @List.findIdx_getElem _ (fun c : Candidate δ ↦ !c.expanded) beam hlt
  simpa using hfound

/-- A run of expanded candidates, skipped. -/
theorem length_takeWhile_expanded (beam : List (Candidate δ)) :
    (beam.takeWhile Candidate.expanded).length = firstUnexpanded beam := by
  induction beam with
  | nil => rfl
  | cons c beam ih =>
    rw [List.takeWhile_cons, firstUnexpanded, List.findIdx_cons]
    rcases hc : c.expanded with - | -
    · rfl
    · simp only [if_true, Bool.not_true, cond_false, List.length_cons, ih]
      rfl

/-- The next cursor is the next place. -/
theorem firstUnexpanded_set (h : beam[firstUnexpanded beam]? = some best) :
    firstUnexpanded (beam.set (firstUnexpanded beam) { best with expanded := true }) =
      firstUnexpanded beam + 1 + (((beam.set (firstUnexpanded beam)
        { best with expanded := true }).drop (firstUnexpanded beam + 1)).takeWhile
          Candidate.expanded).length := by
  obtain ⟨hlt, -⟩ := List.getElem?_eq_some_iff.mp h
  have hsplit : beam.set (firstUnexpanded beam) { best with expanded := true } =
      (beam.take (firstUnexpanded beam) ++ [{ best with expanded := true }]) ++
        beam.drop (firstUnexpanded beam + 1) := by
    rw [List.set_eq_take_append_cons_drop, if_pos hlt, List.append_assoc]
    rfl
  have hlength : (beam.take (firstUnexpanded beam) ++
      [{ best with expanded := true }]).length = firstUnexpanded beam + 1 := by
    rw [List.length_append, List.length_take, List.length_singleton]
    omega
  have hall : ∀ c ∈ beam.take (firstUnexpanded beam) ++ [{ best with expanded := true }],
      c.expanded = true := by
    intro c hc
    rcases List.mem_append.mp hc with hc | hc
    · exact expanded_of_mem_take le_rfl hc
    · rw [List.mem_singleton.mp hc]
  rw [hsplit, firstUnexpanded_of_all hall, length_takeWhile_expanded, hlength,
    List.drop_left' hlength]

end Cursor

/-! ## Where a candidate goes -/

section Place

variable [LinearOrder δ] {beam : List (Candidate δ)} {x : Candidate δ} {capacity : ℕ}

/-- Strictly ascending, so that no two candidates have one key. -/
def Ascending (beam : List (Candidate δ)) : Prop :=
  (beam.map Candidate.key).Pairwise (· < ·)

theorem ascending_cons {c : Candidate δ} :
    Ascending (c :: beam) ↔ (∀ d ∈ beam, c.key < d.key) ∧ Ascending beam := by
  rw [Ascending, List.map_cons, List.pairwise_cons, List.forall_mem_map]
  rfl

/-- In an ascending beam a new candidate goes between those in front of it and those behind. -/
theorem insertionSort_concat_of_ascending (hsorted : Ascending beam)
    (hnew : ∀ c ∈ beam, c.key ≠ x.key) :
    (beam ++ [x]).insertionSort (fun a b : Candidate δ ↦ a.key ≤ b.key) =
      (beam.takeWhile fun c ↦ decide (c.key < x.key)) ++
        x :: beam.dropWhile fun c ↦ decide (c.key < x.key) := by
  induction beam with
  | nil => rfl
  | cons c beam ih =>
    obtain ⟨hfirst, hrest⟩ := ascending_cons.mp hsorted
    rw [List.cons_append, List.insertionSort_cons,
      ih hrest fun d hd ↦ hnew d (List.mem_cons_of_mem c hd), List.takeWhile_cons,
      List.dropWhile_cons]
    by_cases hc : c.key < x.key
    · rw [if_pos (decide_eq_true hc), if_pos (decide_eq_true hc)]
      refine orderedInsert_eq_cons fun d hd ↦ ?_
      rcases List.mem_append.mp hd with hd | hd
      · exact (hfirst d ((List.takeWhile_sublist _).subset hd)).le
      · rcases List.mem_cons.mp hd with rfl | hd
        · exact hc.le
        · exact (hfirst d ((List.dropWhile_sublist _).subset hd)).le
    · -- the new candidate is in front of all of them
      have hx : x.key < c.key :=
        lt_of_le_of_ne (not_lt.mp hc) (hnew c List.mem_cons_self).symm
      have hbehind : ∀ d ∈ beam, decide (d.key < x.key) = false := fun d hd ↦
        decide_eq_false (not_lt.mpr (hx.trans (hfirst d hd)).le)
      have htake : beam.takeWhile (fun c ↦ decide (c.key < x.key)) = [] := by
        rcases beam with - | ⟨d, beam⟩
        · rfl
        · rw [List.takeWhile_cons, hbehind d List.mem_cons_self]
          rfl
      have hdrop : beam.dropWhile (fun c ↦ decide (c.key < x.key)) = beam := by
        rcases beam with - | ⟨d, beam⟩
        · rfl
        · rw [List.dropWhile_cons, hbehind d List.mem_cons_self]
          rfl
      rw [if_neg (by simpa using hx.le), if_neg (by simpa using hx.le), htake, hdrop,
        List.nil_append, List.nil_append, List.orderedInsert_cons, if_neg (not_le.mpr hx),
        orderedInsert_eq_cons fun d hd ↦ (hfirst d hd).le]

/-- The candidates in front of a new one, and those behind it. -/
theorem ascending_split (hsorted : Ascending beam) (hnew : ∀ c ∈ beam, c.key ≠ x.key) :
    Ascending ((beam.takeWhile fun c ↦ decide (c.key < x.key)) ++
      x :: beam.dropWhile fun c ↦ decide (c.key < x.key)) := by
  have hsort := List.pairwise_insertionSort (fun a b : Candidate δ ↦ a.key ≤ b.key) (beam ++ [x])
  rw [insertionSort_concat_of_ascending hsorted hnew] at hsort
  have hkeys : (((beam.takeWhile fun c ↦ decide (c.key < x.key)) ++
      x :: beam.dropWhile fun c ↦ decide (c.key < x.key)).map Candidate.key).Nodup := by
    have hperm : ((beam.takeWhile fun c ↦ decide (c.key < x.key)) ++
        x :: beam.dropWhile fun c ↦ decide (c.key < x.key)).Perm (x :: beam) := by
      refine List.perm_middle.trans ?_
      rw [List.takeWhile_append_dropWhile]
    rw [(hperm.map Candidate.key).nodup_iff, List.map_cons, List.nodup_cons]
    refine ⟨fun hmem ↦ ?_, hsorted.imp ne_of_lt⟩
    obtain ⟨c, hc, heq⟩ := List.mem_map.mp hmem
    exact hnew c hc heq
  exact ((List.pairwise_map.mpr hsort).and hkeys).imp fun h ↦ lt_of_le_of_ne h.1 h.2

end Place

/-! ## The frontier is the beam -/

/-- The frontier holds the beam, and its cursor stands at the first unexpanded candidate. -/
structure Refines [LinearOrder δ] (f : Frontier δ) (capacity : ℕ) (beam : List (Candidate δ)) :
    Prop where
  entries : f.entries = beam
  room : f.capacity = capacity
  cursor : f.cursor = firstUnexpanded beam
  ascending : Ascending beam
  length_le : beam.length ≤ capacity

section Offer

variable {capacity : ℕ} {A B : List (Candidate δ)} {x : Candidate δ}

/-- Where there is room behind the front, the worst candidate makes way if the beam is full. -/
theorem insertIdx_of_room (hroom : A.length < capacity)
    (hlength : A.length + B.length ≤ capacity) :
    (if (A ++ B).length = capacity then (A ++ B).dropLast else A ++ B).insertIdx A.length x =
      (A ++ x :: B).take capacity := by
  rw [List.length_append]
  split_ifs with hfull
  · have hB : B ≠ [] := by
      rintro rfl
      rw [List.length_nil] at hfull
      omega
    rw [List.dropLast_append_of_ne_nil hB, insertIdx_append_length, List.take_append,
      List.take_of_length_le hroom.le]
    obtain ⟨room, hn⟩ := Nat.exists_eq_add_of_lt hroom
    have hsub : capacity - A.length = room + 1 := by omega
    rw [hsub, List.take_succ_cons, List.dropLast_eq_take]
    congr 3
    omega
  · rw [insertIdx_append_length, List.take_of_length_le]
    rw [List.length_append, List.length_cons]
    omega

/-- The cursor stays with an unexpanded candidate in front of the new one, or goes to the new
one. -/
theorem cursor_insert {id : ℕ} {distance : δ} (hroom : A.length < capacity) :
    (if A.length ≤ firstUnexpanded (A ++ B) then A.length else firstUnexpanded (A ++ B)) =
      firstUnexpanded ((A ++ ⟨id, distance, false⟩ :: B).take capacity) := by
  obtain ⟨room, hn⟩ := Nat.exists_eq_add_of_lt hroom
  have hsub : capacity - A.length = room + 1 := by omega
  rw [List.take_append, List.take_of_length_le hroom.le, hsub, List.take_succ_cons]
  split_ifs with hle
  · have htake : (A ++ B).take A.length = A := List.take_left
    have hall : ∀ c ∈ A, c.expanded = true := fun c hc ↦
      expanded_of_mem_take hle (htake.symm ▸ hc)
    rw [firstUnexpanded_of_all hall, firstUnexpanded, List.findIdx_cons]
    rfl
  · have hlt : firstUnexpanded A < A.length := by
      by_contra hnot
      have hall : ∀ c ∈ A, c.expanded = true := fun c hc ↦
        expanded_of_mem_take (not_lt.mp hnot) ((List.take_length (l := A)).symm ▸ hc)
      rw [firstUnexpanded_of_all hall] at hle
      omega
    rw [firstUnexpanded_of_lt hlt, firstUnexpanded_of_lt hlt]

end Offer

section Refinement

variable [LinearOrder δ] {f : Frontier δ} {capacity : ℕ} {beam : List (Candidate δ)}

theorem refines_new (capacity : ℕ) : Refines (Frontier.new capacity : Frontier δ) capacity [] :=
  ⟨rfl, rfl, rfl, List.Pairwise.nil, Nat.zero_le _⟩

/-- What an offer makes of the beam. -/
theorem beamOffer_eq (hsorted : Ascending beam) {id : ℕ} {distance : δ}
    (hnew : ∀ c ∈ beam, c.id ≠ id) : beamOffer capacity beam id distance =
      ((beam.takeWhile fun c ↦ decide (c.key < toLex (distance, id))) ++ ⟨id, distance, false⟩ ::
        beam.dropWhile fun c ↦ decide (c.key < toLex (distance, id))).take capacity := by
  rw [beamOffer, insertionSort_concat_of_ascending hsorted]
  · rfl
  · intro c hc hkey
    exact hnew c hc (congrArg (fun k ↦ (ofLex k).2) hkey)

/-- An offer. -/
theorem Refines.insert (h : Refines f capacity beam) {id : ℕ} (distance : δ)
    (hnew : ∀ c ∈ beam, c.id ≠ id) :
    Refines (f.insert id distance) capacity (beamOffer capacity beam id distance) := by
  have hsplit : beam = (beam.takeWhile fun c ↦ decide (c.key < toLex (distance, id))) ++
      beam.dropWhile fun c ↦ decide (c.key < toLex (distance, id)) :=
    List.takeWhile_append_dropWhile.symm
  have hascending : Ascending ((beam.takeWhile fun c ↦ decide (c.key < toLex (distance, id))) ++
      ⟨id, distance, false⟩ :: beam.dropWhile fun c ↦ decide (c.key < toLex (distance, id))) :=
    @ascending_split _ _ _ ⟨id, distance, false⟩ h.ascending
      fun c hc hkey ↦ hnew c hc (congrArg (fun k ↦ (ofLex k).2) hkey)
  have hlength := h.length_le
  rw [beamOffer_eq h.ascending hnew, Frontier.insert, h.entries, h.room, h.cursor]
  generalize (beam.takeWhile fun c ↦ decide (c.key < toLex (distance, id))) = A at *
  generalize (beam.dropWhile fun c ↦ decide (c.key < toLex (distance, id))) = B at *
  subst hsplit
  rw [List.length_append] at hlength
  dsimp only
  by_cases hfull : capacity ≤ A.length
  · -- the beam is full of better candidates
    have hB : B = [] := List.length_eq_zero_iff.mp (by omega)
    have hA : A.length = capacity := by omega
    rw [if_pos hfull, ← hA, List.take_left, hA]
    rw [hB, List.append_nil] at h
    exact h
  · have htake : (if (A ++ B).length = capacity then (A ++ B).dropLast else A ++ B).insertIdx
        A.length ⟨id, distance, false⟩ = (A ++ ⟨id, distance, false⟩ :: B).take capacity :=
      insertIdx_of_room (not_le.mp hfull) hlength
    rw [if_neg hfull, htake]
    refine ⟨rfl, rfl, ?_, hascending.sublist ((List.take_sublist _ _).map _),
      List.length_take_le _ _⟩
    exact cursor_insert (not_le.mp hfull)

/-- Taking the next candidate. -/
theorem Refines.takeNext (h : Refines f capacity beam) :
    (f.takeNext = none ∧ beamTake beam = none) ∨ ∃ taken f' beam',
      f.takeNext = some (taken, f') ∧ beamTake beam = some (taken, beam') ∧
        Refines f' capacity beam' := by
  rw [Frontier.takeNext, beamTake, h.entries, h.cursor]
  rcases hbest : beam[firstUnexpanded beam]? with - | best
  · exact .inl ⟨rfl, rfl⟩
  · refine .inr ⟨(best.id, best.distance), _, _, rfl, rfl, rfl, h.room,
      (firstUnexpanded_set hbest).symm, ?_, ?_⟩
    · -- only the mark changes, and the keys stay
      obtain ⟨hlt, heq⟩ := List.getElem?_eq_some_iff.mp hbest
      have hkey : ({ best with expanded := true } : Candidate δ).key = best.key := rfl
      have hkeys : (beam.map Candidate.key).set (firstUnexpanded beam) best.key =
          beam.map Candidate.key := by
        rw [← heq, ← List.map_set, List.set_getElem_self]
      rw [Ascending, List.map_set, hkey, hkeys]
      exact h.ascending
    · rw [List.length_set]
      exact h.length_le

/-- Offering adds at most the candidate. -/
theorem mem_beamOffer {id : ℕ} {distance : δ} {c : Candidate δ}
    (hc : c ∈ beamOffer capacity beam id distance) : c = ⟨id, distance, false⟩ ∨ c ∈ beam := by
  have hmem := (List.perm_insertionSort _ _).mem_iff.mp ((List.take_sublist _ _).subset hc)
  rcases List.mem_append.mp hmem with hmem | hmem
  · exact .inr hmem
  · exact .inl (List.mem_singleton.mp hmem)

omit [LinearOrder δ] in
/-- Taking changes no ids. -/
theorem map_id_of_beamTake {beam' : List (Candidate δ)} {taken : ℕ × δ}
    (h : beamTake beam = some (taken, beam')) :
    beam'.map Candidate.id = beam.map Candidate.id := by
  obtain ⟨best, hbest, hpair⟩ := Option.map_eq_some_iff.mp h
  obtain ⟨-, rfl⟩ := Prod.mk.inj hpair
  obtain ⟨hlt, heq⟩ := List.getElem?_eq_some_iff.mp hbest
  have hid : ({ best with expanded := true } : Candidate δ).id = best.id := rfl
  rw [List.map_set, hid, ← heq, ← List.map_set, List.set_getElem_self]

end Refinement

/-! ## Runs of operations -/

section Runs

variable [LinearOrder δ] {capacity : ℕ} {offered : List (δ ×ₗ ℕ)} {taken : List ℕ}
  {f : Frontier δ}

/-- The id of a key. -/
def idOf (k : δ ×ₗ ℕ) : ℕ := (ofLex k).2

/-- The frontier holds the best of what was offered, and has marked exactly what was taken. -/
structure Tracks (capacity : ℕ) (offered : List (δ ×ₗ ℕ)) (taken : List ℕ) (f : Frontier δ) :
    Prop where
  refines : Refines f capacity f.entries
  keys : f.entries.map Candidate.key = best capacity offered
  marks : ∀ c ∈ f.entries, (c.expanded = true ↔ c.id ∈ taken)
  distinct : (offered.map idOf).Nodup
  taken_offered : ∀ id ∈ taken, id ∈ offered.map idOf

theorem tracks_new (capacity : ℕ) : Tracks capacity [] [] (Frontier.new capacity : Frontier δ) where
  refines := refines_new capacity
  keys := by rw [best, List.insertionSort_nil, List.take_nil]; rfl
  marks _ hc := absurd hc List.not_mem_nil
  distinct := List.nodup_nil
  taken_offered _ hid := absurd hid List.not_mem_nil

theorem Tracks.map_id (h : Tracks capacity offered taken f) :
    f.entries.map Candidate.id = (best capacity offered).map idOf := by
  rw [← h.keys, List.map_map]
  rfl

theorem Tracks.id_offered (h : Tracks capacity offered taken f) {c : Candidate δ}
    (hc : c ∈ f.entries) : c.id ∈ offered.map idOf := by
  have hid : c.id ∈ (best capacity offered).map idOf := h.map_id ▸ List.mem_map_of_mem hc
  obtain ⟨k, hk, heq⟩ := List.mem_map.mp hid
  have hmem := (List.perm_insertionSort _ _).mem_iff.mp ((List.take_sublist _ _).subset hk)
  exact heq ▸ List.mem_map_of_mem hmem

theorem Tracks.ids_nodup (h : Tracks capacity offered taken f) :
    (f.entries.map Candidate.id).Nodup := by
  rw [h.map_id]
  refine List.Nodup.sublist ((List.take_sublist _ _).map idOf) ?_
  exact ((List.perm_insertionSort (· ≤ ·) offered).map idOf).nodup_iff.mpr h.distinct

/-- The keys after an offer. -/
theorem map_key_beamOffer {beam : List (Candidate δ)} (hsorted : Ascending beam) (id : ℕ)
    (distance : δ) : (beamOffer capacity beam id distance).map Candidate.key =
      ((beam.map Candidate.key).orderedInsert (· ≤ ·) (toLex (distance, id))).take capacity := by
  have hsort : (beam.map Candidate.key).insertionSort (· ≤ ·) = beam.map Candidate.key :=
    (hsorted.imp le_of_lt).insertionSort_eq
  have hmap := List.map_insertionSort (fun a b : Candidate δ ↦ a.key ≤ b.key)
    (· ≤ ·) Candidate.key (beam ++ [⟨id, distance, false⟩]) fun a _ b _ ↦ Iff.rfl
  rw [List.map_append, List.map_singleton, insertionSort_concat, hsort] at hmap
  rw [beamOffer, List.map_take, hmap]
  rfl

/-- A new candidate. -/
theorem Tracks.insert (h : Tracks capacity offered taken f) {id : ℕ} (distance : δ)
    (hid : id ∉ offered.map idOf) :
    Tracks capacity (offered ++ [toLex (distance, id)]) taken (f.insert id distance) := by
  have hnew : ∀ c ∈ f.entries, c.id ≠ id := fun c hc heq ↦ hid (heq ▸ h.id_offered hc)
  have hrefines := h.refines.insert distance hnew
  refine ⟨hrefines.entries ▸ hrefines, ?_, fun c hc ↦ ?_, ?_, fun id' hid' ↦ ?_⟩
  · rw [hrefines.entries, map_key_beamOffer h.refines.ascending, h.keys, best_concat]
  · rw [hrefines.entries] at hc
    rcases mem_beamOffer hc with rfl | hc
    · refine iff_of_false (fun hfalse ↦ by cases hfalse) fun htaken ↦ ?_
      exact hid (h.taken_offered id htaken)
    · exact h.marks c hc
  · rw [List.map_append, List.nodup_append]
    refine ⟨h.distinct, List.nodup_singleton _, fun a ha b hb heq ↦ ?_⟩
    rw [heq, List.mem_singleton.mp hb] at ha
    exact hid ha
  · rw [List.map_append]
    exact List.mem_append_left _ (h.taken_offered id' hid')

/-- The best candidate that was not taken. -/
theorem Tracks.takeNext (h : Tracks capacity offered taken f) :
    (f.takeNext = none ∧ f.entries.find? (fun c ↦ !c.expanded) = none) ∨
      ∃ best f', f.takeNext = some ((best.id, best.distance), f') ∧
        f.entries.find? (fun c ↦ !c.expanded) = some best ∧ best.id ∉ taken ∧
        best.id ∈ offered.map idOf ∧ Tracks capacity offered (taken ++ [best.id]) f' := by
  have hfind : f.entries.find? (fun c ↦ !c.expanded) = f.entries[firstUnexpanded f.entries]? :=
    List.find?_eq_getElem?_findIdx
  rw [hfind]
  rcases h.refines.takeNext with ⟨hnone, hbeam⟩ | ⟨pair, f', beam, hf, hbeam, hrefines⟩
  · exact .inl ⟨hnone, Option.map_eq_none_iff.mp hbeam⟩
  · obtain ⟨best, hbest, hpair⟩ := Option.map_eq_some_iff.mp hbeam
    obtain ⟨rfl, rfl⟩ := Prod.mk.inj hpair
    obtain ⟨hlt, heq⟩ := List.getElem?_eq_some_iff.mp hbest
    have hmem : best ∈ f.entries := List.mem_of_getElem? hbest
    have hfree : best.id ∉ taken := fun htaken ↦ by
      have hmark := (h.marks best hmem).mpr htaken
      rw [not_expanded_of_getElem? hbest] at hmark
      cases hmark
    refine .inr ⟨best, f', hf, hbest, hfree, h.id_offered hmem, hrefines.entries ▸ hrefines, ?_,
      fun c hc ↦ ?_, h.distinct, fun id hid ↦ ?_⟩
    · have hkey : ({ best with expanded := true } : Candidate δ).key = best.key := rfl
      rw [hrefines.entries, List.map_set, hkey, ← heq, ← List.map_set, List.set_getElem_self,
        h.keys]
    · rw [hrefines.entries] at hc
      obtain ⟨i, hi, rfl⟩ := List.getElem_of_mem hc
      rw [List.length_set] at hi
      rw [List.getElem_set]
      split_ifs with hat
      · exact iff_of_true rfl (List.mem_append_right _ List.mem_cons_self)
      · -- another candidate has another id
        rw [h.marks _ (List.getElem_mem hi), List.mem_append, List.mem_singleton]
        refine ⟨.inl, fun hor ↦ hor.resolve_right fun hid ↦ hat ?_⟩
        have hfirst : firstUnexpanded f.entries < (f.entries.map Candidate.id).length := by
          rwa [List.length_map]
        have hsecond : i < (f.entries.map Candidate.id).length := by rwa [List.length_map]
        refine (@List.Nodup.getElem_inj_iff _ _ h.ids_nodup _ hfirst _ hsecond).mp ?_
        rw [List.getElem_map, List.getElem_map, hid, heq]
    · rcases List.mem_append.mp hid with hid | hid
      · exact h.taken_offered id hid
      · exact List.mem_singleton.mp hid ▸ h.id_offered hmem

/-- A call on the frontier. -/
inductive Op (δ : Type) where
  | insert (id : ℕ) (distance : δ)
  | takeNext

/-- A call, and what was taken so far. -/
def Op.apply (s : Frontier δ × List ℕ) : Op δ → Frontier δ × List ℕ
  | .insert id distance => (s.1.insert id distance, s.2)
  | .takeNext =>
    match s.1.takeNext with
    | none => s
    | some ((id, _), f) => (f, s.2 ++ [id])

def runOps (capacity : ℕ) (ops : List (Op δ)) : Frontier δ × List ℕ :=
  ops.foldl Op.apply (Frontier.new capacity, [])

/-- The candidates that the calls offer. -/
def offeredBy (ops : List (Op δ)) : List (δ ×ₗ ℕ) :=
  ops.filterMap fun
    | .insert id distance => some (toLex (distance, id))
    | .takeNext => none

/-- Any calls that offer distinct ids keep track. -/
theorem tracks_runOps {ops : List (Op δ)} (hdistinct : ((offeredBy ops).map idOf).Nodup) :
    Tracks capacity (offeredBy ops) (runOps capacity ops).2 (runOps capacity ops).1 := by
  induction ops using List.reverseRecOn with
  | nil => exact tracks_new capacity
  | append_singleton ops op ih =>
    have hrun : runOps capacity (ops ++ [op]) = op.apply (runOps capacity ops) := by
      rw [runOps, List.foldl_append]
      rfl
    rw [hrun]
    rcases op with ⟨id, distance⟩ | -
    · have hoffered : offeredBy (ops ++ [.insert id distance]) =
          offeredBy ops ++ [toLex (distance, id)] := List.filterMap_append
      rw [hoffered, List.map_append, List.nodup_append] at hdistinct
      rw [hoffered]
      refine (ih hdistinct.1).insert distance fun hid ↦ ?_
      exact hdistinct.2.2 id hid id (List.mem_singleton.mpr rfl) rfl
    · have hoffered : offeredBy (ops ++ [.takeNext]) = offeredBy ops :=
        List.filterMap_append.trans (List.append_nil _)
      rw [hoffered] at hdistinct ⊢
      have hih := ih hdistinct
      rw [Op.apply]
      rcases hih.takeNext with ⟨hnone, -⟩ | ⟨best, f', hsome, -, -, -, htracks⟩
      · rw [hnone]
        exact hih
      · rw [hsome]
        exact htracks

end Runs

end Vamana

end Khive
