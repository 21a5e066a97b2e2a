import Khive.Hnsw.Rebuild

/-!
# The index as a map

A run of calls goes along with a map from ids to vectors. Each call answers as the map does, and
the index keeps to it, except that there is no inserting a new id while all nodes are under
tombstones: the last deletion has left no entry point, and only a rebuild takes the nodes out.
-/

namespace Khive.Hnsw

variable {F : Type} (K : Kernels F)

/-- The call of a method, with the level that is drawn for a new node. -/
inductive Call (F : Type) where
  | insert (id : NodeId) (vector : List F) (draw : ℕ)
  | delete (id : NodeId)
  | rebuild
  | clear

inductive Answer where
  | inserted (result : Except RetrievalError Unit)
  | deleted (existed : Bool)
  | rebuilt (stats : HnswIndex.RebuildStats)
  | cleared

/-- What the call answers, and the index it leaves. -/
def Call.perform (index : HnswIndex F) : Call F → Option (Answer × HnswIndex F)
  | .insert id vector draw => (index.insert K id vector draw).map (Prod.map .inserted fun i ↦ i)
  | .delete id => (index.delete id).map (Prod.map .deleted fun i ↦ i)
  | .rebuild => (index.rebuild K).map (Prod.map .rebuilt fun i ↦ i)
  | .clear => some (.cleared, index.clear)

/-! ## The map -/

/-- A finite vector of the dimension that is configured. -/
def validVector (config : HnswConfig) (vector : List F) : Bool :=
  decide (vector.length = config.dimensions) && vector.all K.isFinite

/-- The ids that have been inserted and not been deleted since, with their vectors. -/
abbrev Live (F : Type) := NodeId → Option (List F)

/-- The map after a call. -/
def Call.after (config : HnswConfig) (live : Live F) : Call F → Live F
  | .insert id vector _ =>
    if validVector K config vector then Function.update live id (some vector) else live
  | .delete id => Function.update live id none
  | .rebuild => live
  | .clear => fun _ ↦ none

/-- Whether the map gives this answer. -/
def Call.Answers (config : HnswConfig) (live : Live F) : Call F → Answer → Prop
  | .insert _ vector _, .inserted result => result = .ok () ↔ validVector K config vector = true
  | .delete id, .deleted existed => existed = (live id).isSome
  | .rebuild, .rebuilt _ => True
  | .clear, .cleared => True
  | _, _ => False

/-- The index holds the map, and its parts agree with one another. -/
structure HnswIndex.Holds (index : HnswIndex F) (live : Live F) : Prop where
  live : index.liveVector = live
  ids : index.internalToId.length = index.nodes.length
  nodup : index.internalToId.Nodup
  inverse : ∀ id iid, index.idToInternal.get id = some iid ↔ index.internalToId[iid]? = some id
  count : index.tombstoneCount = index.tombstones.count true
  arena : index.quantized.entries.length = index.nodes.length
  entry : (∃ iid < index.nodes.length, index.isTombstoned iid = false) →
    ∃ ep, index.entryPoint = some ep ∧ ep < index.nodes.length ∧ index.isTombstoned ep = false

/-- Over the whole run the index holds the map, and the calls return and answer as it does. -/
def BehavesAsMap : HnswIndex F → Live F → List (Call F) → Prop
  | index, live, [] => index.Holds live
  | index, live, call :: calls =>
    index.Holds live ∧ ∃ answer index', call.perform K index = some (answer, index') ∧
      call.Answers K index.config live answer ∧
      BehavesAsMap index' (call.after K index.config live) calls

/-- A valid vector is inserted under an id that has no node, and all nodes are under tombstones. -/
def Call.Stuck (index : HnswIndex F) : Call F → Prop
  | .insert id vector _ => validVector K index.config vector = true ∧
      index.idToInternal.get id = none ∧ index.Exhausted
  | _ => False

def AvoidsStuck : HnswIndex F → List (Call F) → Prop
  | _, [] => True
  | index, call :: calls => ¬ call.Stuck K index ∧
      ∀ answer index', call.perform K index = some (answer, index') → AvoidsStuck index' calls

instance (index : HnswIndex F) : Decidable index.Exhausted :=
  inferInstanceAs (Decidable (index.nodes ≠ [] ∧
    ∀ iid < index.nodes.length, index.isTombstoned iid = true))

instance (index : HnswIndex F) : ∀ call : Call F, Decidable (call.Stuck K index)
  | .insert id vector _ => inferInstanceAs (Decidable (validVector K index.config vector = true ∧
      index.idToInternal.get id = none ∧ index.Exhausted))
  | .delete _ | .rebuild | .clear => inferInstanceAs (Decidable False)

instance decidableAvoidsStuck :
    ∀ (index : HnswIndex F) (calls : List (Call F)), Decidable (AvoidsStuck K index calls)
  | _, [] => isTrue trivial
  | index, call :: calls =>
    match hperform : call.perform K index with
    | none => decidable_of_iff (¬ call.Stuck K index) (by simp [AvoidsStuck, hperform])
    | some (answer, index') =>
      have := decidableAvoidsStuck index' calls
      decidable_of_iff (¬ call.Stuck K index ∧ AvoidsStuck K index' calls)
        (by simp [AvoidsStuck, hperform])

/-! ## One call -/

variable {K} {index index' : HnswIndex F} {id : NodeId} {vector : List F}

theorem validateFiniteVector_eq_ok :
    validateFiniteVector K vector = .ok () ↔ ∀ v ∈ vector, K.isFinite v = true := by
  rw [validateFiniteVector]
  split
  next v i hfound =>
    refine iff_of_false nofun fun hall ↦ ?_
    have hmem := List.mem_of_find?_eq_some hfound
    have hv := List.find?_some hfound
    have hfinite := hall v (List.fst_mem_of_mem_zipIdx hmem)
    rw [hfinite] at hv
    cases hv
  next hnone =>
    refine iff_of_true rfl fun v hv ↦ ?_
    obtain ⟨i, hi⟩ := List.getElem?_of_mem hv
    have hmem : (v, i) ∈ vector.zipIdx := List.mem_zipIdx_iff_getElem?.mpr hi
    simpa using List.find?_eq_none.mp hnone _ hmem

theorem validVector_eq_true {config : HnswConfig} : validVector K config vector = true ↔
    vector.length = config.dimensions ∧ ∀ v ∈ vector, K.isFinite v = true := by
  rw [validVector, Bool.and_eq_true, decide_eq_true_iff, List.all_eq_true]

namespace HnswIndex

theorem WellFormed.clear (h : index.WellFormed K) : index.clear.WellFormed K where
  wired := nofun
  ids := rfl
  numbers := numbers_empty
  tombstones := le_rfl
  count := rfl
  entries := rfl
  data := (Nat.zero_mul _).symm
  dims := h.dims
  entry := nofun
  exhausted := nofun
  level := Nat.zero_le _

/-- The insertion of an id without a node. -/
theorem WellFormed.returns_insertFresh (h : index.WellFormed K)
    (hid : index.idToInternal.get id = none) (hdims : vector.length = index.config.dimensions)
    (hfinite : ∀ v ∈ vector, K.isFinite v = true) (draw : ℕ) :
    Returns (index.insertFresh K id vector draw) fun r ↦
      r.2.WellFormed K ∧ r.2.config = index.config ∧
      (index.config.memoryBudget = none → ¬ index.Exhausted →
        r.1 = .ok () ∧ r.2.liveVector = Function.update index.liveVector id (some vector)) ∧
      (index.config.memoryBudget = none → index.Exhausted → r.1 = .error noEntryPoint) := by
  rw [insertFresh]
  split
  next e hbudget =>
    refine returns_some.mpr ⟨h, rfl, fun hnone ↦ ?_, fun hnone ↦ ?_⟩
    · rw [checkBudget, hnone] at hbudget
      cases hbudget
    · rw [checkBudget, hnone] at hbudget
      cases hbudget
  · by_cases hexhausted : index.Exhausted
    · rw [h.insertNode_of_exhausted hexhausted draw]
      exact returns_some.mpr ⟨h, rfl, fun _ hnot ↦ absurd hexhausted hnot, fun _ _ ↦ rfl⟩
    · refine (h.returns_insertNode hid hdims hfinite hexhausted draw).mono ?_
      rintro r ⟨hok, hwell, hadded⟩
      exact ⟨hwell, hadded.config, fun _ _ ↦ ⟨hok, hadded.liveVector h⟩,
        fun _ hex ↦ absurd hex hexhausted⟩

theorem liveVector_ne_none (h : index.WellFormed K) {iid : ℕ}
    (hget : index.idToInternal.get id = some iid) (hlive : index.isTombstoned iid = false) :
    index.liveVector id ≠ none := by
  rw [liveVector_of_get hget, if_neg (ne_true_of_eq_false hlive), List.getElem?_map,
    List.getElem?_eq_getElem (h.lt_of_get hget)]
  exact Option.some_ne_none _

/-- **An insertion**: it accepts the valid vectors, unless it is stuck. -/
theorem WellFormed.returns_insert (h : index.WellFormed K) (id : NodeId) (vector : List F)
    (draw : ℕ) :
    Returns (index.insert K id vector draw) fun r ↦
      r.2.WellFormed K ∧ r.2.config = index.config ∧
      (validVector K index.config vector = false →
        r.1 ≠ .ok () ∧ r.2.liveVector = index.liveVector) ∧
      (index.config.memoryBudget = none → validVector K index.config vector = true →
        ¬ (index.idToInternal.get id = none ∧ index.Exhausted) →
        r.1 = .ok () ∧ r.2.liveVector = Function.update index.liveVector id (some vector)) ∧
      (index.config.memoryBudget = none → index.idToInternal.get id = none → index.Exhausted →
        r.1 ≠ .ok ()) := by
  rw [HnswIndex.insert]
  split_ifs with hlength
  · refine returns_some.mpr ⟨h, rfl, fun _ ↦ ⟨nofun, rfl⟩, fun _ hvalid ↦ ?_, fun _ _ _ ↦ nofun⟩
    exact absurd (validVector_eq_true.mp hvalid).1 hlength
  have hdims := not_ne_iff.mp hlength
  split
  next e herror =>
    refine returns_some.mpr ⟨h, rfl, fun _ ↦ ⟨nofun, rfl⟩, fun _ hvalid ↦ ?_, fun _ _ _ ↦ nofun⟩
    rw [validateFiniteVector_eq_ok.mpr (validVector_eq_true.mp hvalid).2] at herror
    cases herror
  next hok =>
    have hfinite := validateFiniteVector_eq_ok.mp hok
    have hvalid := validVector_eq_true.mpr ⟨hdims, hfinite⟩
    split
    next hget =>
      refine (h.returns_insertFresh hget hdims hfinite draw).mono ?_
      rintro r ⟨hwell, hconfig, haccept, hreject⟩
      refine ⟨hwell, hconfig, fun hfalse ↦ ?_, fun hbudget _ hnot ↦ ?_, fun hbudget _ hex ↦ ?_⟩
      · rw [hvalid] at hfalse
        cases hfalse
      · exact haccept hbudget fun hex ↦ hnot ⟨hget, hex⟩
      · rw [hreject hbudget hex]
        nofun
    next iid hget =>
      have hsome : index.idToInternal.get id ≠ none := hget ▸ Option.some_ne_none iid
      split_ifs with hdead
      · -- the old node goes away first
        refine h.returns_rebuild.bind ?_
        rintro ⟨stats, rebuilt⟩ ⟨hwell, hconfig, htombstones, hlive⟩
        have hnodead : ∀ j, rebuilt.isTombstoned j = false := fun j ↦
          isTombstoned_of_le (by rw [htombstones]; exact Nat.zero_le j)
        have hgone : index.liveVector id = none := by
          rw [liveVector_of_get hget, if_pos hdead]
        have hid : rebuilt.idToInternal.get id = none := by
          by_contra hne
          obtain ⟨j, hj⟩ := Option.ne_none_iff_exists'.mp hne
          exact liveVector_ne_none hwell hj (hnodead j) (by rw [hlive, hgone])
        have hnot : ¬ rebuilt.Exhausted := by
          rintro ⟨hne, hall⟩
          have hzero := hall 0 (List.length_pos_iff.mpr hne)
          rw [hnodead 0] at hzero
          cases hzero
        refine (hwell.returns_insertFresh hid (hdims.trans (by rw [hconfig])) hfinite draw).mono ?_
        rintro r ⟨hwell', hconfig', haccept, -⟩
        refine ⟨hwell', hconfig'.trans hconfig, fun hfalse ↦ ?_, fun hbudget _ _ ↦ ?_,
          fun _ hnone ↦ absurd hnone hsome⟩
        · rw [hvalid] at hfalse
          cases hfalse
        · obtain ⟨hok', hlive'⟩ := haccept (by rw [hconfig]; exact hbudget) hnot
          exact ⟨hok', hlive'.trans (by rw [hlive])⟩
      · refine (h.returns_updateVector hget (Bool.eq_false_iff.mpr hdead) hdims hfinite).bind ?_
        rintro updated ⟨hwell, hconfig, hlive⟩
        refine returns_pure.mpr ⟨hwell, hconfig, fun hfalse ↦ ?_, fun _ _ _ ↦ ⟨rfl, hlive⟩,
          fun _ hnone ↦ absurd hnone hsome⟩
        rw [hvalid] at hfalse
        cases hfalse

theorem WellFormed.holds (h : index.WellFormed K) : index.Holds index.liveVector where
  live := rfl
  ids := h.ids
  nodup := h.numbers.nodup
  inverse := h.numbers
  count := h.count
  arena := h.entries
  entry := by
    rintro ⟨iid, hiid, hlive⟩
    cases hentry : index.entryPoint with
    | none =>
      rw [h.exhausted hentry iid hiid] at hlive
      cases hlive
    | some ep => exact ⟨ep, rfl, h.entry ep hentry⟩

end HnswIndex

open HnswIndex

/-- **One call**: it keeps the invariant, and unless it is stuck it goes along with the map. -/
theorem HnswIndex.WellFormed.returns_perform (h : index.WellFormed K) (call : Call F) :
    Returns (call.perform K index) fun r ↦ r.2.WellFormed K ∧ r.2.config = index.config ∧
      (index.config.memoryBudget = none →
        (¬ call.Stuck K index → call.Answers K index.config index.liveVector r.1 ∧
          r.2.liveVector = call.after K index.config index.liveVector) ∧
        (call.Stuck K index → ¬ call.Answers K index.config index.liveVector r.1)) := by
  cases call with
  | insert id vector draw =>
    refine returns_map.mpr ((h.returns_insert id vector draw).mono ?_)
    rintro r ⟨hwell, hconfig, hinvalid, hvalid, hstuck⟩
    refine ⟨hwell, hconfig, fun hbudget ↦ ⟨fun hnot ↦ ?_, ?_⟩⟩
    · rw [Call.after]
      split_ifs with hok
      · obtain ⟨haccept, hlive⟩ := hvalid hbudget hok fun hex ↦ hnot ⟨hok, hex⟩
        exact ⟨iff_of_true haccept hok, hlive⟩
      · obtain ⟨hreject, hlive⟩ := hinvalid (Bool.eq_false_iff.mpr hok)
        exact ⟨iff_of_false hreject hok, hlive⟩
    · rintro ⟨hok, hnone, hex⟩ hanswer
      exact hstuck hbudget hnone hex (hanswer.mpr hok)
  | delete id =>
    refine returns_map.mpr ((h.returns_delete id).mono ?_)
    rintro r ⟨hexisted, hwell, hconfig, hlive⟩
    exact ⟨hwell, hconfig, fun _ ↦ ⟨fun _ ↦ ⟨hexisted, hlive⟩, False.elim⟩⟩
  | rebuild =>
    refine returns_map.mpr (h.returns_rebuild.mono ?_)
    rintro r ⟨hwell, hconfig, -, hlive⟩
    exact ⟨hwell, hconfig, fun _ ↦ ⟨fun _ ↦ ⟨trivial, hlive⟩, False.elim⟩⟩
  | clear =>
    exact returns_some.mpr ⟨h.clear, rfl, fun _ ↦ ⟨fun _ ↦ ⟨trivial, rfl⟩, False.elim⟩⟩

/-! ## Runs -/

theorem HnswIndex.WellFormed.behavesAsMap_iff (h : index.WellFormed K)
    (hbudget : index.config.memoryBudget = none) (calls : List (Call F)) :
    BehavesAsMap K index index.liveVector calls ↔ AvoidsStuck K index calls := by
  induction calls generalizing index with
  | nil => exact iff_of_true h.holds trivial
  | cons call calls ih =>
    obtain ⟨⟨answer, index'⟩, hperform, hwell, hconfig, hcall⟩ := h.returns_perform call
    obtain ⟨hmeets, hfails⟩ := hcall hbudget
    have hrest := ih hwell (by rw [hconfig]; exact hbudget)
    rw [BehavesAsMap, AvoidsStuck]
    constructor
    · rintro ⟨-, answer', index'', hperform', hanswer, hbehaves⟩
      obtain ⟨rfl, rfl⟩ := Prod.mk.inj (Option.some.inj (hperform.symm.trans hperform'))
      have hnot : ¬ call.Stuck K index := fun hstuck ↦ hfails hstuck hanswer
      refine ⟨hnot, fun answer'' after hperform'' ↦ ?_⟩
      obtain ⟨-, rfl⟩ := Prod.mk.inj (Option.some.inj (hperform.symm.trans hperform''))
      rw [← (hmeets hnot).2] at hbehaves
      exact hrest.mp hbehaves
    · rintro ⟨hnot, hall⟩
      obtain ⟨hanswer, hlive⟩ := hmeets hnot
      refine ⟨h.holds, answer, index', hperform, hanswer, ?_⟩
      rw [← hlive]
      exact hrest.mpr (hall answer index' hperform)

/-- **The index behaves as a map**, in exactly the runs in which no new id is inserted while there
are nodes and all of them are under tombstones. -/
theorem behavesAsMap_iff_avoidsStuck (K : Kernels F) (config : HnswConfig)
    (hbudget : config.memoryBudget = none) (useQuantized : Bool) (calls : List (Call F)) :
    BehavesAsMap K (HnswIndex.new config useQuantized) (fun _ ↦ none) calls ↔
      AvoidsStuck K (HnswIndex.new config useQuantized) calls :=
  (wellFormed_new config useQuantized).behavesAsMap_iff hbudget calls

/-- The kernels on vectors of small whole numbers under `l2`, on which `f32` is exact. -/
def wholeKernels : Kernels ℤ where
  isFinite _ := true
  isNan _ := false
  partialCmp := compare
  display := toString
  maxValue := 2 ^ 128 - 2 ^ 104
  norm vector := ((vector.map fun v ↦ v * v).sum.toNat.sqrt : ℕ)
  distance _ a _ b _ := ((a.zip b).map fun e ↦ (e.1 - e.2) * (e.1 - e.2)).sum
  distanceBatch4 _ a _ bs := bs.map fun b ↦ ((a.zip b.1).map fun e ↦ (e.1 - e.2) * (e.1 - e.2)).sum
  orderingDistance _ a _ b _ := ((a.zip b).map fun e ↦ (e.1 - e.2) * (e.1 - e.2)).sum
  quantScale vector := 127 / max 1 ((vector.map Int.natAbs).foldl max 0 : ℕ)
  quantElement v scale := max (-127) (min 127 (v * scale))
  cosineDistanceApprox _ _ _ _ _ := 1
  clearlyWorse approx worst := decide (100 * worst + 10 * worst + 1 < 100 * approx)

def lineConfig : HnswConfig := ⟨20, 40, 200, 1, .l2, none⟩

/-- The deleted id may be inserted again, but no other one. -/
theorem avoidsStuck_reinsertion :
    AvoidsStuck wholeKernels (HnswIndex.new lineConfig false)
        [.insert 1 [1] 0, .delete 1, .insert 1 [2] 0] ∧
      ¬ AvoidsStuck wholeKernels (HnswIndex.new lineConfig false)
        [.insert 1 [1] 0, .delete 1, .insert 2 [1] 0] := by
  decide +kernel

theorem reinsertion_behavesAsMap :
    BehavesAsMap wholeKernels (HnswIndex.new lineConfig false) (fun _ ↦ none)
      [.insert 1 [1] 0, .delete 1, .insert 1 [2] 0] :=
  (behavesAsMap_iff_avoidsStuck wholeKernels lineConfig rfl false _).mpr avoidsStuck_reinsertion.1

/-- With the only vector deleted, another id is refused. -/
theorem not_behavesAsMap_after_deletion :
    ¬ BehavesAsMap wholeKernels (HnswIndex.new lineConfig false) (fun _ ↦ none)
      [.insert 1 [1] 0, .delete 1, .insert 2 [1] 0] := fun hbehaves ↦
  avoidsStuck_reinsertion.2 (((wellFormed_new lineConfig false).behavesAsMap_iff rfl _).mp hbehaves)

end Khive.Hnsw
