import Khive.Hnsw.Invariant

/-!
# Deletion

A deletion only puts up a tombstone, and where the entry point has gone it finds another one: among
the neighbours of the node or, if they are all dead, anywhere. So there is an entry point for as
long as a node is live. An update of a live node replaces its vector.
-/

namespace Khive.Hnsw

variable {F : Type} {K : Kernels F}

namespace HnswIndex

variable {index : HnswIndex F} {id : NodeId} {vector : List F} {iid : ℕ}

/-! ## Updating -/

theorem map_set_of_eq {α β : Type} (g : α → β) {l : List α} {i : ℕ} {a b : α}
    (ha : l[i]? = some a) (heq : g b = g a) : (l.set i b).map g = l.map g := by
  refine List.ext_getElem? fun j ↦ ?_
  rw [List.getElem?_map, List.getElem?_map, List.getElem?_set]
  split_ifs with hij hlt
  · subst hij
    rw [ha, Option.map_some, Option.map_some, heq]
  · subst hij
    rw [List.getElem?_eq_none (not_lt.mp hlt)]
  · rfl

theorem returns_arena_update {arena : QuantizedArena F}
    (hdata : arena.data.length = arena.entries.length * arena.dims) {idx : ℕ}
    (hidx : idx < arena.entries.length) (hvector : vector.length = arena.dims) (norm : F) :
    Returns (arena.update K idx vector norm) fun arena' ↦
      arena'.data.length = arena.data.length ∧
        arena'.entries.length = arena.entries.length ∧ arena'.dims = arena.dims := by
  have hquantize : (K.quantize vector).length = arena.dims := by
    rw [Kernels.quantize, List.length_map, hvector]
  have hbound : idx * arena.dims + arena.dims ≤ arena.data.length := by
    rw [hdata, ← Nat.succ_mul]
    exact Nat.mul_le_mul_right _ hidx
  rw [QuantizedArena.update, hquantize, if_pos ⟨hbound, hidx⟩]
  refine returns_some.mpr ⟨?_, List.length_set, rfl⟩
  rw [List.length_append, List.length_append, List.length_take, List.length_drop, hquantize]
  omega

/-- A vector in the place of another. -/
theorem liveVector_replace {index' : HnswIndex F}
    (hnumbers : Numbers index.idToInternal index.internalToId)
    (hget : index.idToInternal.get id = some iid) (hlive : index.isTombstoned iid = false)
    (hlt : iid < index.nodes.length) (htable : index'.idToInternal = index.idToInternal)
    (htombstones : index'.tombstones = index.tombstones)
    (hvectors : index'.nodes.map HnswNode.vector =
      (index.nodes.map HnswNode.vector).set iid vector) :
    index'.liveVector = Function.update index.liveVector id (some vector) := by
  have hdead : ∀ j, index'.isTombstoned j = index.isTombstoned j := by
    intro j
    rw [isTombstoned, isTombstoned, htombstones]
  funext id'
  by_cases heq : id' = id
  · subst heq
    rw [Function.update_self, liveVector_of_get (htable ▸ hget), hdead,
      if_neg (ne_true_of_eq_false hlive), hvectors]
    exact List.getElem?_set_self (by rwa [List.length_map])
  · rw [Function.update_of_ne heq]
    cases hget' : index.idToInternal.get id' with
    | none => rw [liveVector_of_get_none hget', liveVector_of_get_none (htable ▸ hget')]
    | some j =>
      have hne : iid ≠ j := by
        rintro rfl
        have hids := (hnumbers id iid).mp hget
        rw [(hnumbers id' iid).mp hget'] at hids
        exact heq (Option.some.inj hids)
      rw [liveVector_of_get hget', liveVector_of_get (htable ▸ hget'), hdead, hvectors,
        List.getElem?_set_ne hne]

/-- The vector of a live node is replaced. -/
theorem WellFormed.returns_updateVector (h : index.WellFormed K)
    (hget : index.idToInternal.get id = some iid) (hlive : index.isTombstoned iid = false)
    (hdims : vector.length = index.config.dimensions)
    (hfinite : ∀ v ∈ vector, K.isFinite v = true) :
    Returns (index.updateVector K iid vector) fun index' ↦
      index'.WellFormed K ∧ index'.config = index.config ∧
        index'.liveVector = Function.update index.liveVector id (some vector) := by
  have hlt := h.lt_of_get hget
  rw [updateVector]
  refine (Returns.getElem? hlt).bind fun node hnode ↦ ?_
  refine (returns_arena_update h.data (h.entries.symm ▸ hlt) (hdims.trans h.dims.symm) _).bind
    fun arena harena ↦ returns_pure.mpr ?_
  obtain ⟨hdata, hentries, harenaDims⟩ := harena
  have hlevels := map_set_of_eq HnswNode.maxLayer (b := node.updateVector K vector) hnode rfl
  have hfits := h.wired node (List.mem_of_getElem? hnode)
  refine ⟨?_, rfl, ?_⟩
  · refine
      { wired := fun other hother ↦ ?_
        ids := h.ids.trans List.length_set.symm
        numbers := h.numbers
        tombstones := h.tombstones.trans_eq List.length_set.symm
        count := h.count
        entries := hentries.trans (h.entries.trans List.length_set.symm)
        data := by rw [hdata, hentries, harenaDims, h.data]
        dims := harenaDims.trans h.dims
        entry := fun ep hep ↦ ⟨(h.entry ep hep).1.trans_eq List.length_set.symm, (h.entry ep hep).2⟩
        exhausted := fun hnone j hj ↦ h.exhausted hnone j (hj.trans_eq List.length_set)
        level := h.level }
    rw [hlevels]
    rcases List.mem_or_eq_of_mem_set hother with hother | rfl
    · exact h.wired other hother
    · exact ⟨hdims, hfinite, hfits.layers, hfits.top, hfits.links⟩
  · exact liveVector_replace h.numbers hget hlive hlt rfl rfl List.map_set

/-! ## Deleting -/

/-- The flags with one more for this node. -/
def padFlags (flags : List Bool) (iid : ℕ) : List Bool :=
  flags ++ List.replicate (iid + 1 - flags.length) false

theorem getD_padFlags (flags : List Bool) (iid j : ℕ) :
    (padFlags flags iid).getD j false = flags.getD j false := by
  rw [padFlags, List.getD_eq_getElem?_getD, List.getD_eq_getElem?_getD, List.getElem?_append]
  split_ifs with hlt
  · rfl
  · rw [List.getElem?_eq_none (not_lt.mp hlt), List.getElem?_replicate]
    split_ifs <;> rfl

theorem lt_length_padFlags (flags : List Bool) (iid : ℕ) : iid < (padFlags flags iid).length := by
  rw [padFlags, List.length_append, List.length_replicate]
  omega

theorem length_padFlags_le {flags : List Bool} {n : ℕ} (hflags : flags.length ≤ n) (hiid : iid < n) :
    (padFlags flags iid).length ≤ n := by
  rw [padFlags, List.length_append, List.length_replicate]
  omega

theorem count_padFlags (flags : List Bool) (iid : ℕ) :
    (padFlags flags iid).count true = flags.count true := by
  rw [padFlags, List.count_append, List.count_replicate]
  rfl

theorem getD_set_true {flags : List Bool} (hiid : iid < flags.length) (j : ℕ) :
    (flags.set iid true).getD j false = (flags.getD j false || decide (j = iid)) := by
  rw [List.getD_eq_getElem?_getD, List.getD_eq_getElem?_getD, List.getElem?_set]
  by_cases heq : iid = j
  · subst heq
    rw [if_pos rfl, if_pos hiid, decide_eq_true rfl, Bool.or_true]
    rfl
  · rw [if_neg heq, decide_eq_false (Ne.symm heq), Bool.or_false]

theorem count_set_true {flags : List Bool} (hiid : iid < flags.length)
    (hflag : flags.getD iid false = false) :
    (flags.set iid true).count true = flags.count true + 1 := by
  rw [List.getD_eq_getElem?_getD, List.getElem?_eq_getElem hiid] at hflag
  have hget : flags[iid] = false := hflag
  rw [List.count_set hiid, hget]
  rfl

theorem liveVector_congr {index' : HnswIndex F} (htable : index'.idToInternal = index.idToInternal)
    (hnodes : index'.nodes = index.nodes)
    (hdead : ∀ j, index'.isTombstoned j = index.isTombstoned j) :
    index'.liveVector = index.liveVector := by
  funext id
  rw [liveVector, liveVector, htable, hnodes]
  simp only [hdead]

/-- A node under a new tombstone. -/
theorem liveVector_kill {index' : HnswIndex F}
    (hnumbers : Numbers index.idToInternal index.internalToId)
    (hget : index.idToInternal.get id = some iid)
    (htable : index'.idToInternal = index.idToInternal) (hnodes : index'.nodes = index.nodes)
    (hdead : ∀ j, index'.isTombstoned j = (index.isTombstoned j || decide (j = iid))) :
    index'.liveVector = Function.update index.liveVector id none := by
  funext id'
  by_cases heq : id' = id
  · subst heq
    rw [Function.update_self, liveVector_of_get (htable ▸ hget), hdead, decide_eq_true rfl,
      Bool.or_true, if_pos rfl]
  · rw [Function.update_of_ne heq]
    cases hget' : index.idToInternal.get id' with
    | none => rw [liveVector_of_get_none hget', liveVector_of_get_none (htable ▸ hget')]
    | some j =>
      have hne : j ≠ iid := by
        rintro rfl
        have hids := (hnumbers id j).mp hget
        rw [(hnumbers id' j).mp hget'] at hids
        exact heq (Option.some.inj hids)
      rw [liveVector_of_get hget', liveVector_of_get (htable ▸ hget'), hdead,
        decide_eq_false hne, Bool.or_false, hnodes]

/-- The entry point, once a node has died that may have been it. -/
theorem returns_repairEntryPoint (hwired : index.Wired K index.maxLevel)
    (hiid : iid < index.nodes.length)
    (hentry : ∀ ep, index.entryPoint = some ep →
      ep < index.nodes.length ∧ (ep ≠ iid → index.isTombstoned ep = false))
    (hnone : index.entryPoint = none → ∀ j < index.nodes.length, index.isTombstoned j = true) :
    Returns (index.repairEntryPointAfterDelete iid) fun index' ↦ ∃ entryPoint : Option ℕ,
      index' = { index with entryPoint := entryPoint } ∧
      (∀ ep, entryPoint = some ep →
        ep < index.nodes.length ∧ index.isTombstoned ep = false) ∧
      (entryPoint = none → ∀ j < index.nodes.length, index.isTombstoned j = true) := by
  rw [repairEntryPointAfterDelete]
  split_ifs with hep
  · refine (Returns.getElem? hiid).bind fun node hnode ↦ ?_
    split
    next neighborId hfound =>
      -- a live neighbour
      have hmem := List.mem_of_find?_eq_some hfound
      obtain ⟨list, hlist, hj⟩ := List.mem_flatten.mp hmem
      have hlt := hwired.lt_of_link (List.mem_of_getElem? hnode) (List.mem_reverse.mp hlist) hj
      have hlive := List.find?_some hfound
      refine returns_pure.mpr ⟨some neighborId, rfl, fun ep heq ↦ ?_, nofun⟩
      obtain rfl := Option.some.inj heq
      exact ⟨hlt, by simpa using hlive⟩
    · -- any live node
      refine returns_pure.mpr ⟨_, rfl, fun ep hfound ↦ ?_, fun hfound j hj ↦ ?_⟩
      · have hlt := List.mem_range.mp (List.mem_of_find?_eq_some hfound)
        have hlive := List.find?_some hfound
        exact ⟨hlt, by simpa using hlive⟩
      · have hdead := List.find?_eq_none.mp hfound j (List.mem_range.mpr hj)
        simpa using hdead
  · refine returns_some.mpr ⟨index.entryPoint, rfl, fun ep heq ↦ ?_, hnone⟩
    obtain ⟨hlt, hlive⟩ := hentry ep heq
    refine ⟨hlt, hlive ?_⟩
    rintro rfl
    exact hep heq

/-- **Deletion**: it tells whether the id was live, and it is not live any more. -/
theorem WellFormed.returns_delete (h : index.WellFormed K) (id : NodeId) :
    Returns (index.delete id) fun r ↦ r.1 = (index.liveVector id).isSome ∧ r.2.WellFormed K ∧
      r.2.config = index.config ∧
      r.2.liveVector = Function.update index.liveVector id none := by
  rw [delete]
  split
  next hget =>
    have hnone := liveVector_of_get_none hget
    refine returns_some.mpr ⟨by rw [hnone]; rfl, h, rfl, ?_⟩
    rw [← hnone, Function.update_eq_self]
  next iid hget =>
    have hlt := h.lt_of_get hget
    have hlength := lt_length_padFlags index.tombstones iid
    have hmost := length_padFlags_le h.tombstones hlt
    have hlive := liveVector_of_get hget
    show Returns (if (padFlags index.tombstones iid).getD iid false then
      pure (false, { index with tombstones := padFlags index.tombstones iid }) else _) _
    split_ifs with hdead
    · -- it was dead before
      have hflags : ∀ j, ({ index with tombstones := padFlags index.tombstones iid } :
          HnswIndex F).isTombstoned j = index.isTombstoned j :=
        fun j ↦ getD_padFlags index.tombstones iid j
      rw [getD_padFlags] at hdead
      rw [if_pos (by exact hdead)] at hlive
      refine returns_pure.mpr ⟨by rw [hlive]; rfl, ?_, rfl, ?_⟩
      · exact
          { h with
            tombstones := hmost
            count := h.count.trans (count_padFlags index.tombstones iid).symm
            entry := fun ep hep ↦ ⟨(h.entry ep hep).1, (hflags ep).trans (h.entry ep hep).2⟩
            exhausted := fun hnone j hj ↦ (hflags j).trans (h.exhausted hnone j hj) }
      · rw [← hlive, Function.update_eq_self]
        exact liveVector_congr rfl rfl hflags
    · rw [getD_padFlags] at hdead
      have hfalse : index.isTombstoned iid = false := Bool.eq_false_iff.mpr hdead
      have hflags : ∀ j, ((padFlags index.tombstones iid).set iid true).getD j false =
          (index.isTombstoned j || decide (j = iid)) := by
        intro j
        rw [getD_set_true hlength, getD_padFlags]
        rfl
      have hmarked : ∀ j, index.isTombstoned j = true →
          ((padFlags index.tombstones iid).set iid true).getD j false = true := by
        intro j hj
        rw [hflags, hj, Bool.true_or]
      let marked : HnswIndex F := { index with
        tombstones := (padFlags index.tombstones iid).set iid true
        tombstoneCount := index.tombstoneCount + 1 }
      have hrepair : Returns (marked.repairEntryPointAfterDelete iid) _ :=
        returns_repairEntryPoint (K := K) h.wired hlt
        (fun ep hep ↦ ⟨(h.entry ep hep).1, fun hne ↦ (hflags ep).trans (by
          rw [(h.entry ep hep).2, decide_eq_false hne, Bool.or_false])⟩)
        (fun hnone j hj ↦ hmarked j (h.exhausted hnone j hj))
      refine hrepair.bind ?_
      rintro repaired ⟨entryPoint, rfl, hentry, hexhausted⟩
      refine returns_pure.mpr ⟨?_, ?_, rfl, liveVector_kill h.numbers hget rfl rfl hflags⟩
      · rw [hlive, hfalse, List.getElem?_map, List.getElem?_eq_getElem hlt]
        rfl
      · exact
          { h with
            tombstones := List.length_set.trans_le hmost
            count := by
              show index.tombstoneCount + 1 = _
              rw [count_set_true hlength (by rw [getD_padFlags]; exact hfalse), count_padFlags,
                h.count]
            entry := hentry
            exhausted := hexhausted }

end HnswIndex

end Khive.Hnsw
