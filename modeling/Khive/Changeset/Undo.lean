import Khive.Changeset.Landing

/-!
# What one inversion step does

`invertOp` is taken apart once, into the relation `Undo`: which working row it found, what it
established about that row, which operation it emitted and how it rewound the working copy. Four
cases cover the operations, since a create and a link are undone alike.

The row an emitted delete captures is the working row itself, and the checks that led there make
it equal to itself: no NaN hides in it. That is recorded as the delete passing its own landing
check.
-/

namespace Khive

theorem beq_self_left {α : Type} [BEq α] [PartialEquivBEq α] {a b : α} (h : (a == b) = true) :
    (a == a) = true :=
  PartialEquivBEq.trans h (PartialEquivBEq.symm h)

/-- Overwrite the present fields of a row of the patch's substrate. -/
def UpdatePatch.overwrite : UpdatePatch → Record → Record
  | .entity patch, .entity row => .entity (patch.overwrite row)
  | .note patch, .note row => .note (patch.overwrite row)
  | .edge patch, .edge row => .edge (patch.overwrite row)
  | _, row => row

/-- Whether the operation fills a fresh slot. -/
def Op.creates : Op → Bool
  | .create _ => true
  | .link _ => true
  | _ => false

/-- A link's staged endpoints are those of the row. -/
def Op.EndpointsAre (op : Op) (w : Record) : Prop :=
  ∀ l row, op = .link l → w = .edge row → row.source = l.source ∧ row.target = l.target

/-- `Undo s op inverse s'`: the walk at `s` undoes `op` by emitting `inverse`, leaving `s'`. -/
inductive Undo (s : Rewind) : Op → Op → Rewind → Prop
  /-- A create or link: delete the working row, and forget the slot. -/
  | vanish {op : Op} {w : Record} (hop : op.creates = true) (hw : s.working.get op.key = some w)
      (hflag : op.key ∉ s.tombstones) (hlive : w.deletedAt = none)
      (hself : checkDelete ⟨op.key.2, false, w⟩ w = .ok ()) (hends : op.EndpointsAre w) :
      Undo s op (.delete ⟨op.key.2, false, w⟩) ⟨s.working.remove op.key, s.tombstones⟩
  /-- An update: write the captured values back. -/
  | rewrite {u u' : UpdateOp} {w : Record} (hw : s.working.get (Op.update u).key = some w)
      (hid : u'.targetId = u.targetId) (hpatch : u'.patch = u.preimage)
      (hpre : u'.preimage = u.patch) (hcheck : checkUpdate u' w = .ok ()) :
      Undo s (.update u) (.update u')
        ⟨s.working.insert u.targetId (u.preimage.overwrite w), s.tombstones⟩
  /-- A soft delete: restore the captured record. -/
  | revive {d : DeleteOp} {r : RestoreOp} {w : Record} (hsoft : d.hard = false)
      (hw : s.working.get (Op.delete d).key = some w) (hid : r.targetId = d.targetId)
      (hrecord : r.record = d.preimage) (hwid : w.recordId = d.targetId)
      (hcontent : checkRecordContent 0 d.targetId (w.withStatusOf d.preimage) d.preimage = .ok ())
      (hdead : (Op.delete d).key ∉ s.tombstones →
        w.isDeleted = true ∧ w.status.all (· == .deleted) = true) :
      Undo s (.delete d) (.restore r)
        ⟨s.working.insert d.targetId d.preimage,
          s.tombstones.filter (· ≠ (Op.delete d).key)⟩
  /-- A restore: delete the working row again, remembering only that it is gone. -/
  | bury {r : RestoreOp} {w : Record} (hw : s.working.get (Op.restore r).key = some w)
      (hflag : (Op.restore r).key ∉ s.tombstones) (hlive : w.deletedAt = none)
      (hself : checkDelete ⟨r.targetId, false, w⟩ w = .ok ()) :
      Undo s (.restore r) (.delete ⟨r.targetId, false, w⟩)
        ⟨s.working, (Op.restore r).key :: s.tombstones⟩

/-! ## The cases of `invertOp` -/

private theorem invertCreate_spec {index : ℕ} {create : CreateOp} {W W' : CurrentState} {inv : Op}
    (h : invertCreate index create W = .ok (inv, W')) :
    ∃ w, W.get create.key = some w ∧ w.deletedAt = none ∧
      checkDelete ⟨create.id, false, w⟩ w = .ok () ∧
      inv = .delete ⟨create.id, false, w⟩ ∧ W' = W.remove create.key := by
  unfold invertCreate at h
  cases ht : create.target with
  | entity fields =>
    simp only [ht, bind_eq_ok, exists_check, required_eq_ok, checkCurrent_eq_ok, pure_eq_ok,
      Prod.mk.injEq] at h
    obtain ⟨row, hrow, hid, -, hlive, -, -, -, -, hprops, -, rfl, rfl⟩ := h
    refine ⟨.entity row, ?_, by simpa [Record.deletedAt] using hlive, ?_, rfl, ?_⟩
    · simp [CreateOp.key, ht, CurrentState.get, hrow]
    · simp only [checkDelete, checkHeader, seq_eq_ok, equal_eq_ok, beq_self_eq_true, true_and,
        and_true]
      exact ⟨PartialEquivBEq.symm hid, beq_self_left hprops⟩
    · simp [CreateOp.key, ht]
  | note fields =>
    simp only [ht, bind_eq_ok, exists_check, required_eq_ok, checkCurrent_eq_ok, pure_eq_ok,
      Prod.mk.injEq] at h
    obtain ⟨row, hrow, hid, -, hlive, -, -, -, -, hprops, -, hsal, hdecay, rfl, rfl⟩ := h
    refine ⟨.note row, ?_, by simpa [Record.deletedAt] using hlive, ?_, rfl, ?_⟩
    · simp [CreateOp.key, ht, CurrentState.get, hrow]
    · simp only [checkDelete, checkHeader, seq_eq_ok, equal_eq_ok, beq_self_eq_true, true_and,
        and_true]
      exact ⟨PartialEquivBEq.symm hid, beq_self_left hprops, beq_self_left hsal,
        beq_self_left hdecay⟩
    · simp [CreateOp.key, ht]

private theorem invertLink_spec {index : ℕ} {link : LinkOp} {W W' : CurrentState} {inv : Op}
    (h : invertLink index link W = .ok (inv, W')) :
    ∃ row, W.edges link.id = some row ∧ row.deletedAt = none ∧ row.source = link.source ∧
      row.target = link.target ∧ checkDelete ⟨link.id, false, .edge row⟩ (.edge row) = .ok () ∧
      inv = .delete ⟨link.id, false, .edge row⟩ ∧ W' = W.remove (.edge, link.id) := by
  simp only [invertLink, bind_eq_ok, exists_check, required_eq_ok, checkCurrent_eq_ok, pure_eq_ok,
    Prod.mk.injEq] at h
  obtain ⟨row, hrow, hid, -, hlive, hsource, htarget, -, hweight, hprops, rfl, rfl⟩ := h
  refine ⟨row, hrow, by simpa using hlive, eq_of_beq hsource, eq_of_beq htarget, ?_, rfl, rfl⟩
  simp only [checkDelete, seq_eq_ok, equal_eq_ok, beq_self_eq_true, true_and, and_true]
  exact ⟨PartialEquivBEq.symm hid, beq_self_left hprops, beq_self_left hweight⟩

private theorem swappedUpdate_spec {index : ℕ} {u u' : UpdateOp}
    (h : swappedUpdate index u = .ok u') :
    u'.targetId = u.targetId ∧ u'.patch = u.preimage ∧ u'.preimage = u.patch := by
  rw [swappedUpdate, mapError_eq_ok] at h
  exact UpdateOp.new_eq_ok h

private theorem invertUpdate_spec {index : ℕ} {u : UpdateOp} {W W' : CurrentState} {inv : Op}
    (h : invertUpdate index u W = .ok (inv, W')) :
    ∃ w u', W.get (Op.update u).key = some w ∧ inv = .update u' ∧ u'.targetId = u.targetId ∧
      u'.patch = u.preimage ∧ u'.preimage = u.patch ∧ checkUpdate u' w = .ok () ∧
      W' = W.insert u.targetId (u.preimage.overwrite w) := by
  have hsub := u.preimage_substrate
  unfold invertUpdate at h
  -- patch and preimage are of one substrate, and the checks are those of the inverse
  cases hp : u.patch with
  | entity patch =>
    cases hq : u.preimage with
    | entity prior =>
      simp only [hp, hq, bind_eq_ok, exists_check, required_eq_ok, checkCurrent_eq_ok,
        checkPatched_eq_ok, pure_eq_ok, Prod.mk.injEq] at h
      obtain ⟨row, hrow, hid, hname, hdesc, htype, hprops, htags, u', hu', rfl, rfl⟩ := h
      obtain ⟨h₁, h₂, h₃⟩ := swappedUpdate_spec hu'
      refine ⟨.entity row, u', by simp [Op.key, hp, UpdatePatch.substrate, CurrentState.get, hrow],
        rfl, h₁, h₂.trans hq, h₃.trans hp, ?_, rfl⟩
      simp only [checkUpdate, h₃, hp, h₁, seq_eq_ok, equal_eq_ok, touched_eq_ok]
      exact ⟨PartialEquivBEq.symm hid, hname, hdesc, hprops, htags, htype⟩
    | _ => simp [hp, hq, UpdatePatch.substrate] at hsub
  | note patch =>
    cases hq : u.preimage with
    | note prior =>
      simp only [hp, hq, bind_eq_ok, exists_check, required_eq_ok, checkCurrent_eq_ok,
        checkPatched_eq_ok, pure_eq_ok, Prod.mk.injEq] at h
      obtain ⟨row, hrow, hid, hcontent, hsal, hdecay, hprops, htags, u', hu', rfl, rfl⟩ := h
      obtain ⟨h₁, h₂, h₃⟩ := swappedUpdate_spec hu'
      refine ⟨.note row, u', by simp [Op.key, hp, UpdatePatch.substrate, CurrentState.get, hrow],
        rfl, h₁, h₂.trans hq, h₃.trans hp, ?_, rfl⟩
      simp only [checkUpdate, h₃, hp, h₁, seq_eq_ok, equal_eq_ok, touched_eq_ok]
      exact ⟨PartialEquivBEq.symm hid, hcontent, hsal, hdecay, hprops, htags⟩
    | _ => simp [hp, hq, UpdatePatch.substrate] at hsub
  | edge patch =>
    cases hq : u.preimage with
    | edge prior =>
      simp only [hp, hq, bind_eq_ok, exists_check, required_eq_ok, checkCurrent_eq_ok,
        checkPatched_eq_ok, pure_eq_ok, Prod.mk.injEq] at h
      obtain ⟨row, hrow, hid, hrel, hweight, u', hu', rfl, rfl⟩ := h
      obtain ⟨h₁, h₂, h₃⟩ := swappedUpdate_spec hu'
      refine ⟨.edge row, u', by simp [Op.key, hp, UpdatePatch.substrate, CurrentState.get, hrow],
        rfl, h₁, h₂.trans hq, h₃.trans hp, ?_, rfl⟩
      simp only [checkUpdate, h₃, hp, h₁, seq_eq_ok, equal_eq_ok, touched_eq_ok]
      exact ⟨PartialEquivBEq.symm hid, hrel, hweight⟩
    | _ => simp [hp, hq, UpdatePatch.substrate] at hsub

private theorem currentRecord_spec {index : ℕ} {id : Id128} {expected w : Record}
    {W : CurrentState} (h : currentRecord index id expected W = .ok w) :
    W.get (expected.substrate, id) = some w ∧ w.recordId = id := by
  simp only [currentRecord, bind_eq_ok, exists_check, required_eq_ok, checkCurrent_eq_ok,
    pure_eq_ok] at h
  obtain ⟨r, hr, hid, rfl⟩ := h
  exact ⟨hr, eq_of_beq hid⟩

/-- Whether the contents match does not depend on what a mismatch would be reported under. -/
theorem checkRecordContent_congr {i j : ℕ} {id id' : Id128} {a b : Record}
    (h : checkRecordContent i id a b = .ok ()) : checkRecordContent j id' a b = .ok () := by
  cases a <;> cases b <;>
    simp only [checkRecordContent, seq_eq_ok, checkCurrent_eq_ok] at h ⊢ <;> exact h

/-- Matching contents come with matching statuses. -/
theorem checkRecordContent_status {i : ℕ} {id : Id128} {a b : Record}
    (h : checkRecordContent i id a b = .ok ()) :
    a.substrate = b.substrate ∧ a.status = b.status := by
  cases a <;> cases b <;>
    simp only [checkRecordContent, seq_eq_ok, checkCurrent_eq_ok, Bool.false_eq_true] at h
  · exact ⟨rfl, rfl⟩
  · exact ⟨rfl, congrArg some (eq_of_beq h.2.1)⟩
  · exact ⟨rfl, rfl⟩

theorem withStatusOf_eq_self {a b : Record} (h : a.status = b.status) : a.withStatusOf b = a := by
  cases a with
  | note row =>
    have : b.status = some row.status := h.symm
    simp [Record.withStatusOf, this]
  | _ => rfl

/-- A row with the content of some record passes the landing check of a delete capturing it. -/
theorem checkDelete_self {i : ℕ} {id : Id128} {a b : Record} (hid : a.recordId = id)
    (h : checkRecordContent i id a b = .ok ()) : checkDelete ⟨id, false, a⟩ a = .ok () := by
  subst hid
  cases a <;> cases b <;>
    simp only [checkRecordContent, seq_eq_ok, checkCurrent_eq_ok, Bool.false_eq_true] at h <;>
    simp only [checkDelete, checkHeader, Record.recordId, seq_eq_ok, equal_eq_ok,
      beq_self_eq_true, true_and, and_true]
  · exact beq_self_left h.2.2.2.2.1
  · exact ⟨beq_self_left h.2.2.2.1, beq_self_left h.2.2.2.2.2.1, beq_self_left h.2.2.2.2.2.2.1⟩
  · exact ⟨beq_self_left h.2.2.2.2.2.1, beq_self_left h.2.2.2.2.1⟩

private theorem rewindLifecycle_spec {index : ℕ} {id : Id128} {w prior w' : Record}
    (hsub : w.substrate = prior.substrate)
    (h : rewindLifecycle index id false w prior = .ok w') :
    w' = w.withStatusOf prior ∧ w.status.all (· == .deleted) = true := by
  cases w <;> cases prior <;> simp only [Record.substrate, reduceCtorEq] at hsub <;>
    simp only [rewindLifecycle, seq_eq_ok, checkCurrent_eq_ok, pure_eq_ok, Bool.false_or] at h
  · exact ⟨h.2.symm, rfl⟩
  · exact ⟨h.2.2.symm, by simpa [Record.status] using h.2.1⟩
  · exact ⟨h.symm, rfl⟩

private theorem rewindLifecycle_rewound {index : ℕ} {id : Id128} {w prior w' : Record}
    (h : rewindLifecycle index id true w prior = .ok w') : w' = w := by
  cases w <;> cases prior <;>
    simp only [rewindLifecycle, seq_eq_ok, checkCurrent_eq_ok, pure_eq_ok, Bool.true_or, true_and,
      if_true] at h <;> exact h.symm

private theorem invertDelete_undo {index : ℕ} {d : DeleteOp} {s s' : Rewind} {inv : Op}
    (hsoft : d.hard = false) (h : invertDelete index d s = .ok (inv, s')) :
    Undo s (.delete d) inv s' := by
  simp only [invertDelete, bind_eq_ok, exists_check, mapError_eq_ok, checkCurrent_eq_ok, pure_eq_ok,
    Prod.mk.injEq] at h
  obtain ⟨r, hr, w, hw, hdel, w', hw', hcontent, rfl, rfl⟩ := h
  obtain ⟨hrid, hrec⟩ := RestoreOp.new_eq_ok hr
  obtain ⟨hwget, hwid⟩ := currentRecord_spec hw
  have hkey : d.preimage.key = (Op.delete d).key := by
    rw [Record.key, Op.key, ← hrec, r.record_spec.1, hrid]
  have hins : rewindRecord d.preimage s.working = s.working.insert d.targetId d.preimage := by
    rw [rewindRecord, ← hrec, r.record_spec.1, hrid]
  rw [hkey] at hdel hw' ⊢
  rw [hins]
  by_cases hflag : (Op.delete d).key ∈ s.tombstones
  · rw [decide_eq_true hflag] at hw'
    obtain rfl := rewindLifecycle_rewound hw'
    refine .revive hsoft hwget hrid hrec hwid ?_ fun hn ↦ absurd hflag hn
    rw [withStatusOf_eq_self (checkRecordContent_status hcontent).2]
    exact checkRecordContent_congr hcontent
  · rw [decide_eq_false hflag] at hw'
    obtain ⟨rfl, hstatus⟩ := rewindLifecycle_spec (CurrentState.get_substrate hwget) hw'
    refine .revive hsoft hwget hrid hrec hwid (checkRecordContent_congr hcontent) fun _ ↦ ?_
    exact ⟨by simpa [hflag] using hdel, hstatus⟩

private theorem invertRestore_undo {index : ℕ} {r : RestoreOp} {s s' : Rewind} {inv : Op}
    (h : invertRestore index r s = .ok (inv, s')) : Undo s (.restore r) inv s' := by
  simp only [invertRestore, bind_eq_ok, exists_check, checkCurrent_eq_ok, pure_eq_ok,
    Prod.mk.injEq] at h
  obtain ⟨w, hw, hlive, hcontent, rfl, rfl⟩ := h
  obtain ⟨hwget, hwid⟩ := currentRecord_spec hw
  have hkey : r.record.key = (Op.restore r).key := by
    rw [Record.key, Op.key, r.record_spec.1]
  rw [hkey] at hlive ⊢
  simp only [Bool.and_eq_true, Bool.not_eq_true', decide_eq_false_iff_not, Record.isDeleted,
    Option.isSome_eq_false_iff, Option.isNone_iff_eq_none] at hlive
  exact .bury hwget hlive.2 hlive.1 (checkDelete_self hwid hcontent)

/-- **One inversion step**: `invertOp` undoes its operation in one of the four ways. -/
theorem invertOp_undo {index : ℕ} {op inv : Op} {s s' : Rewind}
    (h : invertOp index op s = .ok (inv, s')) : Undo s op inv s' := by
  cases op with
  | create create =>
    simp only [invertOp, bind_eq_ok, exists_check, checkCurrent_eq_ok, pure_eq_ok,
      Prod.mk.injEq, Prod.exists] at h
    obtain ⟨hflag, inv', W', hinv, rfl, rfl⟩ := h
    obtain ⟨w, hw, hlive, hself, rfl, rfl⟩ := invertCreate_spec hinv
    have hid : (Op.create create).key.2 = create.id := by
      simp only [Op.key, CreateOp.key]
      split <;> rfl
    rw [← hid] at hself ⊢
    refine .vanish rfl hw (by simpa [Op.key] using hflag) hlive hself ?_
    intro l row hl
    cases hl
  | link link =>
    simp only [invertOp, bind_eq_ok, exists_check, checkCurrent_eq_ok, pure_eq_ok,
      Prod.mk.injEq, Prod.exists] at h
    obtain ⟨hflag, inv', W', hinv, rfl, rfl⟩ := h
    obtain ⟨row, hrow, hlive, hsource, htarget, hself, rfl, rfl⟩ := invertLink_spec hinv
    have hw : s.working.get (Op.link link).key = some (.edge row) := by
      simp [Op.key, CurrentState.get, hrow]
    refine .vanish rfl hw (by simpa [Op.key] using hflag) hlive hself ?_
    intro l row' hl hr
    cases hl
    cases hr
    exact ⟨hsource, htarget⟩
  | update u =>
    simp only [invertOp, bind_eq_ok, pure_eq_ok, Prod.mk.injEq, Prod.exists] at h
    obtain ⟨inv', W', hinv, rfl, rfl⟩ := h
    obtain ⟨w, u', hw, rfl, hid, hpatch, hpre, hcheck, rfl⟩ := invertUpdate_spec hinv
    exact .rewrite hw hid hpatch hpre hcheck
  | delete d =>
    by_cases hhard : d.hard = true
    · simp [invertOp, hhard] at h
    · simp only [invertOp, hhard, if_false, Bool.false_eq_true] at h
      exact invertDelete_undo (by simpa using hhard) h
  | restore r => exact invertRestore_undo h
  | merge m => simp [invertOp] at h

end Khive
