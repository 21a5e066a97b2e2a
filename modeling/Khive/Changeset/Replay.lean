import Khive.Changeset.Undo

/-!
# The inverse replays

Replaying the operations `invert` returns, from the very state it was given, passes every landing
check. The walk and the replay are two runs over different states: the walk rewinds a working copy
and remembers tombstones in a set, the replay writes rows and stamps them. They stay in
simulation slot by slot, `Sim`, and each inversion step is matched by one landing.

Rows in simulation are `Alike`: equal in everything but their lifecycle, where doubles and
property maps need only be indistinguishable. Slots the walk has dropped are unconstrained.
-/

namespace Khive

/-! ## Rows alike -/

/-- Equal but for revision and lifecycle. -/
structure Entity.Alike (a b : Entity) : Prop where
  id : a.header.id = b.header.id
  «namespace» : a.header.namespace = b.header.namespace
  createdAt : a.header.createdAt = b.header.createdAt
  kind : a.kind = b.kind
  entityType : a.entityType = b.entityType
  name : a.name = b.name
  description : a.description = b.description
  properties : Indist a.properties b.properties
  tags : a.tags = b.tags

@[inherit_doc Entity.Alike]
structure Note.Alike (a b : Note) : Prop where
  id : a.header.id = b.header.id
  «namespace» : a.header.namespace = b.header.namespace
  createdAt : a.header.createdAt = b.header.createdAt
  kind : a.kind = b.kind
  content : a.content = b.content
  properties : Indist a.properties b.properties
  tags : a.tags = b.tags
  salience : Indist a.salience b.salience
  decayFactor : Indist a.decayFactor b.decayFactor
  expiresAt : a.expiresAt = b.expiresAt

@[inherit_doc Entity.Alike]
structure Link.Alike (a b : Link) : Prop where
  id : a.id = b.id
  «namespace» : a.namespace = b.namespace
  source : a.source = b.source
  target : a.target = b.target
  relation : a.relation = b.relation
  properties : Indist a.properties b.properties
  weight : Indist a.weight b.weight
  createdAt : a.createdAt = b.createdAt

@[inherit_doc Entity.Alike]
inductive Record.Alike : Record → Record → Prop
  | entity {a b : Entity} (h : a.Alike b) : Alike (.entity a) (.entity b)
  | note {a b : Note} (h : a.Alike b) : Alike (.note a) (.note b)
  | edge {a b : Link} (h : a.Alike b) : Alike (.edge a) (.edge b)

namespace Record.Alike

protected theorem refl : ∀ a : Record, Alike a a
  | .entity _ => .entity ⟨rfl, rfl, rfl, rfl, rfl, rfl, rfl, .refl _, rfl⟩
  | .note _ => .note ⟨rfl, rfl, rfl, rfl, rfl, .refl _, rfl, .refl _, .refl _, rfl⟩
  | .edge _ => .edge ⟨rfl, rfl, rfl, rfl, rfl, .refl _, .refl _, rfl⟩

theorem substrate {a b : Record} (h : Alike a b) : b.substrate = a.substrate := by
  cases h <;> rfl

theorem recordId {a b : Record} (h : Alike a b) : b.recordId = a.recordId := by
  cases h with
  | entity h => exact h.id.symm
  | note h => exact h.id.symm
  | edge h => exact h.id.symm

end Record.Alike

theorem Indist.getD {α : Type} [BEq α] {a b : α} (o : Option α) (h : Indist a b) :
    Indist (o.getD a) (o.getD b) := by
  cases o with
  | none => exact h
  | some v => exact .refl v

theorem Holds.of_indist {α : Type} [BEq α] [PartialEquivBEq α] {o : Option α} {a b : α}
    (h : Holds o a) (hab : Indist a b) : Holds o b :=
  fun v hv ↦ hab.beq_right (h v hv)

/-! ## Checks and effects respect alikeness -/

theorem checkUpdate_of_alike {u : UpdateOp} {w t : Record} (hwt : w.Alike t)
    (h : checkUpdate u w = .ok ()) : checkUpdate u t = .ok () := by
  unfold checkUpdate at h ⊢
  cases hwt with
  | entity hr =>
    cases hp : u.preimage <;> simp only [hp, reduceCtorEq] at h ⊢
    simp only [seq_eq_ok, equal_eq_ok, touched_eq_ok] at h ⊢
    obtain ⟨hid, hname, hdesc, hprops, htags, htype⟩ := h
    exact ⟨hr.id ▸ hid, hr.name ▸ hname, hr.description ▸ hdesc, hprops.of_indist hr.properties,
      hr.tags ▸ htags, hr.entityType ▸ htype⟩
  | note hr =>
    cases hp : u.preimage <;> simp only [hp, reduceCtorEq] at h ⊢
    simp only [seq_eq_ok, equal_eq_ok, touched_eq_ok] at h ⊢
    obtain ⟨hid, hcontent, hsal, hdecay, hprops, htags⟩ := h
    exact ⟨hr.id ▸ hid, hr.content ▸ hcontent, hsal.of_indist hr.salience,
      hdecay.of_indist hr.decayFactor, hprops.of_indist hr.properties, hr.tags ▸ htags⟩
  | edge hr =>
    cases hp : u.preimage <;> simp only [hp, reduceCtorEq] at h ⊢
    simp only [seq_eq_ok, equal_eq_ok, touched_eq_ok] at h ⊢
    obtain ⟨hid, hrel, hweight⟩ := h
    exact ⟨hr.id ▸ hid, hr.relation ▸ hrel, hweight.of_indist hr.weight⟩

theorem checkDelete_of_alike {d : DeleteOp} {w t : Record} (hwt : w.Alike t)
    (hdel : t.deletedAt = w.deletedAt) (hstatus : t.status = w.status)
    (h : checkDelete d w = .ok ()) : checkDelete d t = .ok () := by
  unfold checkDelete at h ⊢
  cases hwt with
  | entity hr =>
    simp only [Record.deletedAt] at hdel
    cases hp : d.preimage <;> simp only [hp, reduceCtorEq] at h ⊢
    simp only [checkHeader, seq_eq_ok, equal_eq_ok] at h ⊢
    obtain ⟨hid, ⟨hid', hns, hcreated⟩, hkind, htype, hname, hdesc, hprops, htags, hdeleted⟩ := h
    exact ⟨hr.id ▸ hid, ⟨hr.id ▸ hid', hr.namespace ▸ hns, hr.createdAt ▸ hcreated⟩,
      hr.kind ▸ hkind, hr.entityType ▸ htype, hr.name ▸ hname, hr.description ▸ hdesc,
      hr.properties.beq_right hprops, hr.tags ▸ htags, hdel ▸ hdeleted⟩
  | note hr =>
    simp only [Record.deletedAt] at hdel
    cases hp : d.preimage <;> simp only [hp, reduceCtorEq] at h ⊢
    simp only [checkHeader, seq_eq_ok, equal_eq_ok] at h ⊢
    obtain ⟨hid, ⟨hid', hns, hcreated⟩, hkind, hst, hcontent, hprops, htags, hsal, hdecay, hexp,
      hdeleted⟩ := h
    exact ⟨hr.id ▸ hid, ⟨hr.id ▸ hid', hr.namespace ▸ hns, hr.createdAt ▸ hcreated⟩,
      hr.kind ▸ hkind, (Option.some.inj hstatus) ▸ hst, hr.content ▸ hcontent,
      hr.properties.beq_right hprops, hr.tags ▸ htags, hr.salience.beq_right hsal,
      hr.decayFactor.beq_right hdecay, hr.expiresAt ▸ hexp, hdel ▸ hdeleted⟩
  | edge hr =>
    simp only [Record.deletedAt] at hdel
    cases hp : d.preimage <;> simp only [hp, reduceCtorEq] at h ⊢
    simp only [seq_eq_ok, equal_eq_ok] at h ⊢
    obtain ⟨hid, hid', hns, hsource, htarget, hrel, hprops, hweight, hcreated, hdeleted⟩ := h
    exact ⟨hr.id ▸ hid, hr.id ▸ hid', hr.namespace ▸ hns, hr.source ▸ hsource,
      hr.target ▸ htarget, hr.relation ▸ hrel, hr.properties.beq_right hprops,
      hr.weight.beq_right hweight, hr.createdAt ▸ hcreated, hdel ▸ hdeleted⟩

/-- Rows alike match the same contents, once given the same status. -/
theorem checkRecordContent_of_alike {i : ℕ} {id : Id128} {w t p : Record} (hwt : w.Alike t)
    (h : checkRecordContent i id (w.withStatusOf p) p = .ok ()) :
    checkRecordContent i id (t.withStatusOf p) p = .ok () := by
  cases hwt with
  | entity hr =>
    cases p <;> simp only [Record.withStatusOf, checkRecordContent, seq_eq_ok,
      checkCurrent_eq_ok, Bool.false_eq_true] at h ⊢
    obtain ⟨hkind, htype, hname, hdesc, hprops, htags, hns, hcreated⟩ := h
    exact ⟨hr.kind ▸ hkind, hr.entityType ▸ htype, hr.name ▸ hname, hr.description ▸ hdesc,
      hr.properties.beq_left hprops, hr.tags ▸ htags, hr.namespace ▸ hns, hr.createdAt ▸ hcreated⟩
  | note hr =>
    cases p <;> simp only [Record.withStatusOf, checkRecordContent, seq_eq_ok,
      checkCurrent_eq_ok, Bool.false_eq_true, Record.status, Option.getD_some] at h ⊢
    obtain ⟨hkind, hst, hcontent, hprops, htags, hsal, hdecay, hexp, hns, hcreated⟩ := h
    exact ⟨hr.kind ▸ hkind, hst, hr.content ▸ hcontent, hr.properties.beq_left hprops,
      hr.tags ▸ htags, hr.salience.beq_left hsal, hr.decayFactor.beq_left hdecay,
      hr.expiresAt ▸ hexp, hr.namespace ▸ hns, hr.createdAt ▸ hcreated⟩
  | edge hr =>
    cases p <;> simp only [Record.withStatusOf, checkRecordContent, seq_eq_ok,
      checkCurrent_eq_ok, Bool.false_eq_true] at h ⊢
    obtain ⟨hns, hsource, htarget, hrel, hweight, hprops, hcreated⟩ := h
    exact ⟨hr.namespace ▸ hns, hr.source ▸ hsource, hr.target ▸ htarget, hr.relation ▸ hrel,
      hr.weight.beq_left hweight, hr.properties.beq_left hprops, hr.createdAt ▸ hcreated⟩

/-- A row whose content matches a captured record is alike to it. -/
theorem alike_of_content {i : ℕ} {id : Id128} {t p : Record} (hid : t.recordId = p.recordId)
    (h : checkRecordContent i id (t.withStatusOf p) p = .ok ()) : p.Alike t := by
  cases t <;> cases p <;> simp only [Record.withStatusOf, checkRecordContent, seq_eq_ok,
    checkCurrent_eq_ok, Bool.false_eq_true, beq_iff_eq] at h
  · obtain ⟨hkind, htype, hname, hdesc, hprops, htags, hns, hcreated⟩ := h
    exact .entity ⟨hid.symm, hns.symm, hcreated.symm, hkind.symm, htype.symm, hname.symm,
      hdesc.symm, .of_beq (PartialEquivBEq.symm hprops), htags.symm⟩
  · obtain ⟨hkind, -, hcontent, hprops, htags, hsal, hdecay, hexp, hns, hcreated⟩ := h
    exact .note ⟨hid.symm, hns.symm, hcreated.symm, hkind.symm, hcontent.symm,
      .of_beq (PartialEquivBEq.symm hprops), htags.symm, .of_beq (PartialEquivBEq.symm hsal),
      .of_beq (PartialEquivBEq.symm hdecay), hexp.symm⟩
  · obtain ⟨hns, hsource, htarget, hrel, hweight, hprops, hcreated⟩ := h
    exact .edge ⟨hid.symm, hns.symm, hsource.symm, htarget.symm, hrel.symm,
      .of_beq (PartialEquivBEq.symm hprops), .of_beq (PartialEquivBEq.symm hweight),
      hcreated.symm⟩

/-- The applier leaves the endpoints of this row alone under the patch. -/
def Applier.Keeps (a : Applier) : UpdatePatch → Record → Prop
  | .edge patch, .edge row =>
    a.settle (patch.relation.getD row.relation) row.source row.target = (row.source, row.target)
  | _, _ => True

theorem alike_patched {a : Applier} {st : Stamp} {patch : UpdatePatch} {w t : Record}
    (hwt : w.Alike t) (hkeep : a.Keeps patch t) :
    (patch.overwrite w).Alike (t.patched a st patch) := by
  cases hwt with
  | entity h =>
    cases patch with
    | entity p =>
      exact .entity ⟨h.id, h.namespace, h.createdAt, h.kind,
        by rw [EntityPatch.overwrite, h.entityType]; rfl,
        by rw [EntityPatch.overwrite, h.name]; rfl,
        by rw [EntityPatch.overwrite, h.description]; rfl,
        h.properties.getD _, by rw [EntityPatch.overwrite, h.tags]; rfl⟩
    | note p => exact .entity h
    | edge p => exact .entity h
  | note h =>
    cases patch with
    | entity p => exact .note h
    | note p =>
      exact .note ⟨h.id, h.namespace, h.createdAt, h.kind,
        by rw [NotePatch.overwrite, h.content]; rfl, h.properties.getD _,
        by rw [NotePatch.overwrite, h.tags]; rfl, h.salience.getD _, h.decayFactor.getD _,
        h.expiresAt⟩
    | edge p => exact .note h
  | edge h =>
    cases patch with
    | entity p => exact .edge h
    | note p => exact .edge h
    | edge p =>
      simp only [Applier.Keeps] at hkeep
      refine .edge ⟨h.id, h.namespace, ?_, ?_, by rw [EdgePatch.overwrite, h.relation]; rfl,
        h.properties, h.weight.getD _, h.createdAt⟩
      · simp only [EdgePatch.overwrite, hkeep, h.source]
      · simp only [EdgePatch.overwrite, hkeep, h.target]

/-! ## The simulation -/

/-- A working row against the replayed one. Where the walk has rewound the slot to "deleted" the
working row still shows the live record, and the replayed row is its tombstone. -/
structure RowSim (w : Record) (rewound : Prop) (t : Record) : Prop where
  alike : w.Alike t
  flagged : rewound → w.deletedAt = none ∧ t.isDeleted = true ∧
    t.status = w.status.map fun _ ↦ .deleted
  plain : ¬rewound → t.deletedAt = w.deletedAt ∧ t.status = w.status

/-- The walk's state against the replayed store, slot by slot. -/
def Sim (s : Rewind) (T : CurrentState) : Prop :=
  ∀ k w, s.working.get k = some w → ∃ t, T.get k = some t ∧ RowSim w (k ∈ s.tombstones) t

theorem Sim.initial (S : CurrentState) : Sim ⟨S, []⟩ S := by
  intro k w hw
  refine ⟨w, hw, .refl w, fun h ↦ ?_, fun _ ↦ ⟨rfl, rfl⟩⟩
  exact absurd h List.not_mem_nil

/-- Changing one slot on both sides keeps the rest in simulation. -/
theorem Sim.slot {s s' : Rewind} {T : CurrentState} {k : RecordKey} {t : Record} (h : Sim s T)
    (hsub : t.substrate = k.1)
    (hwork : ∀ k', k' ≠ k → s'.working.get k' = s.working.get k')
    (htomb : ∀ k', k' ≠ k → (k' ∈ s'.tombstones ↔ k' ∈ s.tombstones))
    (hk : ∀ w, s'.working.get k = some w → RowSim w (k ∈ s'.tombstones) t) :
    Sim s' (T.insert k.2 t) := by
  have hkey : (t.substrate, k.2) = k := by rw [hsub]
  intro k' w hw
  rw [CurrentState.get_insert, hkey]
  by_cases hk' : k' = k
  · subst hk'
    rw [if_pos rfl]
    exact ⟨t, rfl, hk w hw⟩
  · rw [hwork k' hk'] at hw
    obtain ⟨t', ht', hsim⟩ := h k' w hw
    rw [if_neg hk']
    refine ⟨t', ht', ?_⟩
    rwa [propext (htomb k' hk')]

theorem alike_tombstoned {w t : Record} (h : w.Alike t) (st : Stamp) :
    w.Alike (t.tombstoned st) := by
  cases h with
  | entity h => exact .entity ⟨h.1, h.2, h.3, h.4, h.5, h.6, h.7, h.8, h.9⟩
  | note h => exact .note ⟨h.1, h.2, h.3, h.4, h.5, h.6, h.7, h.8, h.9, h.10⟩
  | edge h => exact .edge ⟨h.1, h.2, h.3, h.4, h.5, h.6, h.7, h.8⟩

theorem RowSim.tombstoned {w t : Record} (h : w.Alike t) (hlive : w.deletedAt = none)
    (st : Stamp) {p : Prop} (hp : p) : RowSim w p (t.tombstoned st) := by
  refine ⟨alike_tombstoned h st, fun _ ↦ ⟨hlive, ?_, ?_⟩, fun hn ↦ absurd hp hn⟩
  · cases t <;> rfl
  · cases h <;> rfl

/-- A delete of the working row lands on the replayed row. -/
theorem landRow_delete {a : Applier} {st : Stamp} {w t : Record} {id : Id128} {p : Prop}
    (h : RowSim w p t) (hp : ¬p) (hself : checkDelete ⟨id, false, w⟩ w = .ok ()) :
    landRow a st (.delete ⟨id, false, w⟩) (some t) = .ok (t.tombstoned st) := by
  obtain ⟨hdel, hstatus⟩ := h.plain hp
  simp only [landRow, seq_eq_ok, mapError_eq_ok, pure_eq_ok]
  exact ⟨checkDelete_of_alike h.alike hdel hstatus hself, trivial⟩

/-- What the applier asks of an update beyond its preimage. -/
structure Applier.Accepts (a : Applier) (patch : UpdatePatch) (t : Record) : Prop where
  live : a.liveUpdates = true → t.isDeleted = false
  keeps : a.Keeps patch t

theorem landRow_update {a : Applier} {st : Stamp} {u : UpdateOp} {w t : Record} {p : Prop}
    (h : RowSim w p t) (hcheck : checkUpdate u w = .ok ()) (hacc : a.Accepts u.patch t) :
    landRow a st (.update u) (some t) = .ok (t.patched a st u.patch) := by
  simp only [landRow, seq_eq_ok, mapError_eq_ok, guardOr_eq_ok, pure_eq_ok]
  refine ⟨checkUpdate_of_alike h.alike hcheck, ?_, trivial⟩
  cases hl : a.liveUpdates with
  | false => rfl
  | true => simp [hacc.live hl]

theorem patched_deletedAt (a : Applier) (st : Stamp) (patch : UpdatePatch) (t : Record) :
    (t.patched a st patch).deletedAt = t.deletedAt := by
  cases patch <;> cases t <;> rfl

theorem patched_status (a : Applier) (st : Stamp) (patch : UpdatePatch) (t : Record) :
    (t.patched a st patch).status = t.status := by
  cases patch <;> cases t <;> rfl

theorem overwrite_deletedAt (patch : UpdatePatch) (w : Record) :
    (patch.overwrite w).deletedAt = w.deletedAt := by
  cases patch <;> cases w <;> rfl

theorem overwrite_status (patch : UpdatePatch) (w : Record) :
    (patch.overwrite w).status = w.status := by
  cases patch <;> cases w <;> rfl

theorem overwrite_substrate (patch : UpdatePatch) (w : Record) :
    (patch.overwrite w).substrate = w.substrate := by
  cases patch <;> cases w <;> rfl

theorem RowSim.patched {a : Applier} {st : Stamp} {patch : UpdatePatch} {w t : Record} {p : Prop}
    (h : RowSim w p t) (hkeep : a.Keeps patch t) :
    RowSim (patch.overwrite w) p (t.patched a st patch) := by
  refine ⟨alike_patched h.alike hkeep, fun hp ↦ ?_, fun hp ↦ ?_⟩
  · rw [overwrite_deletedAt, overwrite_status, Record.isDeleted, patched_deletedAt, patched_status]
    exact h.flagged hp
  · rw [overwrite_deletedAt, overwrite_status, patched_deletedAt, patched_status]
    exact h.plain hp

theorem alike_restored {w t p : Record} (h : w.Alike t) (st : Stamp) :
    w.Alike (t.restored p st) := by
  cases h with
  | entity h => exact .entity ⟨h.1, h.2, h.3, h.4, h.5, h.6, h.7, h.8, h.9⟩
  | note h => exact .note ⟨h.1, h.2, h.3, h.4, h.5, h.6, h.7, h.8, h.9, h.10⟩
  | edge h => exact .edge ⟨h.1, h.2, h.3, h.4, h.5, h.6, h.7, h.8⟩

/-- A restore of a record the working row matches lands on the replayed row, and leaves it in
simulation with the captured record. -/
theorem landRow_restore (a : Applier) (st : Stamp) {r : RestoreOp} {w t : Record} {p q : Prop}
    (h : RowSim w p t) (hwid : w.recordId = r.targetId)
    (hcontent : checkRecordContent 0 r.targetId (w.withStatusOf r.record) r.record = .ok ())
    (hdead : ¬p → w.isDeleted = true ∧ w.status.all (· == .deleted) = true) (hq : ¬q) :
    landRow a st (.restore r) (some t) = .ok (t.restored r.record st) ∧
      RowSim r.record q (t.restored r.record st) := by
  have htid : t.recordId = r.targetId := h.alike.recordId.trans hwid
  have htcontent := checkRecordContent_of_alike h.alike hcontent
  obtain ⟨hrid, -, hrlive⟩ := r.record_spec
  refine ⟨?_, ?_, fun hn ↦ absurd hn hq, fun _ ↦ ⟨?_, ?_⟩⟩
  · simp only [landRow, checkRestore, seq_eq_ok, mapError_eq_ok, guardOr_eq_ok, pure_eq_ok,
      Bool.and_eq_true]
    refine ⟨⟨by simp [htid], ?_, htcontent⟩, trivial⟩
    by_cases hp : p
    · obtain ⟨-, hdel, hstatus⟩ := h.flagged hp
      refine ⟨hdel, ?_⟩
      rw [hstatus]
      cases w.status <;> rfl
    · obtain ⟨hdel, hstatus⟩ := h.plain hp
      rw [Record.isDeleted, hdel, hstatus]
      exact hdead hp
  · exact alike_restored (alike_of_content (htid.trans hrid.symm) htcontent) st
  · rw [hrlive]
    cases t <;> rfl
  · obtain ⟨hsub, hstatus⟩ := checkRecordContent_status htcontent
    rw [← hstatus]
    cases t <;> rfl

/-! ## One step, and the whole walk -/

/-- The emitted operation is about the slot of the operation it undoes. -/
theorem Undo.key {s s' : Rewind} {op inv : Op} (h : Undo s op inv s') : inv.key = op.key := by
  cases h with
  | vanish _ hw => rw [Op.key, CurrentState.get_substrate hw]
  | rewrite _ hid hpatch =>
    rename_i u u' _ _ _ _
    rw [Op.key, Op.key, hid, hpatch, u.preimage_substrate]
  | revive _ _ hid hrecord => rw [Op.key, Op.key, hid, hrecord]
  | bury hw =>
    rw [Op.key, CurrentState.get_substrate hw]
    rfl

theorem Undo.isHard {s s' : Rewind} {op inv : Op} (h : Undo s op inv s') :
    inv.isHard = false := by
  cases h <;> rfl

/-- Whatever an emitted update asks of the applier is granted. -/
def Granted (a : Applier) (inv : Op) (T : CurrentState) : Prop :=
  ∀ u t, inv = .update u → T.get inv.key = some t → a.Accepts u.patch t

/-- **Step**: each inversion step is matched by a landing of the operation it emits. -/
theorem Undo.land {a : Applier} {s s' : Rewind} {op inv : Op} {T : CurrentState}
    (h : Undo s op inv s') (st : Stamp) (hsim : Sim s T) (hgrant : Granted a inv T) :
    ∃ T', Khive.land a st inv T = .ok T' ∧ Sim s' T' := by
  have hkey := h.key
  have hsoft := h.isHard
  cases h with
  | vanish hop hw hflag hlive hself hends =>
    obtain ⟨t, ht, hrow⟩ := hsim _ _ hw
    refine ⟨_, land_of_landRow hsoft (hkey ▸ ht) (landRow_delete hrow hflag hself), ?_⟩
    rw [hkey]
    refine hsim.slot ?_ (fun k hk ↦ ?_) (fun _ _ ↦ Iff.rfl) fun w' hw' ↦ ?_
    · rw [tombstoned_substrate, CurrentState.get_substrate ht]
    · rw [CurrentState.get_remove, if_neg hk]
    · rw [CurrentState.get_remove, if_pos rfl] at hw'
      cases hw'
  | @rewrite u u' w hw hid hpatch hpre hcheck =>
    obtain ⟨t, ht, hrow⟩ := hsim _ _ hw
    have hacc : a.Accepts u'.patch t := hgrant u' t rfl (hkey ▸ ht)
    refine ⟨_, land_of_landRow hsoft (hkey ▸ ht) (landRow_update hrow hcheck hacc), ?_⟩
    rw [hkey]
    -- the working state has the earlier fields at the one key that changes
    have hins : ∀ k, (s.working.insert u.targetId (u.preimage.overwrite w)).get k
        = if k = (Op.update u).key then some (u.preimage.overwrite w) else s.working.get k := by
      intro k
      rw [CurrentState.get_insert, overwrite_substrate, CurrentState.get_substrate hw]
      rfl
    refine hsim.slot ?_ (fun k hk ↦ ?_) (fun _ _ ↦ Iff.rfl) fun w' hw' ↦ ?_
    · rw [patched_substrate, CurrentState.get_substrate ht]
    · rw [hins, if_neg hk]
    · rw [hins, if_pos rfl] at hw'
      cases hw'
      rw [← hpatch]
      exact hrow.patched hacc.keeps
  | @revive d r w hsoft' hw hid hrecord hwid hcontent hdead =>
    obtain ⟨t, ht, hrow⟩ := hsim _ _ hw
    rw [← hid, ← hrecord] at hcontent
    obtain ⟨hland, hrow'⟩ := landRow_restore a st
      (q := (Op.delete d).key ∈ s.tombstones.filter (· ≠ (Op.delete d).key)) hrow
      (hwid.trans hid.symm) hcontent hdead (by simp)
    refine ⟨_, land_of_landRow hsoft (hkey ▸ ht) hland, ?_⟩
    rw [hkey]
    have hins : ∀ k, (s.working.insert d.targetId d.preimage).get k
        = if k = (Op.delete d).key then some d.preimage else s.working.get k :=
      fun k ↦ CurrentState.get_insert _ _ _ _
    refine hsim.slot ?_ (fun k hk ↦ ?_) (fun k hk ↦ ?_) fun w' hw' ↦ ?_
    · rw [restored_substrate, CurrentState.get_substrate ht]
    · rw [hins, if_neg hk]
    · simp [hk]
    · rw [hins, if_pos rfl] at hw'
      cases hw'
      rw [← hrecord]
      exact hrow'
  | @bury r w hw hflag hlive hself =>
    obtain ⟨t, ht, hrow⟩ := hsim _ _ hw
    refine ⟨_, land_of_landRow hsoft (hkey ▸ ht) (landRow_delete hrow hflag hself), ?_⟩
    rw [hkey]
    refine hsim.slot ?_ (fun _ _ ↦ rfl) (fun k hk ↦ by simp [hk]) fun w' hw' ↦ ?_
    · rw [tombstoned_substrate, CurrentState.get_substrate ht]
    · rw [hw] at hw'
      cases hw'
      exact .tombstoned hrow.alike hlive st List.mem_cons_self

theorem granted_replay (inv : Op) (T : CurrentState) : Granted .replay inv T := by
  intro u t _ _
  refine ⟨fun h ↦ by simp [Applier.replay] at h, ?_⟩
  unfold Applier.Keeps
  split
  · rfl
  · trivial

/-- **Run**: the inverses of a whole list replay from the state the walk started with. -/
theorem invertFrom_replays {ops invs : List Op} {index : ℕ} {S : CurrentState} {s : Rewind}
    (h : invertFrom index ops ⟨S, []⟩ = .ok (invs, s)) (clock : ℕ → Stamp) :
    ∃ T, landAll .replay clock invs S = .ok T ∧ Sim s T := by
  induction ops generalizing index invs s with
  | nil =>
    cases h
    exact ⟨S, rfl, .initial S⟩
  | cons op ops ih =>
    simp only [invertFrom, bind_eq_ok, pure_eq_ok, Prod.mk.injEq, Prod.exists] at h
    obtain ⟨invs', s', hrest, inv, s'', hop, rfl, rfl⟩ := h
    obtain ⟨T', hT', hsim⟩ := ih hrest
    obtain ⟨T, hT, hsim'⟩ := (invertOp_undo hop).land (clock invs'.length) hsim
      (granted_replay inv T')
    refine ⟨T, landAll_append hT' ?_, hsim'⟩
    simp only [landAll, bind_eq_ok, Nat.zero_add]
    exact ⟨T, hT, rfl⟩

/-- **An inverse replays**: from the state it was staged against, every operation of the inverse
passes its landing check, whatever the clock reads. -/
theorem invert_replays (changeset inverse : ChangeSet) (envelope : Envelope) (S : CurrentState)
    (clock : ℕ → Stamp) (h : changeset.invert envelope S = .ok inverse) :
    ∃ T, landAll .replay clock inverse.ops S = .ok T := by
  simp only [ChangeSet.invert, bind_eq_ok, exists_check, guardOr_eq_ok, pure_eq_ok,
    Prod.exists] at h
  obtain ⟨-, invs, s, hwalk, rfl⟩ := h
  obtain ⟨T, hT, -⟩ := invertFrom_replays hwalk clock
  exact ⟨T, hT⟩

/-! A rename, a soft delete and the restore that follows it, all of one entity. -/

private def renamedEntity (name : String) : Entity :=
  ⟨⟨1, ⟨"local"⟩, 11, 29⟩, .concept, none, name, none, [], [], none⟩

private def renameThenRecover : ChangeSet where
  envelope := ⟨2, "agent:test", "family:test", 1, none⟩
  ops :=
    [.update ⟨1, .entity ⟨some "after", none, none, none, none⟩,
        .entity ⟨some "before", none, none, none, none⟩, rfl⟩,
      .delete ⟨1, false, .entity (renamedEntity "after")⟩,
      .restore ⟨1, .entity (renamedEntity "after"), by decide⟩]

private def recoveredState : CurrentState where
  entities := fun id ↦ if id = 1 then some (renamedEntity "after") else none
  notes := fun _ ↦ none
  edges := fun _ ↦ none

theorem invert_replays_rename_then_recover :
    ∃ inverse, renameThenRecover.invert ⟨2, "agent:test", "family:test", 2, none⟩ recoveredState
        = .ok inverse ∧
      ∃ T, landAll .replay (fun _ ↦ ⟨90, fun _ ↦ 91⟩) inverse.ops recoveredState = .ok T := by
  obtain ⟨inverse, h⟩ : ∃ inverse, renameThenRecover.invert
      ⟨2, "agent:test", "family:test", 2, none⟩ recoveredState = .ok inverse := ⟨_, rfl⟩
  exact ⟨inverse, h, invert_replays _ _ _ _ _ h⟩

end Khive
