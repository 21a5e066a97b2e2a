import Khive.Changeset.Invert

/-!
# Landing operations on a store

What applying one operation does to the stored records: its check against the row it finds, then
its effect. Clocks are arbitrary. Every landing gets a `Stamp` of its own, the time it writes
where a time is called for and the revision it gives a row that had one.

Appliers differ in two respects, which `Applier` keeps as parameters: what becomes of an edge's
endpoints once its relation is written, and whether an update asks for a live row. The canonical
applier reorders the endpoints of symmetric relations; the plain replay writes the patch's fields
and nothing else.
-/

namespace Khive

/-- One landing's clock reading. -/
structure Stamp where
  now : Timestamp
  /-- The revision that follows an existing `updatedAt`. -/
  touch : Timestamp → Timestamp

/-- The points in which appliers differ. -/
structure Applier where
  /-- Endpoints as stored once the relation is known. -/
  settle : EdgeRelation → Id128 → Id128 → Id128 × Id128
  /-- Whether an update is refused on a tombstone. -/
  liveUpdates : Bool

namespace Applier

/-- Overwrite exactly the patch's present fields. -/
def replay : Applier := ⟨fun _ source target ↦ (source, target), false⟩

/-- The canonical applier's edge writes: endpoints in canonical order. -/
def canonical (liveUpdates : Bool) : Applier :=
  ⟨fun r source target ↦ r.canonicalEndpoints source target, liveUpdates⟩

end Applier

/-! ## Effects on a row -/

/-- The row a create inserts. -/
def CreateOp.record (create : CreateOp) (st : Stamp) : Record :=
  let header : Header := ⟨create.id, create.namespace, st.now, st.now⟩
  match create.target with
  | .entity f =>
    .entity ⟨header, f.entityKind, f.entityType, f.name, f.description, f.properties, f.tags, none⟩
  | .note f =>
    .note ⟨header, f.noteKind, .active, f.content, f.properties, f.tags, f.salience,
      f.decayFactor, none, none⟩

/-- `links::draft`: the row a link inserts. -/
def LinkOp.draft (link : LinkOp) (a : Applier) (st : Stamp) : Link :=
  let endpoints := a.settle link.relation link.source link.target
  ⟨link.id, link.namespace.asStr, endpoints.1, endpoints.2, link.relation, link.properties,
    link.weight, st.now, st.now, none⟩

/-- The row after an update: patched fields, settled endpoints, a new revision. -/
def Record.patched (a : Applier) (st : Stamp) : UpdatePatch → Record → Record
  | .entity patch, .entity row =>
    .entity { patch.overwrite row with
      header := { row.header with updatedAt := st.touch row.header.updatedAt } }
  | .note patch, .note row =>
    .note { patch.overwrite row with
      header := { row.header with updatedAt := st.touch row.header.updatedAt } }
  | .edge patch, .edge row =>
    let row' := patch.overwrite row
    let endpoints := a.settle row'.relation row.source row.target
    .edge { row' with
      source := endpoints.1, target := endpoints.2, updatedAt := st.touch row.updatedAt }
  | _, row => row

/-- The row after a soft delete. Entities and notes keep their revision, edges advance it, and a
note's status follows. -/
def Record.tombstoned (st : Stamp) : Record → Record
  | .entity row => .entity { row with deletedAt := some st.now }
  | .note row => .note { row with status := .deleted, deletedAt := some st.now }
  | .edge row => .edge { row with updatedAt := st.touch row.updatedAt, deletedAt := some st.now }

/-- The row with a note's status replaced by that of the captured record. -/
def Record.withStatusOf (row captured : Record) : Record :=
  match row with
  | .note row => .note { row with status := captured.status.getD row.status }
  | row => row

/-- The row after a restore: live again, with the captured status. -/
def Record.restored (row captured : Record) (st : Stamp) : Record :=
  match row.withStatusOf captured with
  | .entity row =>
    .entity { row with
      header := { row.header with updatedAt := st.touch row.header.updatedAt }, deletedAt := none }
  | .note row =>
    .note { row with
      header := { row.header with updatedAt := st.touch row.header.updatedAt }, deletedAt := none }
  | .edge row => .edge { row with updatedAt := st.touch row.updatedAt, deletedAt := none }

/-! ## Landing -/

/-- Why an operation did not land. -/
inductive LandError where
  | identityExists (id : Id128)
  | missing (id : Id128)
  | mismatch (id : Id128) (fieldPath : String)
  | notLive (id : Id128)
  | notDeleted (id : Id128)
  | unsupported

/-- The slot an operation is about. -/
def Op.key : Op → RecordKey
  | .create op => op.key
  | .link op => (.edge, op.id)
  | .update op => (op.patch.substrate, op.targetId)
  | .delete op => (op.preimage.substrate, op.targetId)
  | .restore op => (op.record.substrate, op.targetId)
  | .merge op => (.entity, op.intoId)

/-- A restore's target is tombstoned, a note's status says so too, and the content is the captured
one. -/
def checkRestore (restore : RestoreOp) (row : Record) : Except LandError Unit := do
  let id := restore.targetId
  guardOr (.mismatch id "id") (row.recordId == id)
  guardOr (.notDeleted id) (row.isDeleted && row.status.all (· == .deleted))
  (checkRecordContent 0 id (row.withStatusOf restore.record) restore.record).mapError fun
    | .invalidated _ id field => .mismatch id field
    | _ => .unsupported

/-- What an operation makes of the row in its slot. -/
def landRow (a : Applier) (st : Stamp) (op : Op) (row : Option Record) :
    Except LandError Record :=
  match op, row with
  | .create create, none => .ok (create.record st)
  | .link link, none => .ok (.edge (link.draft a st))
  | .update update, some row => do
    (checkUpdate update row).mapError (.mismatch update.targetId ·.fieldPath)
    guardOr (.notLive update.targetId) (!a.liveUpdates || !row.isDeleted)
    pure (row.patched a st update.patch)
  | .delete delete, some row => do
    (checkDelete delete row).mapError (.mismatch delete.targetId ·.fieldPath)
    pure (row.tombstoned st)
  | .restore restore, some row => do
    checkRestore restore row
    pure (row.restored restore.record st)
  | .create _, some row => .error (.identityExists row.recordId)
  | .link _, some row => .error (.identityExists row.recordId)
  | .merge _, _ => .error .unsupported
  | op, none => .error (.missing op.key.2)

/-- `identity_absent`: no substrate knows the identifier. -/
def CurrentState.identityAbsent (S : CurrentState) (id : Id128) : Bool :=
  (S.entities id).isNone && (S.notes id).isNone && (S.edges id).isNone

/-- A create or link must bring a fresh identifier. -/
def checkIdentity (op : Op) (S : CurrentState) : Except LandError Unit :=
  match op with
  | .create create => guardOr (.identityExists create.id) (S.identityAbsent create.id)
  | .link link => guardOr (.identityExists link.id) (S.identityAbsent link.id)
  | _ => .ok ()

/-- Whether the operation purges its row instead of writing one. -/
def Op.isHard : Op → Bool
  | .delete op => op.hard
  | _ => false

/-- Land one operation: check it against the stored row and write the outcome. -/
def land (a : Applier) (st : Stamp) (op : Op) (S : CurrentState) :
    Except LandError CurrentState := do
  checkIdentity op S
  let row ← landRow a st op (S.get op.key)
  pure (if op.isHard then S.remove op.key else S.insert op.key.2 row)

/-- Land a list of operations in order; the clock ticks once per operation. -/
def landAll (a : Applier) (clock : ℕ → Stamp) : List Op → CurrentState →
    Except LandError CurrentState
  | [], S => .ok S
  | op :: ops, S => do
    let S ← land a (clock 0) op S
    landAll a (fun n ↦ clock (n + 1)) ops S

theorem landAll_append {a : Applier} {clock : ℕ → Stamp} {ops ops' : List Op}
    {S S' S'' : CurrentState} (h : landAll a clock ops S = .ok S')
    (h' : landAll a (fun n ↦ clock (n + ops.length)) ops' S' = .ok S'') :
    landAll a clock (ops ++ ops') S = .ok S'' := by
  induction ops generalizing clock S with
  | nil =>
    cases h
    exact h'
  | cons op ops ih =>
    simp only [landAll, bind_eq_ok, List.cons_append] at h ⊢
    obtain ⟨S₁, hop, hops⟩ := h
    refine ⟨S₁, hop, ih hops ?_⟩
    simpa only [List.length_cons, Nat.add_assoc] using h'

theorem landAll_append_inv {a : Applier} {clock : ℕ → Stamp} {ops ops' : List Op}
    {S S'' : CurrentState} (h : landAll a clock (ops ++ ops') S = .ok S'') :
    ∃ S', landAll a clock ops S = .ok S' ∧
      landAll a (fun n ↦ clock (n + ops.length)) ops' S' = .ok S'' := by
  induction ops generalizing clock S with
  | nil => exact ⟨S, rfl, h⟩
  | cons op ops ih =>
    simp only [landAll, bind_eq_ok, List.cons_append] at h ⊢
    obtain ⟨S₁, hop, hops⟩ := h
    obtain ⟨S', h₁, h₂⟩ := ih hops
    refine ⟨S', ⟨S₁, hop, h₁⟩, ?_⟩
    simpa only [List.length_cons, Nat.add_assoc] using h₂

/-! ## What a landing changes

Everything but a hard delete writes one row into the operation's own slot. -/

theorem CreateOp.record_substrate (create : CreateOp) (st : Stamp) :
    (create.record st).substrate = create.key.1 := by
  cases h : create.target <;> simp [CreateOp.record, CreateOp.key, h, Record.substrate]

theorem tombstoned_substrate (st : Stamp) (row : Record) :
    (row.tombstoned st).substrate = row.substrate := by
  cases row <;> rfl

theorem patched_substrate (a : Applier) (st : Stamp) (patch : UpdatePatch) (row : Record) :
    (row.patched a st patch).substrate = row.substrate := by
  cases patch <;> cases row <;> rfl

theorem restored_substrate (row captured : Record) (st : Stamp) :
    (row.restored captured st).substrate = row.substrate := by
  cases row <;> rfl

/-- A landed row stays in its slot's substrate. -/
theorem landRow_substrate {a : Applier} {st : Stamp} {op : Op} {row : Option Record}
    {row' : Record} (hrow : ∀ r, row = some r → r.substrate = op.key.1)
    (h : landRow a st op row = .ok row') : row'.substrate = op.key.1 := by
  unfold landRow at h
  split at h
  · cases h
    exact CreateOp.record_substrate _ st
  · cases h
    rfl
  · simp only [seq_eq_ok, pure_eq_ok] at h
    rw [← h.2.2, patched_substrate]
    exact hrow _ rfl
  · simp only [seq_eq_ok, pure_eq_ok] at h
    rw [← h.2, tombstoned_substrate]
    exact hrow _ rfl
  · simp only [seq_eq_ok, pure_eq_ok] at h
    rw [← h.2, restored_substrate]
    exact hrow _ rfl
  all_goals cases h

/-- **What a landing does**: the operation's slot gets the landed row, every other slot keeps what
it had. -/
theorem land_spec {a : Applier} {st : Stamp} {op : Op} {S S' : CurrentState}
    (hsoft : op.isHard = false) (h : land a st op S = .ok S') :
    ∃ row, landRow a st op (S.get op.key) = .ok row ∧ S'.get op.key = some row ∧
      ∀ k, k ≠ op.key → S'.get k = S.get k := by
  simp only [land, bind_eq_ok, pure_eq_ok, hsoft, Bool.false_eq_true, if_false] at h
  obtain ⟨-, -, row, hrow, rfl⟩ := h
  have hsub : row.substrate = op.key.1 :=
    landRow_substrate (fun _ hr ↦ CurrentState.get_substrate hr) hrow
  refine ⟨row, hrow, ?_, fun k hk ↦ ?_⟩
  · rw [CurrentState.get_insert, if_pos (by rw [hsub])]
  · rw [CurrentState.get_insert, if_neg (by rwa [hsub])]

/-- An operation on an existing row lands as soon as its row does. -/
theorem land_of_landRow {a : Applier} {st : Stamp} {op : Op} {S : CurrentState} {r row : Record}
    (hsoft : op.isHard = false) (hr : S.get op.key = some r)
    (h : landRow a st op (some r) = .ok row) :
    land a st op S = .ok (S.insert op.key.2 row) := by
  have hid : checkIdentity op S = .ok () := by
    cases op <;> simp_all [landRow, checkIdentity]
  simp only [land, bind_eq_ok, pure_eq_ok, hsoft, Bool.false_eq_true, if_false, hr]
  exact ⟨(), hid, row, h, rfl⟩

end Khive
