import Khive.Changeset.Replay

/-!
# Does the inverse restore?

Land a change-set, stage its inverse against the outcome, land that too: is every record back?
The inverse of an update swaps patch and preimage, which capture an edge's relation and weight and
nothing else. The canonical applier also reorders the endpoints of an edge whose relation is
symmetric, and no inverse puts those back.

So the answer is a condition on the forward run, `InOrderRun`: no edge update touches an edge with
reversed endpoints while its relation, before or after, is symmetric. Under it the landings of the
inverse walk the run back state by state (`Restored.step`). Without it some edge has its endpoints
sorted on the way there or on the way back, and sorted endpoints are never unsorted again
(`Drift`).
-/

namespace Khive

/-! ## The specification -/

/-- `T` has what `S` had, up to lifecycle timestamps, and only tombstones of what `ops` created. -/
structure Restored (S : CurrentState) (ops : List Op) (T : CurrentState) : Prop where
  kept : ∀ k r, S.get k = some r →
    ∃ t, T.get k = some t ∧ r.Alike t ∧ t.isDeleted = r.isDeleted ∧ t.status = r.status
  created : ∀ op ∈ ops, op.creates = true → ∃ t, T.get op.key = some t ∧ t.isDeleted = true
  others : ∀ k, (∀ op ∈ ops, op.key ≠ k) → T.get k = S.get k

/-- An edge update finds its edge with ordered endpoints, or neither the relation it finds nor the
relation it leaves is symmetric. -/
def Op.InOrder (op : Op) (S : CurrentState) : Prop :=
  ∀ u p l, op = .update u → u.patch = .edge p → S.edges u.targetId = some l →
    l.source ≤ l.target ∨
      (l.relation.isSymmetric = false ∧ (p.relation.getD l.relation).isSymmetric = false)

/-- Every edge update of the run is in order at the state it lands on. -/
def InOrderRun (a : Applier) (clock : ℕ → Stamp) : List Op → CurrentState → Prop
  | [], _ => True
  | op :: ops, S => op.InOrder S ∧
    ∀ S', land a (clock 0) op S = .ok S' → InOrderRun a (fun n ↦ clock (n + 1)) ops S'

/-! ## Rows there and back -/

namespace Record.Alike

theorem trans {a b c : Record} (h₁ : Alike a b) (h₂ : Alike b c) : Alike a c := by
  cases h₁ with
  | entity h =>
    cases h₂ with
    | entity h' =>
      exact .entity ⟨h.id.trans h'.id, h.namespace.trans h'.namespace,
        h.createdAt.trans h'.createdAt, h.kind.trans h'.kind, h.entityType.trans h'.entityType,
        h.name.trans h'.name, h.description.trans h'.description,
        h.properties.trans h'.properties, h.tags.trans h'.tags⟩
  | note h =>
    cases h₂ with
    | note h' =>
      exact .note ⟨h.id.trans h'.id, h.namespace.trans h'.namespace,
        h.createdAt.trans h'.createdAt, h.kind.trans h'.kind, h.content.trans h'.content,
        h.properties.trans h'.properties, h.tags.trans h'.tags, h.salience.trans h'.salience,
        h.decayFactor.trans h'.decayFactor, h.expiresAt.trans h'.expiresAt⟩
  | edge h =>
    cases h₂ with
    | edge h' =>
      exact .edge ⟨h.id.trans h'.id, h.namespace.trans h'.namespace, h.source.trans h'.source,
        h.target.trans h'.target, h.relation.trans h'.relation, h.properties.trans h'.properties,
        h.weight.trans h'.weight, h.createdAt.trans h'.createdAt⟩

end Record.Alike

/-- A field written by the patch and then by the preimage it matched is the field it was. -/
private theorem indist_undo {α : Type} [BEq α] [PartialEquivBEq α] {patch pre : Option α} {x : α}
    (hsome : patch.isSome = pre.isSome) (h : Holds pre x) :
    Indist x (pre.getD (patch.getD x)) := by
  cases pre with
  | none =>
    cases patch with
    | none => exact .refl x
    | some v => simp at hsome
  | some v => exact .of_beq (PartialEquivBEq.symm (h v rfl))

/-- Patching and then writing the matched preimage back changes nothing but the revision. -/
theorem alike_undo {a : Applier} (st : Stamp) {u : UpdateOp} {r : Record}
    (hcheck : checkUpdate u r = .ok ()) (hkeep : a.Keeps u.patch r) :
    r.Alike (u.preimage.overwrite (r.patched a st u.patch)) := by
  have hcong := u.congruent
  unfold checkUpdate at hcheck
  cases hq : u.preimage with
  | entity pre =>
    cases hp : u.patch <;> cases r <;>
      simp only [hp, hq, validateUpdateCongruence, reduceCtorEq, seq_eq_ok, checkTouched_eq_ok,
        touched_eq_ok, equal_eq_ok] at hcheck hcong
    obtain ⟨-, hname, hdesc, hprops, htags, htype⟩ := hcheck
    obtain ⟨cname, cdesc, cprops, ctags, ctype⟩ := hcong
    exact .entity ⟨rfl, rfl, rfl, rfl, (indist_undo ctype htype).eq, (indist_undo cname hname).eq,
      (indist_undo cdesc hdesc).eq, indist_undo cprops hprops, (indist_undo ctags htags).eq⟩
  | note pre =>
    cases hp : u.patch <;> cases r <;>
      simp only [hp, hq, validateUpdateCongruence, reduceCtorEq, seq_eq_ok, checkTouched_eq_ok,
        touched_eq_ok, equal_eq_ok] at hcheck hcong
    obtain ⟨-, hcontent, hsal, hdecay, hprops, htags⟩ := hcheck
    obtain ⟨ccontent, csal, cdecay, cprops, ctags, -⟩ := hcong
    exact .note ⟨rfl, rfl, rfl, rfl, (indist_undo ccontent hcontent).eq, indist_undo cprops hprops,
      (indist_undo ctags htags).eq, indist_undo csal hsal, indist_undo cdecay hdecay, rfl⟩
  | edge pre =>
    cases hp : u.patch <;> cases r <;>
      simp only [hp, hq, validateUpdateCongruence, reduceCtorEq, seq_eq_ok, checkTouched_eq_ok,
        touched_eq_ok, equal_eq_ok] at hcheck hcong
    obtain ⟨-, hrel, hweight⟩ := hcheck
    obtain ⟨crel, cweight, -⟩ := hcong
    simp only [hp, Applier.Keeps] at hkeep
    refine .edge ⟨rfl, rfl, ?_, ?_, (indist_undo crel hrel).eq, .refl _, indist_undo cweight hweight,
      rfl⟩
    · simp only [EdgePatch.overwrite, hkeep]
    · simp only [EdgePatch.overwrite, hkeep]

/-! ## Landings on an existing row, inverted -/

section Inversion

variable {a : Applier} {st : Stamp} {r r' : Record}

theorem landRow_update_inv {u : UpdateOp} (h : landRow a st (.update u) (some r) = .ok r') :
    checkUpdate u r = .ok () ∧ (a.liveUpdates = true → r.isDeleted = false) ∧
      r' = r.patched a st u.patch := by
  simp only [landRow, seq_eq_ok, mapError_eq_ok, guardOr_eq_ok, pure_eq_ok] at h
  refine ⟨h.1, fun hl ↦ ?_, h.2.2.symm⟩
  simpa [hl] using h.2.1

theorem landRow_delete_inv {d : DeleteOp} (h : landRow a st (.delete d) (some r) = .ok r') :
    checkDelete d r = .ok () ∧ r' = r.tombstoned st := by
  simp only [landRow, seq_eq_ok, mapError_eq_ok, pure_eq_ok] at h
  exact ⟨h.1, h.2.symm⟩

theorem landRow_restore_inv {o : RestoreOp} (h : landRow a st (.restore o) (some r) = .ok r') :
    r.isDeleted = true ∧ r.status.all (· == .deleted) = true ∧
      (r.withStatusOf o.record).status = o.record.status ∧ r' = r.restored o.record st := by
  simp only [landRow, checkRestore, seq_eq_ok, mapError_eq_ok, guardOr_eq_ok, pure_eq_ok,
    Bool.and_eq_true] at h
  obtain ⟨⟨-, ⟨hdel, hstatus⟩, hcontent⟩, rfl⟩ := h
  exact ⟨hdel, hstatus, (checkRecordContent_status hcontent).2, rfl⟩

/-- An operation that creates does not land on an existing row. -/
theorem landRow_creates {op : Op} (hop : op.creates = true) :
    landRow a st op (some r) ≠ .ok r' := by
  cases op <;> simp_all [Op.creates, landRow]

end Inversion

theorem checkDelete_lifecycle {d : DeleteOp} {r : Record} (h : checkDelete d r = .ok ()) :
    r.deletedAt = d.preimage.deletedAt ∧ r.status = d.preimage.status := by
  unfold checkDelete at h
  cases hp : d.preimage <;> cases r <;>
    simp only [hp, reduceCtorEq, checkHeader, seq_eq_ok, equal_eq_ok, beq_iff_eq] at h
  · exact ⟨h.2.2.2.2.2.2.2.2.symm, rfl⟩
  · exact ⟨h.2.2.2.2.2.2.2.2.2.2.symm, congrArg some h.2.2.2.1.symm⟩
  · exact ⟨h.2.2.2.2.2.2.2.2.2.symm, rfl⟩

theorem tombstoned_status (st : Stamp) (t : Record) :
    (t.tombstoned st).status = t.status.map fun _ ↦ .deleted := by
  cases t <;> rfl

/-! ## Back by one step -/

/-- A row after the operation and after its inverse, against the row before both. -/
private theorem row_back {a : Applier} {st st' : Stamp} {s s' : Rewind} {op inv : Op}
    {r r' t' t : Record} (hundo : Undo s op inv s') (hland : landRow a st op (some r) = .ok r')
    (halike : r'.Alike t') (hdel : t'.isDeleted = r'.isDeleted) (hst : t'.status = r'.status)
    (hinv : landRow a st' inv (some t') = .ok t)
    (hkeep : ∀ u, op = .update u → a.Keeps u.patch r)
    (hkeep' : ∀ u, inv = .update u → a.Keeps u.patch t') :
    r.Alike t ∧ t.isDeleted = r.isDeleted ∧ t.status = r.status := by
  cases hundo with
  | vanish hop => exact absurd hland (landRow_creates hop)
  | @rewrite u u' w hw hid hpatch hpre hcheck =>
    obtain ⟨hcheck, -, rfl⟩ := landRow_update_inv hland
    obtain ⟨-, -, rfl⟩ := landRow_update_inv hinv
    refine ⟨(alike_undo st hcheck (hkeep u rfl)).trans ?_, ?_, ?_⟩
    · rw [← hpatch]
      exact alike_patched halike (hkeep' u' rfl)
    · rw [Record.isDeleted, patched_deletedAt, ← Record.isDeleted, hdel, Record.isDeleted,
        patched_deletedAt, Record.isDeleted]
    · rw [patched_status, hst, patched_status]
  | @revive d o w hsoft hw hid hrecord hwid hcontent hdead =>
    obtain ⟨hcheck, rfl⟩ := landRow_delete_inv hland
    obtain ⟨-, -, hstatus, rfl⟩ := landRow_restore_inv hinv
    obtain ⟨hdel', hstatus'⟩ := checkDelete_lifecycle hcheck
    have hlive : r.deletedAt = none := by rw [hdel', ← hrecord, o.record_spec.2.2]
    refine ⟨((alike_tombstoned (.refl r) st).trans halike).trans (alike_restored (.refl t') st'),
      ?_, ?_⟩
    · rw [Record.isDeleted, Record.isDeleted, hlive]
      cases t' <;> rfl
    · rw [hstatus', ← hrecord, ← hstatus]
      cases t' <;> rfl
  | @bury o w hw hflag hlive hself =>
    obtain ⟨hdel', hstatus', -, rfl⟩ := landRow_restore_inv hland
    obtain ⟨-, rfl⟩ := landRow_delete_inv hinv
    refine ⟨((alike_restored (.refl r) st).trans halike).trans (alike_tombstoned (.refl t') st'),
      ?_, ?_⟩
    · rw [hdel']
      cases t' <;> rfl
    · have hsub := halike.substrate
      rw [restored_substrate] at hsub
      rw [tombstoned_status]
      cases r <;> cases t' <;> simp only [Record.substrate, reduceCtorEq] at hsub
      · rfl
      · exact congrArg some (beq_iff_eq.mp hstatus').symm
      · rfl

/-- **Back by one step**: if the inverses of `rest` bring `S'` back, then landing the inverse of
`op` as well brings back the state `op` landed on. -/
theorem Restored.step {a : Applier} {st st' : Stamp} {s s' : Rewind} {op inv : Op}
    {rest : List Op} {S S' T' T : CurrentState} (hundo : Undo s op inv s')
    (hsoft : op.isHard = false) (hland : land a st op S = .ok S') (hback : Restored S' rest T')
    (hinv : land a st' inv T' = .ok T)
    (hkeep : ∀ u r, op = .update u → S.get op.key = some r → a.Keeps u.patch r)
    (hkeep' : ∀ u t, inv = .update u → T'.get inv.key = some t → a.Keeps u.patch t)
    (hfresh : ∀ op' ∈ rest, op'.creates = true → op'.key ≠ op.key) :
    Restored S (op :: rest) T := by
  obtain ⟨r', hr', hS', hframe⟩ := land_spec hsoft hland
  obtain ⟨t, ht, hT, hframe'⟩ := land_spec hundo.isHard hinv
  obtain ⟨t', ht', halike, hdel, hst⟩ := hback.kept _ _ hS'
  have hkey := hundo.key
  rw [hkey] at ht hT hframe'
  rw [ht'] at ht
  refine ⟨fun k r hr ↦ ?_, fun op' hop' hcr ↦ ?_, fun k hk ↦ ?_⟩
  · by_cases hk : k = op.key
    · subst hk
      refine ⟨t, hT, ?_⟩
      rw [hr] at hr'
      exact row_back hundo hr' halike hdel hst ht (fun u hu ↦ hkeep u r hu hr)
        fun u hu ↦ hkeep' u t' hu (hkey ▸ ht')
    · rw [← hframe k hk] at hr
      rw [hframe' k hk]
      exact hback.kept k r hr
  · rcases List.mem_cons.mp hop' with rfl | hmem
    · refine ⟨t, hT, ?_⟩
      cases hundo with
      | vanish =>
        obtain ⟨-, rfl⟩ := landRow_delete_inv ht
        cases t' <;> rfl
      | _ => simp [Op.creates] at hcr
    · rw [hframe' _ (hfresh op' hmem hcr)]
      exact hback.created op' hmem hcr
  · have hkop : k ≠ op.key := fun h ↦ hk op List.mem_cons_self h.symm
    rw [hframe' k hkop, hback.others k fun op' hmem ↦ hk op' (List.mem_cons_of_mem _ hmem),
      hframe k hkop]

/-! ## The run back -/

theorem Undo.soft {s s' : Rewind} {op inv : Op} (h : Undo s op inv s') : op.isHard = false := by
  cases h with
  | @vanish op _ hop => cases op <;> simp_all [Op.creates, Op.isHard]
  | rewrite => rfl
  | revive hsoft => exact hsoft
  | bury => rfl

/-- One turn of the walk. -/
theorem invertFrom_cons {index : ℕ} {op : Op} {ops invs : List Op} {s₀ s : Rewind}
    (h : invertFrom index (op :: ops) s₀ = .ok (invs, s)) :
    ∃ invs' s' inv, invertFrom (index + 1) ops s₀ = .ok (invs', s') ∧ Undo s' op inv s ∧
      invs = invs' ++ [inv] := by
  simp only [invertFrom, bind_eq_ok, pure_eq_ok, Prod.mk.injEq, Prod.exists] at h
  obtain ⟨invs', s', hrest, inv, s'', hop, rfl, rfl⟩ := h
  exact ⟨invs', s', inv, hrest, invertOp_undo hop, rfl⟩

theorem invertFrom_soft {index : ℕ} {ops invs : List Op} {s₀ s : Rewind}
    (h : invertFrom index ops s₀ = .ok (invs, s)) : ∀ op ∈ ops, op.isHard = false := by
  induction ops generalizing index invs s with
  | nil => simp
  | cons op ops ih =>
    obtain ⟨invs', s', inv, hrest, hundo, rfl⟩ := invertFrom_cons h
    intro op' hop'
    rcases List.mem_cons.mp hop' with rfl | hmem
    · exact hundo.soft
    · exact ih hrest op' hmem

/-- A slot once filled is never created again. -/
theorem landAll_fresh {a : Applier} {clock : ℕ → Stamp} {ops : List Op} {S S' : CurrentState}
    {k : RecordKey} {r : Record} (h : landAll a clock ops S = .ok S')
    (hsoft : ∀ op ∈ ops, op.isHard = false) (hk : S.get k = some r) :
    ∀ op ∈ ops, op.creates = true → op.key ≠ k := by
  induction ops generalizing clock S r with
  | nil => simp
  | cons op ops ih =>
    simp only [landAll, bind_eq_ok] at h
    obtain ⟨S₁, hop, hops⟩ := h
    obtain ⟨row, hrow, hS₁, hframe⟩ := land_spec (hsoft op List.mem_cons_self) hop
    intro op' hop' hcr
    rcases List.mem_cons.mp hop' with rfl | hmem
    · rintro rfl
      rw [hk] at hrow
      exact landRow_creates hcr hrow
    · have hfull : ∃ r', S₁.get k = some r' := by
        by_cases hk' : k = op.key
        · exact ⟨row, hk' ▸ hS₁⟩
        · exact ⟨r, (hframe k hk').trans hk⟩
      obtain ⟨r', hr'⟩ := hfull
      exact ih hops (fun o ho ↦ hsoft o (List.mem_cons_of_mem _ ho)) hr' op' hmem hcr

variable {live : Bool}

/-- An update in order leaves the endpoints where they are. -/
theorem Op.InOrder.keeps {op : Op} {S : CurrentState} (h : op.InOrder S) {u : UpdateOp}
    {r : Record} (hop : op = .update u) (hr : S.get op.key = some r) :
    (Applier.canonical live).Keeps u.patch r := by
  subst hop
  unfold Applier.Keeps
  split
  next p l hp =>
    have hl : S.edges u.targetId = some l := by
      simpa [Op.key, hp, UpdatePatch.substrate, CurrentState.get] using hr
    exact EdgeRelation.canonicalEndpoints_of_le ((h u p l rfl hp hl).symm.imp_left And.right)
  next => trivial

/-- So does its inverse, which finds the same endpoints and writes the earlier relation. -/
theorem Op.InOrder.keeps_inverse {op : Op} {S : CurrentState} (h : op.InOrder S)
    {u u' : UpdateOp} {r t' : Record} {st : Stamp} (hop : op = .update u)
    (hr : S.get op.key = some r) (hcheck : checkUpdate u r = .ok ())
    (hpatch : u'.patch = u.preimage)
    (halike : (r.patched (.canonical live) st u.patch).Alike t') :
    (Applier.canonical live).Keeps u'.patch t' := by
  have hkeep : (Applier.canonical live).Keeps u.patch r := h.keeps hop hr
  have hback := alike_undo st hcheck hkeep
  subst hop
  cases hq : u.preimage with
  | entity pre =>
    rw [hpatch, hq]
    trivial
  | note pre =>
    rw [hpatch, hq]
    trivial
  | edge pre =>
    have hsub := u.preimage_substrate
    cases hp : u.patch <;> simp only [hp, hq, UpdatePatch.substrate, reduceCtorEq] at hsub
    rename_i p
    have hrsub := CurrentState.get_substrate hr
    cases r <;> simp only [Op.key, hp, UpdatePatch.substrate, Record.substrate,
      reduceCtorEq] at hrsub
    rename_i l
    have hl : S.edges u.targetId = some l := by
      simpa [Op.key, hp, UpdatePatch.substrate, CurrentState.get] using hr
    rw [hp] at halike hback
    rw [hq] at hback
    cases halike with
    | edge halike =>
    cases hback with
    | edge hback =>
    rename_i l'
    -- only an edge has endpoints that an update may turn round
    have hrel : pre.relation.getD l'.relation = l.relation := by
      rw [← halike.relation]
      exact hback.relation.symm
    have hsource : l'.source = l.source := by
      rw [← halike.source]
      exact hback.source.symm
    have htarget : l'.target = l.target := by
      rw [← halike.target]
      exact hback.target.symm
    rw [hpatch, hq]
    simp only [Applier.Keeps, Applier.canonical, hrel, hsource, htarget]
    exact EdgeRelation.canonicalEndpoints_of_le ((h u p l rfl hp hl).symm.imp_left And.left)

/-- **The run back**: when every edge update is in order, the inverses land on the final state and
bring the first one back. -/
theorem invertFrom_restores {ops invs : List Op} {index : ℕ} {S S₁ : CurrentState} {s : Rewind}
    {clock : ℕ → Stamp} (hland : landAll (.canonical live) clock ops S = .ok S₁)
    (hinv : invertFrom index ops ⟨S₁, []⟩ = .ok (invs, s))
    (hord : InOrderRun (.canonical live) clock ops S) (clock' : ℕ → Stamp) :
    ∃ T, landAll (.canonical live) clock' invs S₁ = .ok T ∧ Sim s T ∧ Restored S ops T := by
  induction ops generalizing index invs S s clock with
  | nil =>
    cases hland
    cases hinv
    refine ⟨S₁, rfl, .initial S₁, fun k r hr ↦ ⟨r, hr, .refl r, rfl, rfl⟩, ?_, fun _ _ ↦ rfl⟩
    simp
  | cons op ops ih =>
    simp only [landAll, bind_eq_ok] at hland
    obtain ⟨S', hop, hops⟩ := hland
    obtain ⟨invs', s', inv, hrest, hundo, rfl⟩ := invertFrom_cons hinv
    obtain ⟨hord₀, hord⟩ := hord
    obtain ⟨T', hT', hsim, hback⟩ := ih hops hrest (hord S' hop)
    obtain ⟨r', hr', hS', -⟩ := land_spec hundo.soft hop
    obtain ⟨t', ht', halike, hdel, -⟩ := hback.kept _ _ hS'
    -- what the inverse asks of its row holds, since the forward update asked the same of `r`
    have hgrant : Granted (.canonical live) inv T' := by
      intro u' t hu' ht
      rw [hundo.key, ht'] at ht
      cases ht
      subst hu'
      cases hundo with
      | @rewrite u _ w hw hid hpatch hpre hcheck =>
        cases hr : S.get (Op.update u).key with
        | none =>
          rw [hr] at hr'
          simp [landRow] at hr'
        | some r =>
          rw [hr] at hr'
          obtain ⟨hcheck, hlive, rfl⟩ := landRow_update_inv hr'
          refine ⟨fun hl ↦ ?_, hord₀.keeps_inverse rfl hr hcheck hpatch halike⟩
          rw [hdel, Record.isDeleted, patched_deletedAt]
          exact hlive hl
    obtain ⟨T, hT, hsim'⟩ := hundo.land (clock' invs'.length) hsim hgrant
    refine ⟨T, landAll_append hT' ?_, hsim', ?_⟩
    · simp only [landAll, bind_eq_ok, Nat.zero_add]
      exact ⟨T, hT, rfl⟩
    · exact hback.step hundo hundo.soft hop hT (fun u r hu hr ↦ hord₀.keeps hu hr)
        (fun u t hu ht ↦ (hgrant u t hu ht).keeps)
        (landAll_fresh hops (fun o ho ↦ invertFrom_soft hrest o ho) hS')

/-! ## Endpoints drift one way

Landings can sort the endpoints of an edge. Nothing unsorts them. -/

/-- From `l` to `l'` the endpoints stayed, or reversed endpoints were sorted. -/
def Drift (l l' : Link) : Prop :=
  (l'.source = l.source ∧ l'.target = l.target) ∨
    (l.target < l.source ∧ l'.source = l.target ∧ l'.target = l.source)

namespace Drift

protected theorem refl (l : Link) : Drift l l := Or.inl ⟨rfl, rfl⟩

theorem trans {l m n : Link} (h₁ : Drift l m) (h₂ : Drift m n) : Drift l n := by
  rcases h₁ with ⟨hs, ht⟩ | ⟨hlt, hs, ht⟩
  · rcases h₂ with ⟨hs', ht'⟩ | ⟨hlt', hs', ht'⟩
    · exact Or.inl ⟨hs'.trans hs, ht'.trans ht⟩
    · exact Or.inr ⟨hs ▸ ht ▸ hlt', hs'.trans ht, ht'.trans hs⟩
  · rcases h₂ with ⟨hs', ht'⟩ | ⟨hlt', hs', ht'⟩
    · exact Or.inr ⟨hlt, hs'.trans hs, ht'.trans ht⟩
    · rw [hs, ht] at hlt'
      exact absurd hlt' (lt_asymm hlt)

/-- Endpoints that come back were there all along. -/
theorem squeeze {l m n : Link} (h₁ : Drift l m) (h₂ : Drift m n)
    (hback : n.source = l.source ∧ n.target = l.target) :
    m.source = l.source ∧ m.target = l.target := by
  rcases h₁ with h | ⟨hlt, hs, ht⟩
  · exact h
  · rcases h₂ with ⟨hs', ht'⟩ | ⟨hlt', hs', ht'⟩
    · have : l.source = l.target := by rw [← hback.1, hs', hs]
      exact absurd hlt (by rw [this]; exact lt_irrefl _)
    · rw [hs, ht] at hlt'
      exact absurd hlt' (lt_asymm hlt)

end Drift

/-- The canonical applier settles endpoints by a drift. -/
private theorem settle_drift {l l' : Link} {r : EdgeRelation}
    (hs : l'.source = (r.canonicalEndpoints l.source l.target).1)
    (ht : l'.target = (r.canonicalEndpoints l.source l.target).2) : Drift l l' := by
  unfold EdgeRelation.canonicalEndpoints at hs ht
  by_cases h : (r.isSymmetric && decide (l.target < l.source)) = true
  · rw [if_pos h] at hs ht
    rw [Bool.and_eq_true, decide_eq_true_eq] at h
    exact Or.inr ⟨h.2, hs, ht⟩
  · rw [if_neg h] at hs ht
    exact Or.inl ⟨hs, ht⟩

theorem landRow_drift {st : Stamp} {op : Op} {l : Link} {r' : Record}
    (h : landRow (.canonical live) st op (some (.edge l)) = .ok r') :
    ∃ l', r' = .edge l' ∧ Drift l l' := by
  cases op with
  | create c => exact absurd h (landRow_creates rfl)
  | link k => exact absurd h (landRow_creates rfl)
  | update u =>
    obtain ⟨-, -, rfl⟩ := landRow_update_inv h
    cases hp : u.patch with
    | edge p => exact ⟨_, rfl, settle_drift rfl rfl⟩
    | _ => exact ⟨l, rfl, .refl l⟩
  | delete d =>
    obtain ⟨-, rfl⟩ := landRow_delete_inv h
    exact ⟨_, rfl, Or.inl ⟨rfl, rfl⟩⟩
  | restore o =>
    obtain ⟨-, -, -, rfl⟩ := landRow_restore_inv h
    exact ⟨_, rfl, Or.inl ⟨rfl, rfl⟩⟩
  | merge m => simp [landRow] at h

theorem get_edge {S : CurrentState} {e : Id128} {l : Link} :
    S.get (.edge, e) = some (.edge l) ↔ S.edges e = some l := by
  simp [CurrentState.get]

theorem land_drift {st : Stamp} {op : Op} {S S' : CurrentState} {e : Id128} {l : Link}
    (hsoft : op.isHard = false) (h : land (.canonical live) st op S = .ok S')
    (hl : S.edges e = some l) : ∃ l', S'.edges e = some l' ∧ Drift l l' := by
  rw [← get_edge] at hl
  obtain ⟨row, hrow, hS', hframe⟩ := land_spec hsoft h
  by_cases hk : (Substrate.edge, e) = op.key
  · rw [← hk, hl] at hrow
    obtain ⟨l', rfl, hdrift⟩ := landRow_drift hrow
    exact ⟨l', get_edge.mp (hk ▸ hS'), hdrift⟩
  · exact ⟨l, get_edge.mp ((hframe _ hk).trans hl), .refl l⟩

theorem landAll_drift {clock : ℕ → Stamp} {ops : List Op} {S S' : CurrentState} {e : Id128}
    {l : Link} (hsoft : ∀ op ∈ ops, op.isHard = false)
    (h : landAll (.canonical live) clock ops S = .ok S') (hl : S.edges e = some l) :
    ∃ l', S'.edges e = some l' ∧ Drift l l' := by
  induction ops generalizing clock S l with
  | nil =>
    cases h
    exact ⟨l, hl, .refl l⟩
  | cons op ops ih =>
    simp only [landAll, bind_eq_ok] at h
    obtain ⟨S₁, hop, hops⟩ := h
    obtain ⟨l₁, hl₁, hd₁⟩ := land_drift (hsoft op List.mem_cons_self) hop hl
    obtain ⟨l', hl', hd⟩ := ih (fun o ho ↦ hsoft o (List.mem_cons_of_mem _ ho)) hops hl₁
    exact ⟨l', hl', hd₁.trans hd⟩

theorem invertFrom_invs_soft {index : ℕ} {ops invs : List Op} {s₀ s : Rewind}
    (h : invertFrom index ops s₀ = .ok (invs, s)) : ∀ inv ∈ invs, inv.isHard = false := by
  induction ops generalizing index invs s with
  | nil =>
    cases h
    simp
  | cons op ops ih =>
    obtain ⟨invs', s', inv, hrest, hundo, rfl⟩ := invertFrom_cons h
    intro inv' hinv'
    rcases List.mem_append.mp hinv' with hmem | hmem
    · exact ih hrest inv' hmem
    · rw [List.mem_singleton.mp hmem]
      exact hundo.isHard

private theorem overwrite_endpoints {patch : UpdatePatch} {r : Record} {w : Link}
    (h : patch.overwrite r = .edge w) :
    ∃ l, r = .edge l ∧ w.source = l.source ∧ w.target = l.target := by
  cases patch <;> cases r <;> cases h <;> exact ⟨_, rfl, rfl, rfl⟩

/-- The walk keeps every edge's endpoints as it found them. -/
theorem invertFrom_endpoints {index : ℕ} {ops invs : List Op} {S : CurrentState} {s : Rewind}
    (h : invertFrom index ops ⟨S, []⟩ = .ok (invs, s)) {e : Id128} {w : Link}
    (hw : s.working.edges e = some w) :
    ∃ l, S.edges e = some l ∧ w.source = l.source ∧ w.target = l.target := by
  induction ops generalizing index invs s w with
  | nil =>
    cases h
    exact ⟨w, hw, rfl, rfl⟩
  | cons op ops ih =>
    obtain ⟨invs', s', inv, hrest, hundo, rfl⟩ := invertFrom_cons h
    rw [← get_edge] at hw
    cases hundo with
    | vanish =>
      rw [CurrentState.get_remove] at hw
      split at hw
      · cases hw
      · exact ih hrest (get_edge.mp hw)
    | @rewrite u u' w' hw' hid hpatch hpre hcheck =>
      rw [CurrentState.get_insert] at hw
      split at hw
      next hk =>
        obtain ⟨l', rfl, hs, ht⟩ := overwrite_endpoints (Option.some.inj hw)
        have hkey : (Op.update u).key = (.edge, e) := by
          rw [hk, overwrite_substrate, CurrentState.get_substrate hw']
          rfl
        obtain ⟨l, hl, hs', ht'⟩ := ih hrest (get_edge.mp (hkey ▸ hw'))
        exact ⟨l, hl, hs.trans hs', ht.trans ht'⟩
      next => exact ih hrest (get_edge.mp hw)
    | @revive d r w' hsoft hw' hid hrecord hwid hcontent hdead =>
      rw [CurrentState.get_insert] at hw
      split at hw
      next hk =>
        have hpid : d.preimage.recordId = d.targetId := by rw [← hrecord, r.record_spec.1, hid]
        have halike := alike_of_content (hwid.trans hpid.symm) hcontent
        have hkey : (Op.delete d).key = (.edge, e) := hk.symm
        rw [Option.some.inj hw] at halike
        cases halike with
        | edge halike =>
          obtain ⟨l, hl, hs', ht'⟩ := ih hrest (get_edge.mp (hkey ▸ hw'))
          exact ⟨l, hl, halike.source.trans hs', halike.target.trans ht'⟩
      next => exact ih hrest (get_edge.mp hw)
    | bury => exact ih hrest (get_edge.mp hw)

/-! ## Out of order means not restored -/

/-- Where the edge `e` stands at some point of the forward run, seen from the end `S₁` of that run
and the end `T` of the inverse: either its endpoints are back in `T`, or it is an edge of the
run's own making, canonical when symmetric and with its endpoints still in place in `S₁`. -/
def Accounted (S₁ T : CurrentState) (e : Id128) (l : Link) : Prop :=
  (∃ n, T.edges e = some n ∧ n.source = l.source ∧ n.target = l.target) ∨
    ((l.relation.isSymmetric = true → l.source ≤ l.target) ∧
      ∃ n, S₁.edges e = some n ∧ n.source = l.source ∧ n.target = l.target)

private theorem patched_edge (live : Bool) (st : Stamp) (p : EdgePatch) (l : Link) :
    ∃ l', (Record.edge l).patched (.canonical live) st (.edge p) = .edge l' ∧
      l'.relation = p.relation.getD l.relation ∧
      (l'.source, l'.target) = l'.relation.canonicalEndpoints l.source l.target :=
  ⟨_, rfl, rfl, rfl⟩

/-- An update away from a symmetric relation has captured that relation. -/
private theorem preimage_relation {u : UpdateOp} {p : EdgePatch} {l : Link}
    (hp : u.patch = .edge p) (hcheck : checkUpdate u (.edge l) = .ok ())
    (hold : l.relation.isSymmetric = true)
    (hnew : (p.relation.getD l.relation).isSymmetric = false) :
    ∃ pre, u.preimage = .edge pre ∧ pre.relation = some l.relation := by
  have hcong := u.congruent
  unfold checkUpdate at hcheck
  cases hq : u.preimage <;>
    simp only [hp, hq, validateUpdateCongruence, reduceCtorEq, seq_eq_ok, checkTouched_eq_ok,
      touched_eq_ok, equal_eq_ok] at hcheck hcong
  rename_i pre
  refine ⟨pre, rfl, ?_⟩
  obtain ⟨-, hrel, -⟩ := hcheck
  cases hpr : p.relation with
  | none =>
    rw [hpr, Option.getD_none, hold] at hnew
    cases hnew
  | some v =>
    obtain ⟨v', hv'⟩ := Option.isSome_iff_exists.mp (hcong.1 ▸ (by simp [hpr] : p.relation.isSome))
    rw [hv', eq_of_beq (hrel v' hv')]

/-- The head of the run is in order when every edge it finds is accounted for. -/
private theorem inOrder_head {st st' : Stamp} {s s' : Rewind} {op inv : Op} {rest invs : List Op}
    {clock clock' : ℕ → Stamp} {S S' S₁ T' T : CurrentState} (hundo : Undo s op inv s')
    (hop : land (.canonical live) st op S = .ok S')
    (hrest : landAll (.canonical live) clock rest S' = .ok S₁)
    (hsoft : ∀ o ∈ rest, o.isHard = false)
    (hinvs : landAll (.canonical live) clock' invs S₁ = .ok T')
    (hsoft' : ∀ o ∈ invs, o.isHard = false)
    (hinv : land (.canonical live) st' inv T' = .ok T)
    (hacc : ∀ e l, S.edges e = some l → Accounted S₁ T e l) : op.InOrder S := by
  rintro u p l rfl hp hl
  by_contra hcon
  rw [not_or, not_le] at hcon
  obtain ⟨hlt, hsym⟩ := hcon
  have hkey : (Op.update u).key = (.edge, u.targetId) := by rw [Op.key, hp]; rfl
  obtain ⟨row, hrow, hS', -⟩ := land_spec rfl hop
  rw [hkey, get_edge.mpr hl] at hrow
  obtain ⟨hcheck, -, rfl⟩ := landRow_update_inv hrow
  rw [hp] at hS'
  obtain ⟨l', hl'eq, hrel, hends⟩ := patched_edge live st p l
  rw [hl'eq, hkey, get_edge] at hS'
  obtain ⟨l₁, hl₁, hd₁⟩ := landAll_drift hsoft hrest hS'
  obtain ⟨m, hm, hd₂⟩ := landAll_drift hsoft' hinvs hl₁
  obtain ⟨n, hn, hd₃⟩ := land_drift hundo.isHard hinv hm
  by_cases hnew : l'.relation.isSymmetric = true
  · -- sorted on the way there, and for good
    rw [EdgeRelation.canonicalEndpoints_of_lt hnew hlt, Prod.mk.injEq] at hends
    have hstay : ∀ n, Drift l' n → ¬(n.source = l.source ∧ n.target = l.target) := by
      rintro n (⟨hs, ht⟩ | ⟨hlt', -, -⟩) ⟨hs', -⟩
      · rw [hs, hends.1] at hs'
        exact absurd hlt (hs' ▸ lt_irrefl _)
      · rw [hends.1, hends.2] at hlt'
        exact absurd hlt' (lt_asymm hlt)
    rcases hacc _ l hl with ⟨n', hn', hback⟩ | ⟨-, n', hn', hback⟩
    · rw [hn] at hn'
      cases hn'
      exact hstay n ((hd₁.trans hd₂).trans hd₃) hback
    · rw [hl₁] at hn'
      cases hn'
      exact hstay l₁ hd₁ hback
  · -- the relation it found was symmetric, and the inverse writes it back
    rw [Bool.not_eq_true, hrel] at hnew
    have hold : l.relation.isSymmetric = true := by
      by_contra hold
      exact hsym ⟨by simpa using hold, hnew⟩
    rcases hacc _ l hl with ⟨n', hn', hback⟩ | ⟨hle, -⟩
    · rw [hn] at hn'
      cases hn'
      cases hundo with
      | vanish hcr => simp [Op.creates] at hcr
      | @rewrite _ u' w hw hid hpatch hpre hcheck' =>
        obtain ⟨pre, hpre', hwritten⟩ := preimage_relation hp hcheck hold hnew
        have hkey' : (Op.update u').key = (.edge, u.targetId) := by
          rw [Op.key, hid, hpatch, hpre']
          rfl
        obtain ⟨row, hrow, hT, -⟩ := land_spec rfl hinv
        rw [hkey', get_edge.mpr hm] at hrow
        obtain ⟨-, -, rfl⟩ := landRow_update_inv hrow
        obtain ⟨n', hn'eq, hrel', hends'⟩ := patched_edge live st' pre m
        rw [hpatch, hpre', hn'eq, hkey', get_edge, hn] at hT
        cases hT
        rw [hwritten] at hrel'
        have hle := EdgeRelation.canonicalEndpoints_le (s := m.source) (t := m.target) hold
        rw [hrel', Option.getD_some] at hends'
        rw [← hends', hback.1, hback.2] at hle
        exact absurd hle (not_le.mpr hlt)
    · exact absurd (hle hold) (not_le.mpr hlt)

/-- Landings keep symmetric edges canonical. -/
private theorem landRow_sorted {st : Stamp} {op : Op} {l l' : Link}
    (h : landRow (.canonical live) st op (some (.edge l)) = .ok (.edge l'))
    (hsorted : l.relation.isSymmetric = true → l.source ≤ l.target) :
    l'.relation.isSymmetric = true → l'.source ≤ l'.target := by
  cases op with
  | create c => exact absurd h (landRow_creates rfl)
  | link k => exact absurd h (landRow_creates rfl)
  | update u =>
    obtain ⟨-, -, hl'⟩ := landRow_update_inv h
    cases hp : u.patch with
    | edge p =>
      rw [hp] at hl'
      cases hl'
      exact fun hsym ↦ EdgeRelation.canonicalEndpoints_le hsym
    | _ =>
      rw [hp] at hl'
      cases hl'
      exact hsorted
  | delete d =>
    obtain ⟨-, hl'⟩ := landRow_delete_inv h
    cases hl'
    exact hsorted
  | restore o =>
    obtain ⟨-, -, -, hl'⟩ := landRow_restore_inv h
    cases hl'
    exact hsorted
  | merge m => simp [landRow] at h

/-- An edge that appears is one the operation links. -/
private theorem land_new_edge {a : Applier} {st : Stamp} {op : Op} {S S' : CurrentState}
    {e : Id128} {l' : Link} (hsoft : op.isHard = false) (h : land a st op S = .ok S')
    (hnone : S.edges e = none) (hl' : S'.edges e = some l') :
    ∃ k, op = .link k ∧ k.id = e ∧ l' = k.draft a st := by
  have hget : S.get (.edge, e) = none := by simp [CurrentState.get, hnone]
  obtain ⟨row, hrow, hS', hframe⟩ := land_spec hsoft h
  rw [← get_edge] at hl'
  by_cases hk : (Substrate.edge, e) = op.key
  · rw [← hk, hget] at hrow
    rw [← hk, hl'] at hS'
    cases hS'
    cases op with
    | create c =>
      have hsub := CreateOp.record_substrate c st
      rw [show c.key = (.edge, e) from hk.symm] at hsub
      cases ht : c.target <;> simp [CreateOp.record, ht, Record.substrate] at hsub
    | link k =>
      cases hrow
      exact ⟨k, rfl, (congrArg Prod.snd hk).symm, rfl⟩
    | _ => simp [landRow] at hrow
  · rw [hframe _ hk, hget] at hl'
    cases hl'

/-- The endpoints an inversion has checked against a link are those the link landed with. -/
private theorem link_endpoints {st : Stamp} {k : LinkOp} {l₁ : Link}
    (hd : Drift (k.draft (.canonical live) st) l₁) (hs : l₁.source = k.source)
    (ht : l₁.target = k.target) :
    l₁.source = (k.draft (.canonical live) st).source ∧
      l₁.target = (k.draft (.canonical live) st).target := by
  rcases hd with h | ⟨hlt, hs', ht'⟩
  · exact h
  · have hnsym : k.relation.isSymmetric = false := by
      by_contra hsym
      exact absurd hlt (not_lt.mpr (EdgeRelation.canonicalEndpoints_le (by simpa using hsym)))
    have hdraft : k.relation.canonicalEndpoints k.source k.target = (k.source, k.target) :=
      EdgeRelation.canonicalEndpoints_of_le (Or.inl hnsym)
    simp only [LinkOp.draft, Applier.canonical, hdraft] at hlt hs' ht' ⊢
    exact ⟨hs, ht⟩

/-- **Out of order means not restored**: if every edge of the first state is accounted for, every
edge update of the run was in order. -/
theorem inOrderRun_of_accounted {ops invs : List Op} {index : ℕ} {S S₁ T : CurrentState}
    {s : Rewind} {clock clock' : ℕ → Stamp}
    (hland : landAll (.canonical live) clock ops S = .ok S₁)
    (hinv : invertFrom index ops ⟨S₁, []⟩ = .ok (invs, s))
    (hback : landAll (.canonical live) clock' invs S₁ = .ok T)
    (hacc : ∀ e l, S.edges e = some l → Accounted S₁ T e l) :
    InOrderRun (.canonical live) clock ops S := by
  induction ops generalizing index invs S s clock T with
  | nil => trivial
  | cons op ops ih =>
    simp only [landAll, bind_eq_ok] at hland
    obtain ⟨S', hop, hops⟩ := hland
    obtain ⟨invs', s', inv, hrest, hundo, rfl⟩ := invertFrom_cons hinv
    obtain ⟨T', hT', hlast⟩ := landAll_append_inv hback
    simp only [landAll, bind_eq_ok] at hlast
    obtain ⟨T₀, hlast, hT₀⟩ := hlast
    cases hT₀
    have hsoft := invertFrom_soft hrest
    have hsoft' := invertFrom_invs_soft hrest
    refine ⟨inOrder_head hundo hop hops hsoft hT' hsoft' hlast hacc, fun S'' hS'' ↦ ?_⟩
    rw [hop] at hS''
    cases hS''
    refine ih hops hrest hT' fun e l' hl' ↦ ?_
    obtain ⟨l₁, hl₁, hd₁⟩ := landAll_drift hsoft hops hl'
    obtain ⟨m, hm, hd₂⟩ := landAll_drift hsoft' hT' hl₁
    obtain ⟨n, hn, hd₃⟩ := land_drift hundo.isHard hlast hm
    cases hl : S.edges e with
    | some l =>
      obtain ⟨l'', hl'', hd⟩ := land_drift hundo.soft hop hl
      rw [hl'] at hl''
      cases hl''
      rcases hacc e l hl with ⟨n', hn', hends⟩ | ⟨hsorted, n', hn', hends⟩
      · -- back in `T`, so in place at every point between
        rw [hn] at hn'
        cases hn'
        obtain ⟨hs, ht⟩ := hd.squeeze ((hd₁.trans hd₂).trans hd₃) hends
        obtain ⟨hs', ht'⟩ := ((hd.trans hd₁).trans hd₂).squeeze hd₃ hends
        exact Or.inl ⟨m, hm, hs'.trans hs.symm, ht'.trans ht.symm⟩
      · rw [hl₁] at hn'
        cases hn'
        obtain ⟨hs, ht⟩ := hd.squeeze hd₁ hends
        refine Or.inr ⟨?_, l₁, hl₁, hends.1.trans hs.symm, hends.2.trans ht.symm⟩
        obtain ⟨row, hrow, hS', hframe⟩ := land_spec hundo.soft hop
        by_cases hk : (Substrate.edge, e) = op.key
        · rw [← hk, get_edge.mpr hl] at hrow
          rw [← hk, get_edge.mpr hl'] at hS'
          cases hS'
          exact landRow_sorted hrow hsorted
        · have hsame := hframe _ hk
          rw [get_edge.mpr hl, get_edge.mpr hl'] at hsame
          cases hsame
          exact hsorted
    | none =>
      -- the edge is this operation's own, and the walk compared its endpoints with the link's
      obtain ⟨k, rfl, rfl, rfl⟩ := land_new_edge hundo.soft hop hl hl'
      refine Or.inr ⟨fun hsym ↦ EdgeRelation.canonicalEndpoints_le hsym, l₁, hl₁, ?_⟩
      cases hundo with
      | @vanish _ w hcr hw hflag hlive hself hends =>
        have hsub := CurrentState.get_substrate hw
        cases w <;> simp only [Record.substrate, Op.key, reduceCtorEq] at hsub
        rename_i row
        obtain ⟨hs, ht⟩ := hends k row rfl rfl
        obtain ⟨l₁', hl₁', hs', ht'⟩ := invertFrom_endpoints hrest (get_edge.mp hw)
        rw [hl₁] at hl₁'
        cases hl₁'
        exact link_endpoints hd₁ (hs'.symm.trans hs) (ht'.symm.trans ht)

/-! ## Exactly when an inverse restores -/

/-- **Restoration**: landing a change-set canonically and then the inverse staged against the
outcome brings every record back, exactly when no edge update of the forward run meets reversed
endpoints under a symmetric relation. -/
theorem invert_restores_iff (live : Bool) (changeset inverse : ChangeSet) (envelope : Envelope)
    (S₀ S₁ : CurrentState) (clock clock' : ℕ → Stamp)
    (hland : landAll (.canonical live) clock changeset.ops S₀ = .ok S₁)
    (hinv : changeset.invert envelope S₁ = .ok inverse) :
    (∃ T, landAll (.canonical live) clock' inverse.ops S₁ = .ok T ∧
        Restored S₀ changeset.ops T) ↔
      InOrderRun (.canonical live) clock changeset.ops S₀ := by
  simp only [ChangeSet.invert, bind_eq_ok, exists_check, guardOr_eq_ok, pure_eq_ok,
    Prod.exists] at hinv
  obtain ⟨-, invs, s, hwalk, rfl⟩ := hinv
  constructor
  · rintro ⟨T, hT, hrest⟩
    refine inOrderRun_of_accounted hland hwalk hT fun e l hl ↦ Or.inl ?_
    obtain ⟨t, ht, halike, -⟩ := hrest.kept (.edge, e) (.edge l) (get_edge.mpr hl)
    cases halike with
    | edge h => exact ⟨_, get_edge.mp ht, h.source.symm, h.target.symm⟩
  · intro hord
    obtain ⟨T, hT, -, hrest⟩ := invertFrom_restores hland hwalk hord clock'
    exact ⟨T, hT, hrest⟩

/-! One relation update, from `extends` to `competes_with`, on an edge between two concepts. -/

private def twoConcepts (source target : Id128) : CurrentState where
  entities := fun id ↦
    if id = 1 ∨ id = 2 then
      some ⟨⟨id, ⟨"local"⟩, 11, 11⟩, .concept, none, "concept", none, [], [], none⟩
    else none
  notes := fun _ ↦ none
  edges := fun id ↦
    if id = 3 then
      some ⟨3, "local", source, target, .extends, [], Binary64.one, 12, 12, none⟩
    else none

private def nowCompeting : ChangeSet where
  envelope := ⟨2, "agent:test", "family:test", 1, none⟩
  ops := [.update ⟨3, .edge ⟨some .competesWith, none⟩, .edge ⟨some .extends, none⟩, rfl⟩]

/-- With the endpoints in order, the update is undone. -/
theorem invert_restores_iff_ordered :
    ∃ S₁ inverse, landAll (.canonical true) (fun _ ↦ ⟨20, fun _ ↦ 21⟩) nowCompeting.ops
        (twoConcepts 1 2) = .ok S₁ ∧
      nowCompeting.invert ⟨2, "agent:test", "family:test", 2, none⟩ S₁ = .ok inverse ∧
      ∃ T, landAll (.canonical true) (fun _ ↦ ⟨30, fun _ ↦ 31⟩) inverse.ops S₁ = .ok T ∧
        Restored (twoConcepts 1 2) nowCompeting.ops T := by
  obtain ⟨S₁, hS₁⟩ : ∃ S₁, landAll (.canonical true) (fun _ ↦ ⟨20, fun _ ↦ 21⟩) nowCompeting.ops
    (twoConcepts 1 2) = .ok S₁ := ⟨_, rfl⟩
  obtain ⟨inverse, hinv⟩ : ∃ inverse,
      nowCompeting.invert ⟨2, "agent:test", "family:test", 2, none⟩ S₁ = .ok inverse := by
    cases hS₁
    exact ⟨_, rfl⟩
  refine ⟨S₁, inverse, hS₁, hinv, ?_⟩
  refine (invert_restores_iff true nowCompeting inverse _ _ S₁ _ _ hS₁ hinv).mpr ⟨?_, ?_⟩
  · intro u p l hu _ hl
    cases hu
    cases hl
    exact Or.inl (by decide)
  · intro S' _
    trivial

/-- With the endpoints reversed, the edge comes back pointing the other way. -/
theorem invert_not_restoring :
    ∃ S₁ inverse, landAll (.canonical true) (fun _ ↦ ⟨20, fun _ ↦ 21⟩) nowCompeting.ops
        (twoConcepts 2 1) = .ok S₁ ∧
      nowCompeting.invert ⟨2, "agent:test", "family:test", 2, none⟩ S₁ = .ok inverse ∧
      ∀ T, landAll (.canonical true) (fun _ ↦ ⟨30, fun _ ↦ 31⟩) inverse.ops S₁ = .ok T →
        ¬Restored (twoConcepts 2 1) nowCompeting.ops T := by
  refine ⟨_, _, rfl, rfl, fun T hT hrest ↦ ?_⟩
  have hedge : ∃ l, T.edges 3 = some l ∧ l.source = 1 := by
    cases hT
    exact ⟨_, rfl, rfl⟩
  obtain ⟨l, hl, hsource⟩ := hedge
  obtain ⟨t, ht, halike, -⟩ := hrest.kept (.edge, 3) _ rfl
  rw [get_edge.mpr hl] at ht
  cases ht
  cases halike with
  | edge h => exact absurd (h.source.trans hsource) (by decide)

end Khive
