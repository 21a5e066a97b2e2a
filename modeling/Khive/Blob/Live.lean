import Khive.Blob.Sweep

/-!
# A live upload is never swept

Between sweeps the number of renewals of a lease only grows, and grows with every append and
renewal that succeeds. So an observation that still matches the lease was made behind the last of
them: this is `Witnessed`, kept by every step of a run. The ids that uploads are begun under have to
be new, or the observation of one upload might be taken for that of another.
-/

namespace Khive.Blob

open Attempt

variable {s s' : Store} {id j : UploadId} {wall : ℤ} {monotonic : ℕ} {request : Request}

/-! ## Steps of a run -/

/-- The ids a step draws to begin an upload. -/
def Request.drawn : Request → List UploadId
  | .begin _ _ draws _ => draws
  | _ => []

/-- The step appends to the upload or renews it. -/
def Request.IsRenewal (id : UploadId) : Request → Prop
  | .append target _ _ => target = id
  | .renew target _ => target = id
  | _ => False

/-- The step appends to the upload or renews it, and succeeds. -/
def Renewed (id : UploadId) (request : Request) (s : Store) : Prop :=
  request.IsRenewal id ∧ (request.perform s).1 = .ok ()

/-- A sweep that gets a listing of the upload directory. -/
structure Passes (host : Host) (s : Store) : Prop where
  opened : host.fails .directory = false
  present : s.hasDirectory = true
  listed : host.fails .names = false

/-- The step is a sweep, and sees a lease of this owner and number of renewals. -/
def Observes (id : UploadId) (owner : Uuid) (renewSeq : UInt64) (since : ℕ) (request : Request)
    (s : Store) : Prop :=
  ∃ wall listing host lease, request = .sweep wall since listing host ∧ Passes host s ∧
    Sees listing s id lease ∧ lease.owner = owner ∧ lease.renewSeq = renewSeq

/-- No append or renewal of the upload succeeds among the steps behind `before`. -/
def NoRenewal (start : Store) (before later : List Request) (id : UploadId) : Prop :=
  ∀ l₁ request l₂, later = l₁ ++ request :: l₂ →
    ¬Renewed id request (start.after (before ++ l₁))

/-- The ids drawn are new: none is drawn twice, or that of an upload staged before. -/
structure Fresh (start : Store) (steps : List Request) : Prop where
  nodup : (steps.flatMap Request.drawn).Nodup
  new : ∀ id ∈ steps.flatMap Request.drawn, start.staged.get id = none

theorem Store.after_append (s : Store) (steps : List Request) (request : Request) :
    s.after (steps ++ [request]) = (request.perform (s.after steps)).2 := by
  rw [Store.after, List.foldl_append, List.foldl_cons, List.foldl_nil, Store.after]

theorem NoRenewal.append {start : Store} {before later : List Request}
    (h : NoRenewal start before later id)
    (hlast : ¬Renewed id request (start.after (before ++ later))) :
    NoRenewal start before (later ++ [request]) id := by
  intro l₁ renewal l₂ heq
  rcases List.eq_nil_or_concat l₂ with rfl | ⟨l₂, last, rfl⟩
  · obtain ⟨rfl, hcons⟩ := List.append_inj' heq rfl
    obtain rfl := (List.cons.inj hcons).1
    exact hlast
  · rw [List.concat_eq_append, ← List.cons_append, ← List.append_assoc] at heq
    obtain ⟨rfl, -⟩ := List.append_inj' heq rfl
    exact h l₁ renewal l₂ rfl

/-! ## What a step does -/

/-- **Between sweeps** an upload that is not begun advances, and with a renewal that succeeds its
lease is renewed. -/
theorem perform_advances (hsweep : ∀ wall monotonic listing host,
      request ≠ .sweep wall monotonic listing host) (hj : j ∉ request.drawn) :
    Advances j s (request.perform s).2 ∧
      (Renewed j request s → Renews j s (request.perform s).2) := by
  have hresult : ∀ x : Upload Unit,
      Ends x s (fun _ s' ↦ Advances j s s' ∧ (request.IsRenewal j → Renews j s s'))
        (fun _ s' ↦ Advances j s s') →
      Advances j s (x s).2 ∧ (request.IsRenewal j ∧ (x s).1 = .ok () → Renews j s (x s).2) := by
    intro x hends
    unfold Ends at hends
    rcases hx : x s with ⟨e | _, s'⟩
    · rw [hx] at hends
      exact ⟨hends, fun ⟨_, hok⟩ ↦ by cases hok⟩
    · rw [hx] at hends
      exact ⟨hends.1, fun ⟨hrenewal, _⟩ ↦ hends.2 hrenewal⟩
  have hquiet : ∀ x : Upload Unit, (∀ id, ¬request.IsRenewal id) →
      Ends x s (fun _ ↦ Quiet j s) (fun _ ↦ Quiet j s) →
      Ends x s (fun _ s' ↦ Advances j s s' ∧ (request.IsRenewal j → Renews j s s'))
        (fun _ s' ↦ Advances j s s') := by
    intro x hno hends
    exact hends.mono (fun _ _ h ↦ ⟨.inl h, fun hrenewal ↦ absurd hrenewal (hno j)⟩)
      fun _ _ h ↦ .inl h
  apply hresult
  cases request with
  | sweep wall monotonic listing host => exact absurd rfl (hsweep wall monotonic listing host)
  | begin size config draws host =>
    refine hquiet _ (fun _ h ↦ h) (ends_bind.mpr ?_)
    exact ends_beginLeased (.refl j s) ⟨.inl rfl, .inl rfl, fun h ↦ h⟩ (stableFor_quiet hj)
  | append id bytes host =>
    refine ends_bind.mpr ?_
    exact ends_append.mono (fun _ s' h ↦ ⟨h.1, fun hid ↦ h.2 hid.symm⟩) fun _ _ h ↦ h
  | renew id host =>
    exact ends_renew.mono (fun _ s' h ↦ ⟨h.1, fun hid ↦ h.2 hid.symm⟩) fun _ _ h ↦ h
  | commit id contentRef host => exact hquiet _ (fun _ h ↦ h) ends_commit
  | abort id host => exact hquiet _ (fun _ h ↦ h) ends_abort

/-- A begin observes nothing, also of the uploads it begins. -/
theorem observations_begin {size : ℕ} {config : UploadLeaseConfig} {draws : List UploadId}
    {host : Host} (h : s.observations.get j = none) :
    ((Request.begin size config draws host).perform s).2.observations.get j = none := by
  have hends : Ends ((Request.begin size config draws host).perform) s
      (fun _ s' ↦ s'.observations.get j = none) (fun _ s' ↦ s'.observations.get j = none) :=
    ends_bind.mpr (ends_beginLeased h h stableFor_observations)
  exact hends.result (R := fun result : Except StorageError Unit × Store ↦
    result.2.observations.get j = none)

/-- What a sweep leaves: it did nothing, had nothing to observe, or passed over the listing. -/
theorem perform_sweep {P : Store → Prop} {listing : List (EntryName × Host)} {host : Host}
    (hrefused : ¬Passes host s → P s)
    (hmissing : s.hasDirectory ≠ true → P { s with observations := .empty })
    (hpassed : Passes host s → P (sweepEntries wall monotonic listing s).finish.2) :
    P ((Request.sweep wall monotonic listing host).perform s).2 := by
  have hends : Ends ((Request.sweep wall monotonic listing host).perform) s (fun _ ↦ P)
      (fun _ ↦ P) := by
    simp only [Request.perform, sweepAt, call, ends_bind, ends_ite, ends_fail, ends_read, ends_pure,
      ends_write]
    refine ⟨fun hfails ↦ hrefused fun h ↦ ?_, fun hopened ↦ ⟨fun hpresent ↦
      ⟨fun hfails ↦ hrefused fun h ↦ ?_, fun hlisted ↦ ?_⟩, hmissing⟩⟩
    · rw [h.opened] at hfails
      cases hfails
    · rw [h.listed] at hfails
      cases hfails
    · have hfinish := hpassed ⟨by simpa using hopened, hpresent, by simpa using hlisted⟩
      unfold Ends sweepListing
      split
      · next heq =>
        rw [heq] at hfinish
        exact hfinish
      · next heq =>
        rw [heq] at hfinish
        exact hfinish
  exact hends.result (R := fun result : Except StorageError Unit × Store ↦ P result.2)

theorem Sweep.finish_store (sweep : Sweep) :
    sweep.finish.2 = { sweep.store with observations :=
      sweep.store.observations.filterKeys fun id ↦ decide (id ∈ sweep.live) } := by
  rw [Sweep.finish]
  rcases sweep.failure with _ | e <;> rfl

/-! ## Runs -/

/-- What holds after a run for what has been observed: a sweep of the run saw it, and while the
lease is still the one seen, no append or renewal has succeeded since. -/
structure Witnessed (start : Store) (steps : List Request) (s : Store) : Prop where
  observed : ∀ id held, s.observations.get id = some held →
    ∃ earlier seen later, steps = earlier ++ seen :: later ∧
      Observes id held.owner held.renewSeq held.since seen (start.after earlier) ∧
      ∀ lease, s.sidecars.get id = some (.fields lease) →
        held.renewSeq.toNat ≤ lease.renewSeq.toNat ∧
        (lease.renewSeq = held.renewSeq → NoRenewal start (earlier ++ [seen]) later id)
  known : ∀ id, (s.observations.get id).isSome ∨ (s.staged.get id).isSome →
    (start.staged.get id).isSome ∨ id ∈ steps.flatMap Request.drawn

/-- An observation that stays, of a lease that stays or goes or is renewed. -/
theorem Witnessed.observed_append {start : Store} {steps : List Request}
    (h : Witnessed start steps (start.after steps)) {held : Observation}
    (hheld : (start.after steps).observations.get id = some held)
    (hsidecar : (request.perform (start.after steps)).2.sidecars.get id =
        (start.after steps).sidecars.get id ∧ ¬Renewed id request (start.after steps) ∨
      (request.perform (start.after steps)).2.sidecars.get id = none ∨
      Renews id (start.after steps) (request.perform (start.after steps)).2) :
    ∃ earlier seen later, steps ++ [request] = earlier ++ seen :: later ∧
      Observes id held.owner held.renewSeq held.since seen (start.after earlier) ∧
      ∀ lease, (start.after (steps ++ [request])).sidecars.get id = some (.fields lease) →
        held.renewSeq.toNat ≤ lease.renewSeq.toNat ∧
        (lease.renewSeq = held.renewSeq → NoRenewal start (earlier ++ [seen]) later id) := by
  obtain ⟨earlier, seen, later, hsteps, hobserves, hlease⟩ := h.observed id held hheld
  refine ⟨earlier, seen, later ++ [request], by simp [hsteps], hobserves, fun lease' hget ↦ ?_⟩
  rw [Store.after_append] at hget
  rcases hsidecar with ⟨hsame, hnot⟩ | hnone | hrenews
  · obtain ⟨hle, hno⟩ := hlease lease' (hsame ▸ hget)
    refine ⟨hle, fun heq ↦ (hno heq).append ?_⟩
    have hbefore : earlier ++ [seen] ++ later = steps := by simp [hsteps]
    rwa [hbefore]
  · rw [hnone] at hget
    cases hget
  · obtain ⟨lease, lease'', hold, hnew, hseq⟩ := hrenews.sidecar
    obtain rfl : lease'' = lease' := by simpa [hnew] using hget
    have hle := (hlease lease hold).1
    refine ⟨by omega, fun heq ↦ ?_⟩
    rw [heq] at hseq
    omega

theorem not_renewed_sweep {listing : List (EntryName × Host)} {host : Host} :
    ¬Renewed id (.sweep wall monotonic listing host) s := fun h ↦ h.1

/-- A sweep adds to what is observed only what it sees. -/
theorem Witnessed.sweep {start : Store} {steps : List Request}
    (h : Witnessed start steps (start.after steps)) {listing : List (EntryName × Host)}
    {host : Host} :
    Witnessed start (steps ++ [.sweep wall monotonic listing host])
      (start.after (steps ++ [.sweep wall monotonic listing host])) := by
  rw [Store.after_append]
  have hswept := swept_sweepEntries wall monotonic listing (start.after steps)
  have hstore := (sweepEntries wall monotonic listing (start.after steps)).finish_store
  constructor
  · intro id held hheld
    have hsidecar : ((Request.sweep wall monotonic listing host).perform
          (start.after steps)).2.sidecars.get id = (start.after steps).sidecars.get id ∨
        ((Request.sweep wall monotonic listing host).perform
          (start.after steps)).2.sidecars.get id = none := by
      refine perform_sweep (P := fun s' ↦ s'.sidecars.get id = (start.after steps).sidecars.get id ∨
        s'.sidecars.get id = none) (fun _ ↦ .inl rfl) (fun _ ↦ .inl rfl) fun _ ↦ ?_
      rw [hstore]
      exact (hswept.upload id).sidecar.imp_right And.left
    -- the observation is an old one, or one that this sweep has made
    have horigin : (start.after steps).observations.get id = some held ∨
        ∃ lease, Passes host (start.after steps) ∧ Sees listing (start.after steps) id lease ∧
          held = ⟨lease.owner, lease.renewSeq, monotonic⟩ := by
      refine perform_sweep (P := fun s' ↦ s'.observations.get id = some held →
        (start.after steps).observations.get id = some held ∨
        ∃ lease, Passes host (start.after steps) ∧ Sees listing (start.after steps) id lease ∧
          held = ⟨lease.owner, lease.renewSeq, monotonic⟩) (fun _ ↦ .inl)
          (fun _ hnone ↦ by cases hnone) ?_ hheld
      rw [hstore]
      intro hpasses hkept
      rw [OrderedMap.get_filterKeys] at hkept
      split_ifs at hkept
      rcases (hswept.upload id).observation with hnone | hsame | ⟨lease, hsees, hnew⟩
      · rw [hnone] at hkept
        cases hkept
      · exact .inl (hsame ▸ hkept)
      · exact .inr ⟨lease, hpasses, hsees, (Option.some.inj (hnew.symm.trans hkept)).symm⟩
    rcases horigin with hold | ⟨lease, hpasses, hsees, rfl⟩
    · rw [← Store.after_append]
      refine h.observed_append hold ?_
      rcases hsidecar with hsame | hnone
      · exact .inl ⟨hsame, not_renewed_sweep⟩
      · exact .inr (.inl hnone)
    · refine ⟨steps, _, [], rfl, ⟨wall, listing, host, lease, rfl, hpasses, hsees, rfl, rfl⟩,
        fun lease' hget ↦ ?_⟩
      obtain ⟨_, -, -, hread⟩ := hsees
      have hfields := (fields_of_lease hread).1
      obtain rfl : lease = lease' := by
        rcases hsidecar with hsame | hnone
        · rw [hsame, hfields] at hget
          simpa using hget
        · rw [hnone] at hget
          cases hget
      exact ⟨le_rfl, fun _ l₁ renewal l₂ hnil ↦ by simp at hnil⟩
  · intro id hsome
    have hbefore : ((start.after steps).observations.get id).isSome ∨
        ((start.after steps).staged.get id).isSome := by
      refine perform_sweep (P := fun s' ↦ (s'.observations.get id).isSome ∨
        (s'.staged.get id).isSome → ((start.after steps).observations.get id).isSome ∨
        ((start.after steps).staged.get id).isSome) (fun _ h ↦ h)
        (fun _ h ↦ .inr (h.resolve_left (by simp))) ?_ hsome
      rw [hstore]
      rintro - (hobserved | hstaged)
      · rw [OrderedMap.get_filterKeys] at hobserved
        split_ifs at hobserved
        · rcases (hswept.upload id).observation with hnone | hsame | ⟨lease, ⟨_, _, hstaged, _⟩, -⟩
          · simp [hnone] at hobserved
          · exact .inl (hsame ▸ hobserved)
          · exact .inr hstaged
        · cases hobserved
      · rcases (hswept.upload id).staged with hsame | ⟨hnone, -⟩
        · exact .inr (hsame ▸ hstaged)
        · simp [hnone] at hstaged
    exact (h.known id hbefore).imp_right fun hmem ↦ by simp [hmem]

/-- A step between sweeps observes nothing. -/
theorem Witnessed.step {start : Store} {steps : List Request}
    (h : Witnessed start steps (start.after steps)) (hfresh : Fresh start (steps ++ [request]))
    (hsweep : ∀ wall monotonic listing host, request ≠ .sweep wall monotonic listing host) :
    Witnessed start (steps ++ [request]) (start.after (steps ++ [request])) := by
  -- nothing is known of an id that the step draws
  have hdrawn : ∀ id ∈ request.drawn, (start.after steps).observations.get id = none := by
    intro id hmem
    by_contra hsome
    rcases h.known id (.inl (Option.isSome_iff_ne_none.mpr hsome)) with hstaged | hbefore
    · have hmem' : id ∈ (steps ++ [request]).flatMap Request.drawn := by simp [hmem]
      simp [hfresh.new id hmem'] at hstaged
    · have hnodup := hfresh.nodup
      rw [List.flatMap_append, List.nodup_append] at hnodup
      exact hnodup.2.2 id hbefore id (by simpa using hmem) rfl
  have hnone : ∀ id ∈ request.drawn,
      (request.perform (start.after steps)).2.observations.get id = none := by
    intro id hmem
    cases request with
    | begin size config draws host => exact observations_begin (hdrawn id hmem)
    | _ => cases hmem
  rw [Store.after_append]
  constructor
  · intro id held hheld
    have hid : id ∉ request.drawn := fun hmem ↦ by simp [hnone id hmem] at hheld
    obtain ⟨hadvances, hrenewed⟩ := perform_advances (s := start.after steps) hsweep hid
    have hsame : (start.after steps).observations.get id = some held := by
      have hobservation : (request.perform (start.after steps)).2.observations.get id =
          (start.after steps).observations.get id ∨
          (request.perform (start.after steps)).2.observations.get id = none := by
        rcases hadvances with hquiet | hrenews
        · exact hquiet.observation
        · exact hrenews.observation
      rcases hobservation with heq | hnone
      · exact heq ▸ hheld
      · simp [hnone] at hheld
    rw [← Store.after_append]
    refine h.observed_append hsame ?_
    by_cases hrenews : Renews id (start.after steps) (request.perform (start.after steps)).2
    · exact .inr (.inr hrenews)
    · rcases (hadvances.resolve_right hrenews).sidecar with heq | hnone
      · exact .inl ⟨heq, fun h ↦ hrenews (hrenewed h)⟩
      · exact .inr (.inl hnone)
  · intro id hsome
    by_cases hid : id ∈ request.drawn
    · exact .inr (by simp [hid])
    obtain ⟨hadvances, -⟩ := perform_advances (s := start.after steps) hsweep hid
    have hbefore : ((start.after steps).observations.get id).isSome ∨
        ((start.after steps).staged.get id).isSome := by
      have hkept : ((request.perform (start.after steps)).2.observations.get id =
          (start.after steps).observations.get id ∨
          (request.perform (start.after steps)).2.observations.get id = none) ∧
          (((request.perform (start.after steps)).2.staged.get id).isSome →
            ((start.after steps).staged.get id).isSome) := by
        rcases hadvances with hquiet | hrenews
        · exact ⟨hquiet.observation, hquiet.staged⟩
        · exact ⟨hrenews.observation, hrenews.staged⟩
      rcases hsome with hobserved | hstaged
      · rcases hkept.1 with heq | hnone
        · exact .inl (heq ▸ hobserved)
        · simp [hnone] at hobserved
      · exact .inr (hkept.2 hstaged)
    exact (h.known id hbefore).imp_right fun hmem ↦ by simp [hmem]

theorem Fresh.of_append {start : Store} {steps : List Request}
    (h : Fresh start (steps ++ [request])) : Fresh start steps where
  nodup := by
    have hnodup := h.nodup
    rw [List.flatMap_append, List.nodup_append] at hnodup
    exact hnodup.1
  new := fun id hmem ↦ h.new id (by rw [List.flatMap_append]; exact List.mem_append_left _ hmem)

/-- **What is observed after a run has been seen by one of its sweeps.** -/
theorem witnessed_after {start : Store} (hstart : start.observations = .empty)
    {steps : List Request} (hfresh : Fresh start steps) :
    Witnessed start steps (start.after steps) := by
  induction steps using List.reverseRecOn with
  | nil =>
    refine ⟨fun id held hheld ↦ ?_, fun id hsome ↦ ?_⟩
    · simp [Store.after, hstart] at hheld
    · rcases hsome with hobserved | hstaged
      · simp [Store.after, hstart] at hobserved
      · exact .inl hstaged
  | append_singleton steps request ih =>
    have h := ih hfresh.of_append
    by_cases hsweep : ∃ wall monotonic listing host,
        request = .sweep wall monotonic listing host
    · obtain ⟨wall, monotonic, listing, host, rfl⟩ := hsweep
      exact h.sweep
    · exact h.step hfresh fun wall monotonic listing host heq ↦
        hsweep ⟨wall, monotonic, listing, host, heq⟩

/-! ## The sweep of a run -/

/-- What a sweep does to the uploads of a store instance that has run from `start`. -/
structure Spares (start : Store) (steps : List Request) (wall : ℤ) (monotonic : ℕ)
    (listing : List (EntryName × Host)) (host : Host) (s' : Store) : Prop where
  /-- A staged file with a valid lease is removed only when an earlier sweep has seen that lease,
  the idle bound and five minutes before and with no append or renewal since, or past the
  backstop. -/
  live : ∀ id lease, ((start.after steps).staged.get id).isSome → s'.staged.get id = none →
    (start.after steps).sidecars.get id = some (.fields lease) → lease.validate = .ok () →
    (∃ earlier seen later since, steps = earlier ++ seen :: later ∧
      Observes id lease.owner lease.renewSeq since seen (start.after earlier) ∧
      since + (lease.idleSecs.toNat + 300) * 1000000000 ≤ monotonic ∧
      NoRenewal start (earlier ++ [seen]) later id) ∨
    lease.backstopAt ≤ wall
  /-- When no sweep has seen an upload since an append or a renewal, this one starts the window. -/
  restarts : ∀ earlier renewal later id lease, steps = earlier ++ renewal :: later →
    Renewed id renewal (start.after earlier) →
    (∀ l₁ request l₂, later = l₁ ++ request :: l₂ → ∀ owner renewSeq since,
      ¬Observes id owner renewSeq since request (start.after (earlier ++ renewal :: l₁))) →
    Passes host (start.after steps) → Reads listing (start.after steps) id lease →
    (s'.staged.get id).isSome →
      s'.observations.get id = some ⟨lease.owner, lease.renewSeq, monotonic⟩
  /-- A staged file whose lease cannot be read, or is not a valid one, stays. -/
  unreadable : ∀ id, (∀ host, (EntryName.staged id, host) ∈ listing →
    ∃ e, (start.after steps).lease host id = .error e) →
    s'.staged.get id = (start.after steps).staged.get id
  /-- A sidecar goes behind its staged file. -/
  inOrder : ∃ unlinked, InOrder (start.after steps) s' unlinked

/-- Two elements picked from one list: the one is behind the other, or they are the same. -/
theorem eq_of_split {α : Type} {earlier later before behind : List α} {x y : α}
    (h : earlier ++ x :: later = before ++ y :: behind) :
    (∃ middle, later = middle ++ y :: behind ∧ before = earlier ++ x :: middle) ∨
      (∃ middle, behind = middle ++ x :: later ∧ earlier = before ++ y :: middle) ∨
      earlier = before ∧ x = y ∧ later = behind := by
  rcases List.append_eq_append_iff.mp h with ⟨middle, rfl, hmiddle⟩ | ⟨middle, rfl, hmiddle⟩
  · rcases middle with _ | ⟨z, middle⟩
    · obtain ⟨rfl, rfl⟩ := List.cons.inj hmiddle
      exact .inr (.inr ⟨by simp, rfl, rfl⟩)
    · obtain ⟨rfl, rfl⟩ := List.cons.inj hmiddle
      exact .inl ⟨middle, rfl, rfl⟩
  · rcases middle with _ | ⟨z, middle⟩
    · obtain ⟨rfl, rfl⟩ := List.cons.inj hmiddle
      exact .inr (.inr ⟨by simp, rfl, rfl⟩)
    · obtain ⟨rfl, rfl⟩ := List.cons.inj hmiddle
      exact .inr (.inl ⟨middle, rfl, rfl⟩)

/-- An observation from before a renewal is not of the lease there is now. -/
theorem Witnessed.renewSeq_ne {start : Store} {earlier later : List Request} {renewal : Request}
    (h : Witnessed start (earlier ++ renewal :: later) s)
    (hrenewed : Renewed id renewal (start.after earlier))
    (hunseen : ∀ l₁ request l₂, later = l₁ ++ request :: l₂ → ∀ owner renewSeq since,
      ¬Observes id owner renewSeq since request (start.after (earlier ++ renewal :: l₁)))
    {lease : Lease} (hlease : s.sidecars.get id = some (.fields lease)) {held : Observation}
    (hheld : s.observations.get id = some held) : held.renewSeq ≠ lease.renewSeq := by
  intro heq
  obtain ⟨before, seen, behind, hsteps, hobserves, hno⟩ := h.observed id held hheld
  rcases eq_of_split hsteps with ⟨middle, rfl, rfl⟩ | ⟨middle, rfl, rfl⟩ | ⟨rfl, rfl, rfl⟩
  · exact hunseen middle seen behind rfl _ _ _ hobserves
  · refine (hno lease hlease).2 heq.symm middle renewal later rfl ?_
    rwa [List.append_assoc, List.singleton_append]
  · obtain ⟨wall, listing, host, -, rfl, -⟩ := hobserves
    exact not_renewed_sweep hrenewed

/-- **A live upload is never swept.** -/
theorem live_upload_never_swept {start : Store} (hstart : start.observations = .empty)
    {steps : List Request} (hfresh : Fresh start steps) (wall : ℤ) (monotonic : ℕ)
    (listing : List (EntryName × Host)) (host : Host) :
    Spares start steps wall monotonic listing host
      ((Request.sweep wall monotonic listing host).perform (start.after steps)).2 := by
  have hwitnessed := witnessed_after hstart hfresh
  have hswept := swept_sweepEntries wall monotonic listing (start.after steps)
  have hstore := (sweepEntries wall monotonic listing (start.after steps)).finish_store
  constructor
  · intro id lease hstaged hgone hlease hvalid
    -- the file was removed at a visit, which found the lease over
    have hover : ∃ host, Over host wall monotonic (start.after steps) id := by
      refine perform_sweep (P := fun s' ↦ s'.staged.get id = none →
        ∃ host, Over host wall monotonic (start.after steps) id) (fun _ hnone ↦ ?_)
        (fun _ hnone ↦ ?_) (fun _ ↦ ?_) hgone
      · simp [hnone] at hstaged
      · simp only at hnone
        simp [hnone] at hstaged
      · rw [hstore]
        intro hnone
        rcases (hswept.upload id).staged with hsame | ⟨-, host', -, hover⟩
        · rw [← hsame, hnone] at hstaged
          cases hstaged
        · exact ⟨host', hover⟩
    obtain ⟨host', ⟨lease', hread, hreason⟩ | hmissing⟩ := hover
    · obtain rfl : lease = lease' := by
        have hfields := (fields_of_lease hread).1
        rw [hlease] at hfields
        simpa using hfields
      rcases hreason with ⟨held, hheld, howner, hseq, hsince⟩ | hwall
      · obtain ⟨earlier, seen, later, hsteps, hobserves, hno⟩ :=
          hwitnessed.observed id held hheld
        refine .inl ⟨earlier, seen, later, held.since, hsteps, ?_, hsince,
          (hno lease hlease).2 hseq.symm⟩
        rw [← howner, ← hseq]
        exact hobserves
      · exact .inr hwall
    · -- a lease that is there is not missing
      unfold Store.lease at hmissing
      rw [hlease] at hmissing
      split at hmissing
      · cases hmissing
      dsimp only at hmissing
      split at hmissing
      · cases hmissing
      simp [hvalid, Except.map] at hmissing
  · rintro earlier renewal later id lease rfl hrenewed hunseen hpasses hreads
    refine perform_sweep (P := fun s' ↦ (s'.staged.get id).isSome →
      s'.observations.get id = some ⟨lease.owner, lease.renewSeq, monotonic⟩)
      (fun hrefused ↦ absurd hpasses hrefused) (fun hmissing ↦ absurd hpasses.present hmissing)
      fun _ ↦ ?_
    rw [hstore]
    intro hstaged
    obtain ⟨host', hmem⟩ := hreads.1
    have hlease := (fields_of_lease (hreads.2 host' hmem).2).1
    rcases (hswept.upload id).read lease hreads with hnone | ⟨hlive, hobserved⟩
    · simp [hnone] at hstaged
    · rw [OrderedMap.get_filterKeys, if_pos (decide_eq_true hlive), hobserved]
      refine congrArg some (observe_of_ne fun held hheld ↦ ?_)
      exact hwitnessed.renewSeq_ne hrenewed hunseen hlease hheld
  · intro id hunreadable
    refine perform_sweep (P := fun s' ↦ s'.staged.get id = (start.after steps).staged.get id)
      (fun _ ↦ rfl) (fun _ ↦ rfl) fun _ ↦ ?_
    rw [hstore]
    rcases (hswept.upload id).staged with hsame | ⟨-, host', hmem, hover⟩
    · exact hsame
    · obtain ⟨e, he⟩ := hunreadable host' hmem
      rcases hover with ⟨lease, hread, -⟩ | hmissing
      · rw [he] at hread
        cases hread
      · rw [he] at hmissing
        cases hmissing
  · refine perform_sweep (P := fun s' ↦ ∃ unlinked, InOrder (start.after steps) s' unlinked)
      (fun _ ↦ ⟨[], .refl _⟩)
      (fun _ ↦ ⟨[], (InOrder.refl _).of_same rfl rfl⟩) fun _ ↦ ?_
    rw [hstore]
    obtain ⟨unlinked, horder⟩ := hswept.inOrder
    exact ⟨unlinked, horder.of_same rfl rfl⟩

/-- A host on which every call succeeds. -/
def calmHost : Host := ⟨fun _ ↦ false, 0, 0, 1 <<< 40, 0⟩

def emptyStore : Store := ⟨0, false, .empty, .empty, .empty, .empty, []⟩

/-- An upload is begun with a minute to idle, and seen by a sweep. -/
def idleUpload : List Request :=
  [.begin 1 ⟨1, 60, by decide, by decide⟩ [7] calmHost,
    .sweep 0 0 [(.staged 7, calmHost), (.lease 7, calmHost)] calmHost]

/-- Six minutes later, with the same wall reading, the next sweep removes it. -/
theorem idle_upload_swept :
    ((emptyStore.after idleUpload).staged.get 7).isSome ∧
      ((Request.sweep 0 360000000000 [(.staged 7, calmHost)] calmHost).perform
        (emptyStore.after idleUpload)).2.staged.get 7 = none ∧
      Spares emptyStore idleUpload 0 360000000000 [(.staged 7, calmHost)] calmHost
        ((Request.sweep 0 360000000000 [(.staged 7, calmHost)] calmHost).perform
          (emptyStore.after idleUpload)).2 := by
  refine ⟨by decide +kernel, by decide +kernel, ?_⟩
  have hdrawn : idleUpload.flatMap Request.drawn = [7] := rfl
  have hfresh : Fresh emptyStore idleUpload := by
    refine ⟨?_, fun id _ ↦ rfl⟩
    rw [hdrawn]
    exact List.nodup_singleton 7
  exact live_upload_never_swept rfl hfresh _ _ _ _

end Khive.Blob
