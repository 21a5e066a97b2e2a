import Khive.Blob.Uploads
import Khive.Foundation.Checks

/-!
# What a step does to an upload

Apart from the files a step begins, it leaves an upload alone, takes things away from it, or renews
its lease once: `Advances`. An append or a renewal that succeeds has renewed the lease. A visit of a
sweep ends in one of four ways, which `Visited` names.
-/

namespace Khive.Blob

open Attempt

variable {host : Host} {s s' : Store} {id j : UploadId} {E : StorageError → Store → Prop}

/-! ## The calls -/

theorem ends_call {c : Call} {operation : String} {Q : Unit → Store → Prop} (hQ : Q () s)
    (hE : ∀ e, E e s) : Ends (call host c operation) s Q E := by
  rw [call, ends_ite]
  exact ⟨fun _ ↦ hE _, fun _ ↦ hQ⟩

theorem ends_checkSpace {bytes : ℕ} {Q : Unit → Store → Prop} (hQ : Q () s) (hE : ∀ e, E e s) :
    Ends (checkSpace host bytes) s Q E := by
  simp only [checkSpace, ends_bind, ends_read, ends_ite]
  exact ends_call ⟨fun _ ↦ hE _, fun _ ↦ hQ⟩ hE

/-- A lease is published in one stroke, and what fails after that leaves it published. -/
theorem ends_publish {lease : Lease} {Q : Unit → Store → Prop} (hQ : Q () (setSidecar id lease s))
    (hbefore : ∀ e, E e s) (hafter : ∀ e, E e (setSidecar id lease s)) :
    Ends (publish host id lease) s Q E := by
  simp only [publish, ends_bind, ends_check]
  refine ⟨fun _ _ ↦ ends_checkSpace ?_ hbefore, fun e _ ↦ hbefore e⟩
  refine ends_call (ends_call (ends_call (ends_call ?_ hbefore) hbefore) hbefore) hbefore
  exact ends_call hQ hafter

/-- A cleanup forgets the observation and may then drop the sidecar. -/
theorem ends_cleanup {P : Store → Prop} (hforget : P (forget id s))
    (hdrop : P (dropSidecar id (forget id s))) :
    Ends (cleanup host id) s (fun _ ↦ P) (fun _ ↦ P) := by
  simp only [cleanup, ends_bind, ends_write]
  refine ends_call ?_ fun _ ↦ hforget
  simp only [ends_read, ends_ite, ends_bind, ends_write, ends_pure]
  refine ⟨fun _ ↦ ends_call ⟨fun _ ↦ ?_, fun _ ↦ ?_⟩ fun _ ↦ hforget, fun _ ↦ hforget⟩
  · exact ends_call (ends_call hdrop fun _ ↦ hdrop) fun _ ↦ hforget
  · exact ends_call hforget fun _ ↦ hforget

theorem ends_openStaged {operation : String} {Q : Staged → Store → Prop}
    (hQ : ∀ file, s.staged.get id = some file → Q file s) (hE : ∀ e, E e s) :
    Ends (openStaged host id operation) s Q E := by
  simp only [openStaged, ends_bind]
  refine ends_call ?_ hE
  simp only [ends_read, ends_ite, ends_bind]
  refine ⟨fun _ ↦ ends_call ?_ hE, fun _ ↦ hE _⟩
  rcases hfile : s.staged.get id with _ | file
  · exact hE _
  · exact hQ file hfile

theorem fields_of_lease {lease : Lease} (h : s.lease host id = .ok (some lease)) :
    s.sidecars.get id = some (.fields lease) ∧ lease.validate = .ok () := by
  unfold Store.lease at h
  split at h
  · cases h
  rcases hget : s.sidecars.get id with _ | sidecar
  · simp [hget] at h
  · rw [hget] at h
    dsimp only at h
    split at h
    · cases h
    rcases sidecar with lease' | _
    · rcases hvalid : lease'.validate with e | _
      · simp [hvalid, Except.map] at h
      · obtain rfl : lease' = lease := by simpa [hvalid, Except.map] using h
        exact ⟨rfl, hvalid⟩
    · cases h

theorem lease_of_next {lease lease' : Lease} {wall : ℤ} (h : lease.next wall = .ok lease') :
    lease'.renewSeq.toNat = lease.renewSeq.toNat + 1 := by
  unfold Lease.next at h
  split at h
  next hlt =>
    rcases htime : timestamp wall with e | renewedAt
    · simp [htime, Except.map] at h
    · obtain rfl : _ = lease' := by simpa [htime, Except.map] using h
      show (lease.renewSeq + 1).toNat = _
      rw [UInt64.toNat_add, UInt64.toNat_one]
      exact Nat.mod_eq_of_lt hlt
  next => cases h

/-- The renewed lease is the one of the sidecar, renewed once more. -/
theorem ends_renewal {operation : String} {Q : Lease → Store → Prop}
    (hQ : ∀ lease lease', s.sidecars.get id = some (.fields lease) →
      lease'.renewSeq.toNat = lease.renewSeq.toNat + 1 → Q lease' s)
    (hE : ∀ e, E e s) : Ends (renewal host id operation) s Q E := by
  simp only [renewal, readLease, ends_bind, ends_read, ends_check]
  refine ⟨fun found hfound ↦ ?_, fun e _ ↦ hE e⟩
  rcases found with _ | lease
  · exact hE _
  · rw [ends_check]
    exact ⟨fun lease' hnext ↦ hQ lease lease' (fields_of_lease hfound).1 (lease_of_next hnext),
      fun e _ ↦ hE e⟩

/-! ## What a step may do -/

/-- Nothing is added to an upload: its observation and sidecar stay or go, and it is staged only if
it was. -/
structure Quiet (j : UploadId) (s s' : Store) : Prop where
  observation : s'.observations.get j = s.observations.get j ∨ s'.observations.get j = none
  sidecar : s'.sidecars.get j = s.sidecars.get j ∨ s'.sidecars.get j = none
  staged : (s'.staged.get j).isSome → (s.staged.get j).isSome

/-- The lease of an upload is renewed once. -/
structure Renews (j : UploadId) (s s' : Store) : Prop where
  observation : s'.observations.get j = s.observations.get j ∨ s'.observations.get j = none
  sidecar : ∃ lease lease', s.sidecars.get j = some (.fields lease) ∧
    s'.sidecars.get j = some (.fields lease') ∧
    lease'.renewSeq.toNat = lease.renewSeq.toNat + 1
  staged : (s'.staged.get j).isSome → (s.staged.get j).isSome

def Advances (j : UploadId) (s s' : Store) : Prop := Quiet j s s' ∨ Renews j s s'

theorem Quiet.refl (j : UploadId) (s : Store) : Quiet j s s := ⟨.inl rfl, .inl rfl, id⟩

theorem Quiet.trans {s'' : Store} (h : Quiet j s s') (h' : Quiet j s' s'') : Quiet j s s'' := by
  refine ⟨?_, ?_, h.staged ∘ h'.staged⟩
  · rcases h'.observation with heq | hnone
    · rw [heq]
      exact h.observation
    · exact .inr hnone
  · rcases h'.sidecar with heq | hnone
    · rw [heq]
      exact h.sidecar
    · exact .inr hnone

theorem quiet_forget : Quiet j s (forget id s) := by
  refine ⟨?_, .inl rfl, fun h ↦ h⟩
  rw [forget, OrderedMap.get_erase]
  split_ifs
  · exact .inr rfl
  · exact .inl rfl

theorem quiet_dropSidecar : Quiet j s (dropSidecar id s) := by
  refine ⟨.inl rfl, ?_, fun h ↦ h⟩
  rw [dropSidecar, OrderedMap.get_erase]
  split_ifs
  · exact .inr rfl
  · exact .inl rfl

theorem quiet_dropStaged (id : UploadId) : Quiet j s (dropStaged id s) := by
  refine ⟨.inl rfl, .inl rfl, fun h ↦ ?_⟩
  rw [dropStaged, OrderedMap.get_erase] at h
  split_ifs at h
  · cases h
  · exact h

/-- A staged file is written again. -/
theorem quiet_setStaged {file : Staged} (hstaged : (s.staged.get id).isSome) :
    Quiet j s (setStaged id file s) := by
  refine ⟨.inl rfl, .inl rfl, fun h ↦ ?_⟩
  rw [setStaged, OrderedMap.get_insert] at h
  split_ifs at h with hj
  · rwa [hj]
  · exact h

/-- A sidecar of another upload is written. -/
theorem quiet_setSidecar {lease : Lease} (hj : j ≠ id) : Quiet j s (setSidecar id lease s) := by
  refine ⟨.inl rfl, .inl ?_, fun h ↦ h⟩
  rw [setSidecar, OrderedMap.get_insert, if_neg hj]

theorem renews_setSidecar {s₀ : Store} {lease lease' : Lease} (h : Quiet id s₀ s)
    (hget : s.sidecars.get id = some (.fields lease))
    (hseq : lease'.renewSeq.toNat = lease.renewSeq.toNat + 1) :
    Renews id s₀ (setSidecar id lease' s) := by
  refine ⟨h.observation, ⟨lease, lease', ?_, ?_, hseq⟩, h.staged⟩
  · rcases h.sidecar with heq | hnone
    · exact heq ▸ hget
    · simp [hnone] at hget
  · rw [setSidecar, OrderedMap.get_insert, if_pos rfl]

theorem ends_cleanup_quiet {s₀ : Store} (h : Quiet j s₀ s) :
    Ends (cleanup host id) s (fun _ ↦ Quiet j s₀) (fun _ ↦ Quiet j s₀) :=
  ends_cleanup (h.trans quiet_forget) (h.trans (quiet_forget.trans quiet_dropSidecar))

/-! ## The steps other than a sweep -/

theorem ends_appendBytes {file : Staged} {bytes : List UInt8}
    (hstaged : (s.staged.get id).isSome) :
    Ends (appendBytes host id file bytes) s
      (fun _ s' ↦ Quiet j s s' ∧ s'.sidecars = s.sidecars) (fun _ s' ↦ Quiet j s s') := by
  have hwritten : ∀ file', (setStaged id file' s).staged.get id = some file' := by
    intro file'
    rw [setStaged, OrderedMap.get_insert, if_pos rfl]
  simp only [appendBytes, ends_bind, ends_caught]
  refine ends_call ?_ ?_
  · refine ends_call ?_ fun _ ↦ quiet_setStaged hstaged
    have hquiet : Quiet j s (setStaged id ⟨file.content ++ bytes, host.touched⟩
        (setStaged id { file with content := file.content ++ bytes } s)) :=
      (quiet_setStaged hstaged).trans (quiet_setStaged (by rw [hwritten]; rfl))
    exact ends_call ⟨hquiet, rfl⟩ fun _ ↦ hquiet
  · intro e
    simp only [ends_write, ends_fail]
    exact quiet_setStaged hstaged

/-- **An append that succeeds has renewed the lease**, and one that fails may have. -/
theorem ends_append {bytes : List UInt8} :
    Ends (append host id bytes) s (fun _ s' ↦ Advances j s s' ∧ (j = id → Renews j s s'))
      (fun _ s' ↦ Advances j s s') := by
  have hrefl : Advances j s s := .inl (.refl j s)
  simp only [append, ends_bind]
  refine ends_openStaged (fun file hfile ↦ ?_) fun _ ↦ hrefl
  refine ends_renewal (fun lease lease' hlease hseq ↦ ?_) fun _ ↦ hrefl
  refine ends_call ?_ fun _ ↦ hrefl
  simp only [ends_ite, ends_fail, ends_bind, ends_pure]
  refine ⟨fun _ ↦ hrefl, fun _ ↦ ends_checkSpace ?_ fun _ ↦ hrefl⟩
  refine (ends_appendBytes (j := j) (by simp [hfile])).mono ?_ fun e s₁ hquiet ↦ .inl hquiet
  rintro - s₁ ⟨hquiet, hsidecars⟩
  have hquiet' : Advances j s s₁ := .inl hquiet
  refine ends_call ?_ fun _ ↦ hquiet'
  simp only [ends_read]
  refine ⟨fun _ ↦ hquiet', fun _ ↦ ?_⟩
  have hget : s₁.sidecars.get id = some (.fields lease) := by rw [hsidecars, hlease]
  -- at the upload itself the lease is renewed, and the others do not see the sidecar
  by_cases hj : j = id
  · subst hj
    have hrenews := renews_setSidecar hquiet hget hseq
    exact ends_publish ⟨.inr hrenews, fun _ ↦ hrenews⟩ (fun _ ↦ hquiet') fun _ ↦ .inr hrenews
  · have hother : Advances j s (setSidecar id lease' s₁) :=
      .inl (hquiet.trans (quiet_setSidecar hj))
    exact ends_publish ⟨hother, fun h ↦ absurd h hj⟩ (fun _ ↦ hquiet') fun _ ↦ hother

theorem ends_renew :
    Ends (renew host id) s (fun _ s' ↦ Advances j s s' ∧ (j = id → Renews j s s'))
      (fun _ s' ↦ Advances j s s') := by
  have hrefl : Advances j s s := .inl (.refl j s)
  simp only [renew, ends_bind]
  refine ends_openStaged (fun file hfile ↦ ?_) fun _ ↦ hrefl
  refine ends_renewal (fun lease lease' hlease hseq ↦ ?_) fun _ ↦ hrefl
  by_cases hj : j = id
  · subst hj
    have hrenews := renews_setSidecar (.refl j s) hlease hseq
    exact ends_publish ⟨.inr hrenews, fun _ ↦ hrenews⟩ (fun _ ↦ hrefl) fun _ ↦ .inr hrenews
  · have hother : Advances j s (setSidecar id lease' s) := .inl (quiet_setSidecar hj)
    exact ends_publish ⟨hother, fun h ↦ absurd h hj⟩ (fun _ ↦ hrefl) fun _ ↦ hother

theorem ends_syncDirectories {Q : Unit → Store → Prop} (hQ : Q () s) (hE : ∀ e, E e s) :
    Ends (syncDirectories host) s Q E := by
  simp only [syncDirectories, ends_bind]
  exact ends_call (ends_call (ends_call hQ hE) hE) hE

theorem ends_publishBlobAt {s₀ : Store} {file : Staged} {contentRef : ContentRef}
    (h : Quiet j s₀ s) :
    Ends (publishBlobAt host id file contentRef) s (fun _ ↦ Quiet j s₀) (fun _ ↦ Quiet j s₀) := by
  simp only [publishBlobAt, ends_bind, ends_caught]
  refine ends_call ?_ fun e ↦ ?_
  · have hmoved : Quiet j s₀ { dropStaged id s with
        objects := (dropStaged id s).objects.insert contentRef file.content } := by
      obtain ⟨hobservation, hsidecar, hstaged⟩ := h.trans (quiet_dropStaged id)
      exact ⟨hobservation, hsidecar, hstaged⟩
    exact ends_syncDirectories hmoved fun _ ↦ hmoved
  · simp only [ends_bind, ends_ite, ends_write, ends_fail]
    exact ⟨fun _ ↦ h, fun _ ↦ h.trans (quiet_dropStaged id)⟩

theorem ends_commit {contentRef : ContentRef} :
    Ends (commit host id contentRef) s (fun _ ↦ Quiet j s) (fun _ ↦ Quiet j s) := by
  have hrefl := Quiet.refl j s
  simp only [commit, commitStaged, ends_bind]
  refine ends_openStaged (fun file hfile ↦ ?_) fun _ ↦ hrefl
  refine ends_call ?_ fun _ ↦ hrefl
  have htouched : Quiet j s (setStaged id { file with modified := host.touched } s) :=
    quiet_setStaged (by simp [hfile])
  refine ends_call (ends_call (ends_call ?_ ?_) ?_) fun _ ↦ htouched
  · simp only [ends_read, ends_ite, ends_bind]
    refine ⟨fun _ ↦ ?_, fun _ ↦ ?_⟩
    · refine ends_call (ends_call ?_ fun _ ↦ htouched) fun _ ↦ htouched
      refine ends_syncDirectories (ends_call ?_ fun _ ↦ htouched) fun _ ↦ htouched
      have hdropped := htouched.trans (quiet_dropStaged id)
      exact ends_call (ends_cleanup_quiet hdropped) fun _ ↦ hdropped
    · refine (ends_publishBlobAt htouched).mono (fun _ s' hquiet ↦ ?_) fun _ _ hquiet ↦ hquiet
      exact ends_call (ends_cleanup_quiet hquiet) fun _ ↦ hquiet
  · exact fun _ ↦ htouched
  · exact fun _ ↦ htouched

theorem ends_abort : Ends (abort host id) s (fun _ ↦ Quiet j s) (fun _ ↦ Quiet j s) := by
  have hrefl := Quiet.refl j s
  simp only [abort, ends_bind]
  refine ends_call ?_ fun _ ↦ hrefl
  simp only [ends_read, ends_ite, ends_bind]
  refine ⟨fun _ ↦ ends_call ?_ fun _ ↦ hrefl, fun _ ↦ ends_cleanup_quiet hrefl⟩
  exact ends_cleanup_quiet (quiet_dropStaged id)

/-- What holds of a store while uploads of these ids are begun, or given up again. -/
def StableFor (draws : List UploadId) (P : Store → Prop) : Prop :=
  ∀ id ∈ draws, ∀ s, P s → (∀ file, P { s with staged := s.staged.insert id file }) ∧
    (∀ lease, P (setSidecar id lease s)) ∧ P (dropStaged id s) ∧ P (forget id s) ∧
    P (dropSidecar id s)

theorem ends_beginLoop {P : Store → Prop} {lease : Lease} {draws : List UploadId} (h : P s)
    (hstable : StableFor draws P) :
    Ends (beginLoop host lease draws) s (fun _ ↦ P) (fun _ ↦ P) := by
  induction draws with
  | nil => exact h
  | cons id draws ih =>
    have hid := hstable id List.mem_cons_self
    simp only [beginLoop, ends_bind]
    refine ends_call ?_ fun _ ↦ h
    simp only [ends_read, ends_ite, ends_bind, ends_write, ends_caught]
    refine ⟨fun _ ↦ ih fun id hmem ↦ hstable id (List.mem_cons_of_mem _ hmem), fun _ ↦ ?_⟩
    have hcreated : P { s with staged := s.staged.insert id ⟨[], host.touched⟩ } := (hid s h).1 _
    have hcleanup : ∀ s₁, P s₁ → Ends (cleanup host id) s₁ (fun _ ↦ P) (fun _ ↦ P) := by
      intro s₁ h₁
      have hforgotten := (hid s₁ h₁).2.2.2.1
      exact ends_cleanup hforgotten (hid _ hforgotten).2.2.2.2
    have hfailed : ∀ s₁, P s₁ → StorageError →
        Ends (beginFailed host id) s₁ (fun _ ↦ P) (fun _ ↦ P) := by
      intro s₁ h₁ e
      simp only [beginFailed, ends_bind, ends_caught]
      refine ends_call ?_ fun _ ↦ h₁
      simp only [ends_read, ends_ite, ends_bind, ends_write, ends_caught, ends_pure]
      exact ⟨fun _ ↦ hcleanup _ (hid s₁ h₁).2.2.1, fun _ ↦ hcleanup _ h₁⟩
    have hpublished := (hid _ hcreated).2.1 lease
    simp only [beginCreated, ends_bind]
    exact ends_call (ends_publish (ends_call hpublished (hfailed _ hpublished))
      (hfailed _ hcreated) (hfailed _ hpublished)) (hfailed _ hcreated)

theorem ends_beginLeased {P : Store → Prop} {size : ℕ} {config : UploadLeaseConfig}
    {draws : List UploadId} (h : P s) (hdirectory : P { s with hasDirectory := true })
    (hstable : StableFor draws P) :
    Ends (beginLeased host size config draws) s (fun _ ↦ P) (fun _ ↦ P) := by
  simp only [beginLeased, ends_bind, ends_ite, ends_fail, ends_check]
  refine ⟨fun _ ↦ h, fun _ ↦ ⟨fun lease _ ↦ ends_call ?_ fun _ ↦ h, fun _ _ ↦ h⟩⟩
  exact ends_beginLoop hdirectory hstable

/-- Beginning other uploads leaves an upload alone. -/
theorem stableFor_quiet {s₀ : Store} {draws : List UploadId} (hj : j ∉ draws) :
    StableFor draws (Quiet j s₀) := by
  intro id hid s h
  have hne : j ≠ id := fun heq ↦ hj (heq ▸ hid)
  refine ⟨fun file ↦ ⟨h.observation, h.sidecar, fun hstaged ↦ h.staged ?_⟩,
    fun lease ↦ h.trans (quiet_setSidecar hne), h.trans (quiet_dropStaged id), h.trans quiet_forget,
    h.trans quiet_dropSidecar⟩
  rwa [OrderedMap.get_insert, if_neg hne] at hstaged

/-- Beginning uploads observes nothing. -/
theorem stableFor_observations {draws : List UploadId} :
    StableFor draws fun s ↦ s.observations.get j = none := by
  intro id _ s h
  refine ⟨fun _ ↦ h, fun _ ↦ h, h, ?_, h⟩
  show (s.observations.erase id).get j = none
  rw [OrderedMap.get_erase]
  split_ifs
  · rfl
  · exact h

/-! ## The visits of a sweep -/

/-- When the lease is over whatever has been observed: a day after the last renewal and the idle
time behind it. -/
def Lease.backstopAt (lease : Lease) : ℤ :=
  ((lease.renewedAt.toNat + (lease.idleSecs.toNat + 86400) * 1000 : ℕ) : ℤ) * 1000000

/-- The lease was seen unchanged for its idle time and five minutes. -/
def WindowOver (observed : Option Observation) (lease : Lease) (monotonic : ℕ) : Prop :=
  ∃ held, observed = some held ∧ held.owner = lease.owner ∧ held.renewSeq = lease.renewSeq ∧
    held.since + (lease.idleSecs.toNat + 300) * 1000000000 ≤ monotonic

/-- What has to be the case for a sweep to remove a staged file: its lease is over, or it has
none. -/
def Over (host : Host) (wall : ℤ) (monotonic : ℕ) (s : Store) (id : UploadId) : Prop :=
  (∃ lease, s.lease host id = .ok (some lease) ∧
    (WindowOver (s.observations.get id) lease monotonic ∨ lease.backstopAt ≤ wall)) ∨
  s.lease host id = .ok none

def observing (id : UploadId) (lease : Lease) (monotonic : ℕ) (s : Store) : Store :=
  { s with observations :=
    s.observations.insert id (observe (s.observations.get id) lease monotonic) }

/-- The staged file is gone, and then perhaps the sidecar. -/
structure Removed (id : UploadId) (s s' : Store) : Prop where
  staged : s'.staged = s.staged.erase id
  sidecar : s'.sidecars = s.sidecars ∧ s'.unlinked = .staged id :: s.unlinked ∨
    s'.sidecars = s.sidecars.erase id ∧ s'.unlinked = .lease id :: .staged id :: s.unlinked
  observation : ∀ j, s'.observations.get j = if j = id then none else s.observations.get j

/-- What a visit to a staged file leaves. -/
inductive Visited (host : Host) (id : UploadId) (wall : ℤ) (monotonic : ℕ) (s : Store) :
    Store → Prop
  | untouched : host.fails .openStaged = true ∨ s.staged.get id = none →
      Visited host id wall monotonic s s
  | unread : (∀ lease, s.lease host id ≠ .ok (some lease)) →
      Visited host id wall monotonic s (forget id s)
  | observed (lease : Lease) : (s.staged.get id).isSome → s.lease host id = .ok (some lease) →
      Visited host id wall monotonic s (observing id lease monotonic s)
  | removed (s' : Store) : (s.staged.get id).isSome → Over host wall monotonic s id →
      Removed id s s' → Visited host id wall monotonic s s'

variable {wall : ℤ} {monotonic : ℕ}

theorem backstop_eq_ok {lease : Lease} {deadline : ℤ} (h : lease.backstop = .ok deadline) :
    deadline = lease.backstopAt := by
  unfold Lease.backstop at h
  dsimp only at h
  split at h
  · rw [Lease.backstopAt]
    exact (Except.ok.inj h).symm
  · cases h

theorem exists_backstop {lease : Lease} (h : lease.validate = .ok ()) :
    ∃ deadline, lease.backstop = .ok deadline := by
  unfold Lease.validate at h
  split at h
  · cases h
  · obtain ⟨deadline, hdeadline, -⟩ := map_eq_ok.mp h
    exact ⟨deadline, hdeadline⟩

theorem idleSecs_le {lease : Lease} (h : lease.validate = .ok ()) :
    lease.idleSecs.toNat ≤ maxIdleSecs := by
  unfold Lease.validate at h
  split at h
  · cases h
  · next hbounds => exact not_lt.mp fun hlt ↦ hbounds (.inr (.inr hlt))

theorem windowOver_of_observe {observed : Option Observation} {lease : Lease}
    (h : (observe observed lease monotonic).since + (lease.idleSecs.toNat + 300) * 1000000000 ≤
      monotonic) : WindowOver observed lease monotonic := by
  unfold observe at h
  rcases observed with _ | held
  · simp at h
  · dsimp only at h
    split at h
    · next hsame => exact ⟨held, rfl, hsame.1, hsame.2, h⟩
    · simp at h

/-- A lease that was read is found over only for one of the two reasons, and is observed. -/
theorem ends_expired {lease : Lease} (hvalid : lease.validate = .ok ()) :
    Ends (expired id lease wall monotonic) s
      (fun passed s' ↦ s' = observing id lease monotonic s ∧ (passed = true →
        WindowOver (s.observations.get id) lease monotonic ∨ lease.backstopAt ≤ wall))
      (fun _ _ ↦ False) := by
  have hidle := idleSecs_le hvalid
  obtain ⟨deadline, hdeadline⟩ := exists_backstop hvalid
  simp only [expired, ends_bind, ends_ite, ends_fail, ends_check, ends_read, ends_write]
  refine ⟨fun hlarge ↦ ?_, fun _ ↦ ⟨fun a ha ↦ ?_, fun e he ↦ ?_⟩⟩
  · rw [maxIdleSecs] at hidle
    omega
  · refine ⟨rfl, fun hover ↦ ?_⟩
    rw [← backstop_eq_ok ha]
    rcases (Bool.or_eq_true _ _).mp hover with hwindow | hwall
    · exact .inl (windowOver_of_observe (of_decide_eq_true hwindow))
    · exact .inr (of_decide_eq_true hwall)
  · rw [hdeadline] at he
    cases he

theorem ends_removal {s₀ : Store} (hstaged : s.staged = s₀.staged)
    (hsidecars : s.sidecars = s₀.sidecars) (hunlinked : s.unlinked = s₀.unlinked)
    (hobservation : ∀ j, j ≠ id → s.observations.get j = s₀.observations.get j) :
    Ends (cleanup host id) (dropStaged id s) (fun _ ↦ Removed id s₀) (fun _ ↦ Removed id s₀) := by
  have hforgotten : ∀ j, (s.observations.erase id).get j =
      if j = id then none else s₀.observations.get j := by
    intro j
    rw [OrderedMap.get_erase]
    split_ifs with hj
    · rfl
    · exact hobservation j hj
  apply ends_cleanup
  · refine ⟨congrArg (OrderedMap.erase · id) hstaged, .inl ⟨hsidecars, ?_⟩, hforgotten⟩
    exact congrArg (Removal.staged id :: ·) hunlinked
  · refine ⟨congrArg (OrderedMap.erase · id) hstaged,
      .inr ⟨congrArg (OrderedMap.erase · id) hsidecars, ?_⟩, hforgotten⟩
    exact congrArg (Removal.lease id :: Removal.staged id :: ·) hunlinked

/-- **A visit to a staged file** ends in one of the four ways. -/
theorem ends_sweepStaged :
    Ends (sweepStaged host id wall monotonic) s (fun _ ↦ Visited host id wall monotonic s)
      (fun _ ↦ Visited host id wall monotonic s) := by
  simp only [sweepStaged, ends_bind]
  rw [call, ends_ite]
  refine ⟨fun hfails ↦ .untouched (.inl hfails), fun _ ↦ ?_⟩
  simp only [ends_pure, ends_read]
  rcases hfile : s.staged.get id with _ | file
  · exact .untouched (.inr hfile)
  have hsome : (s.staged.get id).isSome := by rw [hfile]; rfl
  simp only [ends_bind, sweepLease, ends_read]
  rcases hread : s.lease host id with e | _ | lease
  · -- the lease cannot be read
    simp only [ends_bind, ends_write, ends_check]
    refine ⟨fun a h ↦ (by cases h), fun e _ ↦ .unread fun lease h ↦ ?_⟩
    rw [hread] at h
    cases h
  · -- there is no lease, and the age of the file decides
    have hunread : Visited host id wall monotonic s (forget id s) := by
      refine .unread fun lease h ↦ ?_
      rw [hread] at h
      cases h
    simp only [ends_bind, ends_write, ends_check]
    refine ⟨fun a h ↦ ?_, fun e h ↦ (by cases h)⟩
    cases h
    simp only [isAbandoned, ends_bind]
    refine ends_call ?_ fun _ ↦ hunread
    simp only [ends_pure, ends_ite, ends_bind]
    refine ⟨fun _ ↦ ends_call ?_ fun _ ↦ hunread, fun _ ↦ hunread⟩
    have hother : ∀ j, j ≠ id → (forget id s).observations.get j = s.observations.get j := by
      intro j hj
      rw [forget, OrderedMap.get_erase, if_neg hj]
    have hremoved : Ends (cleanup host id) (dropStaged id (forget id s)) (fun _ ↦ Removed id s)
        (fun _ ↦ Removed id s) := ends_removal rfl rfl rfl hother
    exact hremoved.mono (fun _ s' h ↦ Visited.removed s' hsome (.inr hread) h)
      fun _ s' h ↦ Visited.removed s' hsome (.inr hread) h
  · -- the lease is observed, and removed with its file if it is over
    have hobserved : Visited host id wall monotonic s (observing id lease monotonic s) :=
      .observed lease hsome hread
    simp only [ends_pure, ends_bind]
    refine (ends_expired (fields_of_lease hread).2).mono ?_ fun _ _ h ↦ h.elim
    rintro passed s₁ ⟨rfl, hover⟩
    simp only [ends_ite, ends_bind, ends_pure]
    refine ⟨fun htrue ↦ ends_call ?_ fun _ ↦ hobserved, fun _ ↦ hobserved⟩
    have hover : Over host wall monotonic s id := .inl ⟨lease, hread, hover htrue⟩
    have hother : ∀ j, j ≠ id →
        (observing id lease monotonic s).observations.get j = s.observations.get j := by
      intro j hj
      rw [observing, OrderedMap.get_insert, if_neg hj]
    have hremoved : Ends (cleanup host id) (dropStaged id (observing id lease monotonic s))
        (fun _ ↦ Removed id s) (fun _ ↦ Removed id s) := ends_removal rfl rfl rfl hother
    exact hremoved.mono (fun _ s' h ↦ Visited.removed s' hsome hover h)
      fun _ s' h ↦ Visited.removed s' hsome hover h

/-- A visit to a sidecar does nothing while the staged file is there. -/
theorem ends_sweepSidecar {P : Store → Prop} (huntouched : P s)
    (hforget : s.staged.get id = none → P (forget id s))
    (hdrop : s.staged.get id = none → P (dropSidecar id (forget id s))) :
    Ends (sweepSidecar host id) s (fun _ ↦ P) (fun _ ↦ P) := by
  simp only [sweepSidecar, ends_bind, ends_read, ends_ite, ends_pure]
  refine ⟨fun hmissing ↦ ?_, fun _ ↦ huntouched⟩
  have hnone : s.staged.get id = none := by
    simpa using ((Bool.and_eq_true _ _).mp hmissing).2
  exact ends_cleanup (hforget hnone) (hdrop hnone)

end Khive.Blob
