import Khive.Blob.Step

/-!
# A sweep under way

A sweep decides over an upload from its lease and from what the instance has observed. `Swept` says
what a sweep has done after some of its visits, in terms of the store it began with: a sidecar goes
only behind its staged file, a staged file goes only when its lease is over at the readings of this
sweep, and an observation that appears is of this sweep.
-/

namespace Khive.Blob

open Attempt

variable {host : Host} {s s' : Store} {id j : UploadId} {wall : ℤ} {monotonic : ℕ}

/-! ## A sweep under way -/

/-- Every lease unlinked since `s` had lost its staged file by then. -/
structure InOrder (s s' : Store) (unlinked : List Removal) : Prop where
  trace : s'.unlinked = unlinked ++ s.unlinked
  gone : ∀ j, s'.staged.get j = none → s.staged.get j = none ∨ .staged j ∈ unlinked
  order : ∀ later earlier j, unlinked = later ++ .lease j :: earlier →
    s.staged.get j = none ∨ .staged j ∈ earlier

/-- The sweep observed this lease of the upload. -/
def Sees (visited : List (EntryName × Host)) (s : Store) (id : UploadId) (lease : Lease) : Prop :=
  ∃ host, (.staged id, host) ∈ visited ∧ (s.staged.get id).isSome ∧
    s.lease host id = .ok (some lease)

/-- Each visit to the upload opens its file and reads this lease, and there is one. -/
def Reads (visited : List (EntryName × Host)) (s : Store) (id : UploadId) (lease : Lease) : Prop :=
  (∃ host, (EntryName.staged id, host) ∈ visited) ∧
    ∀ host, (EntryName.staged id, host) ∈ visited →
      host.fails .openStaged = false ∧ s.lease host id = .ok (some lease)

/-- What a sweep begun at `s` has done to an upload after some visits. -/
structure SweptAt (wall : ℤ) (monotonic : ℕ) (s : Store) (visited : List (EntryName × Host))
    (live : List UploadId) (s' : Store) (j : UploadId) : Prop where
  sidecar : s'.sidecars.get j = s.sidecars.get j ∨
    s'.sidecars.get j = none ∧ s'.staged.get j = none
  staged : s'.staged.get j = s.staged.get j ∨ s'.staged.get j = none ∧
    ∃ host, (.staged j, host) ∈ visited ∧ Over host wall monotonic s j
  observation : s'.observations.get j = none ∨
    s'.observations.get j = s.observations.get j ∨
    ∃ lease, Sees visited s j lease ∧
      s'.observations.get j = some ⟨lease.owner, lease.renewSeq, monotonic⟩
  read : ∀ lease, Reads visited s j lease → s'.staged.get j = none ∨
    j ∈ live ∧ s'.observations.get j = some (observe (s.observations.get j) lease monotonic)
  unvisited : (∀ host, (EntryName.staged j, host) ∉ visited) → (s'.staged.get j).isSome →
    s'.observations.get j = s.observations.get j

/-! ## One visit -/

theorem lease_congr (h : s'.sidecars.get id = s.sidecars.get id) :
    s'.lease host id = s.lease host id := by
  rw [Store.lease, Store.lease, h]

theorem observe_observe {observed : Option Observation} {lease : Lease} :
    observe (some (observe observed lease monotonic)) lease monotonic =
      observe observed lease monotonic := by
  unfold observe
  rcases observed with _ | held
  · simp
  · dsimp only
    split_ifs <;> simp

/-- What is observed of a lease is new, or of the same owner and renewal as before. -/
theorem observe_cases (observed : Option Observation) (lease : Lease) (monotonic : ℕ) :
    some (observe observed lease monotonic) = observed ∨
      observe observed lease monotonic = ⟨lease.owner, lease.renewSeq, monotonic⟩ := by
  unfold observe
  rcases observed with _ | held
  · exact .inr rfl
  · dsimp only
    split_ifs
    · exact .inl rfl
    · exact .inr rfl

theorem observe_of_ne {observed : Option Observation} {lease : Lease}
    (h : ∀ held, observed = some held → held.renewSeq ≠ lease.renewSeq) :
    observe observed lease monotonic = ⟨lease.owner, lease.renewSeq, monotonic⟩ := by
  unfold observe
  rcases observed with _ | held
  · rfl
  · exact if_neg fun hsame ↦ h held rfl hsame.2

theorem Sees.mono {visited visited' : List (EntryName × Host)} {lease : Lease}
    (h : Sees visited s j lease) (hsub : visited ⊆ visited') : Sees visited' s j lease := by
  obtain ⟨host, hmem, hstaged, hread⟩ := h
  exact ⟨host, hsub hmem, hstaged, hread⟩

/-- A visit that leaves an upload as it is. -/
theorem SweptAt.of_same {s₀ : Store} {visited visited' : List (EntryName × Host)}
    {live live' : List UploadId} (h : SweptAt wall monotonic s₀ visited live s j)
    (hstaged : s'.staged.get j = s.staged.get j)
    (hsidecar : s'.sidecars.get j = s.sidecars.get j)
    (hobservation : s'.observations.get j = s.observations.get j)
    (hvisited : visited ⊆ visited') (hlive : live ⊆ live')
    (hnew : ∀ host, (.staged j, host) ∈ visited' → (.staged j, host) ∈ visited) :
    SweptAt wall monotonic s₀ visited' live' s' j := by
  refine ⟨?_, ?_, ?_, fun lease hreads ↦ ?_, fun hnone hsome ↦ ?_⟩
  · rw [hsidecar, hstaged]
    exact h.sidecar
  · rw [hstaged]
    exact h.staged.imp_right fun ⟨hnone, host, hmem, hover⟩ ↦ ⟨hnone, host, hvisited hmem, hover⟩
  · rw [hobservation]
    exact h.observation.imp_right (.imp_right fun ⟨lease, hsees, heq⟩ ↦
      ⟨lease, hsees.mono hvisited, heq⟩)
  · obtain ⟨⟨host, hmem⟩, hall⟩ := hreads
    rw [hstaged, hobservation]
    have hreads : Reads visited s₀ j lease :=
      ⟨⟨host, hnew host hmem⟩, fun host hmem ↦ hall host (hvisited hmem)⟩
    exact (h.read lease hreads).imp_right fun ⟨hlive', heq⟩ ↦ ⟨hlive hlive', heq⟩
  · rw [hobservation]
    exact h.unvisited (fun host hmem ↦ hnone host (hvisited hmem)) (hstaged ▸ hsome)

/-- A visit to another entry leaves an upload as it is. -/
theorem Visited.get_eq (h : Visited host id wall monotonic s s') (hj : j ≠ id) :
    s'.staged.get j = s.staged.get j ∧ s'.sidecars.get j = s.sidecars.get j ∧
      s'.observations.get j = s.observations.get j := by
  rcases h with _ | _ | _ | ⟨s', -, -, hremoved⟩
  · exact ⟨rfl, rfl, rfl⟩
  · refine ⟨rfl, rfl, ?_⟩
    rw [forget, OrderedMap.get_erase, if_neg hj]
  · refine ⟨rfl, rfl, ?_⟩
    rw [observing, OrderedMap.get_insert, if_neg hj]
  · refine ⟨?_, ?_, ?_⟩
    · rw [hremoved.staged, OrderedMap.get_erase, if_neg hj]
    · rcases hremoved.sidecar with ⟨heq, -⟩ | ⟨heq, -⟩
      · rw [heq]
      · rw [heq, OrderedMap.get_erase, if_neg hj]
    · rw [hremoved.observation, if_neg hj]

/-- A lease found over in the middle of a sweep was over when the sweep began. -/
theorem Over.of_swept {s₀ : Store} {visited : List (EntryName × Host)} {live : List UploadId}
    (h : SweptAt wall monotonic s₀ visited live s id)
    (hsidecar : s.sidecars.get id = s₀.sidecars.get id)
    (hover : Over host wall monotonic s id) : Over host wall monotonic s₀ id := by
  rw [Over, lease_congr hsidecar] at hover
  rcases hover with ⟨lease, hread, hwindow | hwall⟩ | hmissing
  · obtain ⟨held, hheld, howner, hseq, hsince⟩ := hwindow
    rcases h.observation with hnone | hsame | ⟨lease', -, hnew⟩
    · rw [hnone] at hheld
      cases hheld
    · exact .inl ⟨lease, hread, .inl ⟨held, hsame ▸ hheld, howner, hseq, hsince⟩⟩
    · -- what this sweep has observed is not old enough for it
      obtain rfl : _ = held := Option.some.inj (hnew.symm.trans hheld)
      simp at hsince
  · exact .inl ⟨lease, hread, .inr hwall⟩
  · exact .inr hmissing

/-- A visit to the upload. -/
theorem SweptAt.visit {s₀ : Store} {visited : List (EntryName × Host)} {live : List UploadId}
    (h : SweptAt wall monotonic s₀ visited live s id)
    (hvisit : Visited host id wall monotonic s s') :
    SweptAt wall monotonic s₀ (visited ++ [(.staged id, host)])
      (if isLive host id s then id :: live else live) s' id := by
  have hsub : visited ⊆ visited ++ [(.staged id, host)] := List.subset_append_left _ _
  have hself : (EntryName.staged id, host) ∈ visited ++ [(.staged id, host)] :=
    List.mem_append_right _ (List.mem_singleton.mpr rfl)
  have hsidecar : (s.staged.get id).isSome → s.sidecars.get id = s₀.sidecars.get id := by
    intro hsome
    rcases h.sidecar with heq | ⟨-, hnone⟩
    · exact heq
    · simp [hnone] at hsome
  have hstaged : (s.staged.get id).isSome → s.staged.get id = s₀.staged.get id := by
    intro hsome
    rcases h.staged with heq | ⟨hnone, -⟩
    · exact heq
    · simp [hnone] at hsome
  have hstaged' := h.staged.imp_right fun ⟨hnone, host', hmem, hover⟩ ↦
    (⟨hnone, host', hsub hmem, hover⟩ : s.staged.get id = none ∧
      ∃ host', (EntryName.staged id, host') ∈ visited ++ [(EntryName.staged id, host)] ∧
        Over host' wall monotonic s₀ id)
  -- the visits so far all read the lease if those with this one do
  have hreads : ∀ lease, Reads (visited ++ [(.staged id, host)]) s₀ id lease →
      host.fails .openStaged = false ∧ s₀.lease host id = .ok (some lease) := by
    intro lease hreads
    exact hreads.2 host hself
  rcases hvisit with huntouched | hunread | ⟨lease, hsome, hread⟩ | ⟨s', hsome, hover, hremoved⟩
  · refine ⟨h.sidecar, hstaged', h.observation.imp_right (.imp_right fun ⟨lease, hsees, heq⟩ ↦
      ⟨lease, hsees.mono hsub, heq⟩), fun lease hall ↦ ?_, fun hnone ↦ absurd hself (hnone host)⟩
    rcases huntouched with hfails | hnone
    · rw [(hreads lease hall).1] at hfails
      cases hfails
    · exact .inl hnone
  · have hforgotten : (forget id s).observations.get id = none := by
      rw [forget, OrderedMap.get_erase, if_pos rfl]
    refine ⟨h.sidecar, hstaged', .inl hforgotten, fun lease hall ↦ ?_,
      fun hnone ↦ absurd hself (hnone host)⟩
    rcases hfile : s.staged.get id with _ | file
    · exact .inl hfile
    · have hsome : (s.staged.get id).isSome := by rw [hfile]; rfl
      refine absurd ?_ (hunread lease)
      rw [lease_congr (hsidecar hsome)]
      exact (hreads lease hall).2
  · have hobserved : (observing id lease monotonic s).observations.get id =
        some (observe (s.observations.get id) lease monotonic) := by
      rw [observing, OrderedMap.get_insert, if_pos rfl]
    have hsees : Sees (visited ++ [(.staged id, host)]) s₀ id lease := by
      refine ⟨host, hself, hstaged hsome ▸ hsome, ?_⟩
      rw [← lease_congr (hsidecar hsome)]
      exact hread
    refine ⟨h.sidecar, hstaged', .inr ?_, fun lease' hall ↦ ?_,
      fun hnone ↦ absurd hself (hnone host)⟩
    · rw [hobserved]
      rcases observe_cases (s.observations.get id) lease monotonic with hsame | hnew
      · rw [hsame]
        rcases h.observation with hnone | heq | ⟨lease', hsees', heq⟩
        · rw [hnone] at hsame
          cases hsame
        · exact .inl heq
        · exact .inr ⟨lease', hsees'.mono hsub, heq⟩
      · exact .inr ⟨lease, hsees, congrArg some hnew⟩
    · have hlive : isLive host id s = true := by
        rw [isLive, (hreads lease' hall).1, hsome]
        rfl
      obtain rfl : lease = lease' := by
        have heq := (lease_congr (hsidecar hsome)).symm.trans hread
        rw [(hreads lease' hall).2] at heq
        simpa using heq.symm
      refine .inr ⟨by rw [if_pos hlive]; exact List.mem_cons_self, ?_⟩
      rw [hobserved]
      -- an earlier visit has observed the same lease, or the observation is still the old one
      by_cases hearlier : ∃ host', (EntryName.staged id, host') ∈ visited
      · have hall' : Reads visited s₀ id lease :=
          ⟨hearlier, fun host' hmem ↦ hall.2 host' (hsub hmem)⟩
        rcases h.read lease hall' with hnone | ⟨-, heq⟩
        · simp [hnone] at hsome
        · rw [heq, observe_observe]
      · rw [h.unvisited (fun host' hmem ↦ hearlier ⟨host', hmem⟩) hsome]
  · refine ⟨?_, .inr ⟨?_, host, hself, hover.of_swept h (hsidecar hsome)⟩, .inl ?_,
      fun _ _ ↦ .inl ?_, fun hnone ↦ absurd hself (hnone host)⟩
    · rcases hremoved.sidecar with ⟨heq, -⟩ | ⟨heq, -⟩
      · rw [heq]
        exact .inl (hsidecar hsome)
      · refine .inr ⟨?_, ?_⟩
        · rw [heq, OrderedMap.get_erase, if_pos rfl]
        · rw [hremoved.staged, OrderedMap.get_erase, if_pos rfl]
    · rw [hremoved.staged, OrderedMap.get_erase, if_pos rfl]
    · rw [hremoved.observation, if_pos rfl]
    · rw [hremoved.staged, OrderedMap.get_erase, if_pos rfl]

/-- A visit to the sidecar, which takes the upload to have lost its staged file. -/
theorem SweptAt.visitSidecar {s₀ : Store} {visited : List (EntryName × Host)}
    {live : List UploadId} (h : SweptAt wall monotonic s₀ visited live s id)
    (hnone : s.staged.get id = none) (hstaged : s'.staged = s.staged)
    (hsidecar : s'.sidecars.get id = s.sidecars.get id ∨ s'.sidecars.get id = none)
    (hobservation : s'.observations.get id = none) :
    SweptAt wall monotonic s₀ visited live s' id := by
  have hgone : s'.staged.get id = none := by rw [hstaged, hnone]
  refine ⟨?_, ?_, .inl hobservation, fun _ _ ↦ .inl hgone, fun _ hsome ↦ ?_⟩
  · rcases hsidecar with heq | hnone'
    · rw [heq, hstaged]
      exact h.sidecar
    · exact .inr ⟨hnone', hgone⟩
  · rw [hstaged]
    exact h.staged
  · simp [hgone] at hsome

/-! ## The order of the unlinks -/

theorem InOrder.refl (s : Store) : InOrder s s [] where
  trace := rfl
  gone := fun _ ↦ .inl
  order := by simp

theorem InOrder.of_same {s₀ : Store} {unlinked : List Removal} (h : InOrder s₀ s unlinked)
    (hstaged : s'.staged = s.staged) (hunlinked : s'.unlinked = s.unlinked) :
    InOrder s₀ s' unlinked where
  trace := by rw [hunlinked, h.trace]
  gone := fun j hnone ↦ h.gone j (hstaged ▸ hnone)
  order := h.order

theorem InOrder.staged {s₀ : Store} {unlinked : List Removal} (h : InOrder s₀ s unlinked)
    (hstaged : s'.staged = s.staged.erase id) (hunlinked : s'.unlinked = .staged id :: s.unlinked) :
    InOrder s₀ s' (.staged id :: unlinked) where
  trace := by rw [hunlinked, h.trace, List.cons_append]
  gone := by
    intro j hnone
    rw [hstaged, OrderedMap.get_erase] at hnone
    split_ifs at hnone with hj
    · exact .inr (hj ▸ List.mem_cons_self)
    · exact (h.gone j hnone).imp_right (List.mem_cons_of_mem _)
  order := by
    intro later earlier j heq
    rcases later with _ | ⟨_, later⟩
    · cases heq
    · exact h.order later earlier j (List.cons.inj heq).2

theorem InOrder.lease {s₀ : Store} {unlinked : List Removal} (h : InOrder s₀ s unlinked)
    (hnone : s.staged.get id = none) (hstaged : s'.staged = s.staged)
    (hunlinked : s'.unlinked = .lease id :: s.unlinked) :
    InOrder s₀ s' (.lease id :: unlinked) where
  trace := by rw [hunlinked, h.trace, List.cons_append]
  gone := fun j hgone ↦ (h.gone j (hstaged ▸ hgone)).imp_right (List.mem_cons_of_mem _)
  order := by
    intro later earlier j heq
    rcases later with _ | ⟨_, later⟩
    · obtain ⟨hlease, rfl⟩ := List.cons.inj heq
      obtain rfl := Removal.lease.inj hlease
      exact h.gone id hnone
    · exact h.order later earlier j (List.cons.inj heq).2

theorem InOrder.visit {s₀ : Store} {unlinked : List Removal} (h : InOrder s₀ s unlinked)
    (hvisit : Visited host id wall monotonic s s') : ∃ unlinked', InOrder s₀ s' unlinked' := by
  rcases hvisit with _ | _ | _ | ⟨s', -, -, hremoved⟩
  · exact ⟨_, h⟩
  · exact ⟨_, h.of_same rfl rfl⟩
  · exact ⟨_, h.of_same rfl rfl⟩
  · rcases hremoved.sidecar with ⟨-, hunlinked⟩ | ⟨-, hunlinked⟩
    · exact ⟨_, h.staged hremoved.staged hunlinked⟩
    · have hfirst : InOrder s₀ (dropStaged id s) (.staged id :: unlinked) := h.staged rfl rfl
      refine ⟨_, hfirst.lease ?_ hremoved.staged hunlinked⟩
      rw [dropStaged, OrderedMap.get_erase, if_pos rfl]

/-! ## All visits -/

/-- What a sweep begun at `s` has done after some visits. -/
structure Swept (wall : ℤ) (monotonic : ℕ) (s : Store) (visited : List (EntryName × Host))
    (sweep : Sweep) : Prop where
  upload : ∀ j, SweptAt wall monotonic s visited sweep.live sweep.store j
  inOrder : ∃ unlinked, InOrder s sweep.store unlinked

theorem Swept.start (s : Store) : Swept wall monotonic s [] (.start s) where
  upload := by
    intro j
    refine ⟨.inl rfl, .inl rfl, .inr (.inl rfl), ?_, fun _ _ ↦ rfl⟩
    rintro lease ⟨⟨host, hmem⟩, -⟩
    cases hmem
  inOrder := ⟨[], .refl s⟩

theorem Sweep.record_store (sweep : Sweep) (live : List UploadId)
    (result : Except StorageError Bool × Store) :
    (sweep.record live result).store = result.2 ∧ (sweep.record live result).live = live := by
  rcases result with ⟨_ | _, _⟩ <;> exact ⟨rfl, rfl⟩

theorem visited_sweepStaged (host : Host) (id : UploadId) (wall : ℤ) (monotonic : ℕ) (s : Store) :
    Visited host id wall monotonic s (sweepStaged host id wall monotonic s).2 :=
  ends_sweepStaged.result (R := fun result ↦ Visited host id wall monotonic s result.2)

/-- **A visit keeps what is known of the sweep.** -/
theorem Swept.visit {s₀ : Store} {visited : List (EntryName × Host)} {sweep : Sweep}
    (h : Swept wall monotonic s₀ visited sweep) (entry : EntryName × Host) :
    Swept wall monotonic s₀ (visited ++ [entry]) (sweep.visit wall monotonic entry) := by
  have hsub : visited ⊆ visited ++ [entry] := List.subset_append_left _ _
  obtain ⟨unlinked, horder⟩ := h.inOrder
  -- an entry of another upload adds no visit to this one
  have hother : ∀ j, (∀ host, entry ≠ (.staged j, host)) → ∀ host,
      (EntryName.staged j, host) ∈ visited ++ [entry] → (EntryName.staged j, host) ∈ visited := by
    intro j hne host hmem
    rcases List.mem_append.mp hmem with hmem | hmem
    · exact hmem
    · exact absurd (List.mem_singleton.mp hmem).symm (hne host)
  obtain ⟨name, host⟩ := entry
  cases name with
  | other =>
    refine ⟨fun j ↦ ?_, ⟨unlinked, horder⟩⟩
    exact (h.upload j).of_same rfl rfl rfl hsub (List.Subset.refl _) (hother j (by simp))
  | staged id =>
    have hvisit := visited_sweepStaged host id wall monotonic sweep.store
    obtain ⟨hstore, hlive⟩ := sweep.record_store
      (if isLive host id sweep.store then id :: sweep.live else sweep.live)
      (sweepStaged host id wall monotonic sweep.store)
    rw [Sweep.visit]
    refine ⟨fun j ↦ ?_, ?_⟩
    · rw [hstore, hlive]
      by_cases hj : j = id
      · subst hj
        exact (h.upload j).visit hvisit
      · obtain ⟨hstaged, hsidecar, hobservation⟩ := hvisit.get_eq hj
        refine (h.upload j).of_same hstaged hsidecar hobservation hsub ?_ (hother j ?_)
        · split_ifs
          · exact List.subset_cons_self _ _
          · exact List.Subset.refl _
        · rintro host heq
          exact hj (EntryName.staged.inj (Prod.mk.inj heq).1).symm
    · rw [hstore]
      exact horder.visit hvisit
  | lease id =>
    rw [Sweep.visit]
    obtain ⟨hstore, hlive⟩ := sweep.record_store sweep.live
      ((sweepSidecar host id >>= fun _ ↦ pure false) sweep.store)
    have hkeep : Swept wall monotonic s₀ (visited ++ [(.lease id, host)]) sweep :=
      ⟨fun j ↦ (h.upload j).of_same rfl rfl rfl hsub (List.Subset.refl _) (hother j (by simp)),
        h.inOrder⟩
    suffices hends : Ends (sweepSidecar host id >>= fun _ ↦ pure false) sweep.store
        (fun _ s' ↦ Swept wall monotonic s₀ (visited ++ [(.lease id, host)])
          { sweep with store := s' })
        (fun _ s' ↦ Swept wall monotonic s₀ (visited ++ [(.lease id, host)])
          { sweep with store := s' }) by
      have hresult := hends.result (R := fun result ↦
        Swept wall monotonic s₀ (visited ++ [(.lease id, host)]) { sweep with store := result.2 })
      refine ⟨fun j ↦ ?_, ?_⟩
      · rw [hstore, hlive]
        exact hresult.upload j
      · rw [hstore]
        exact hresult.inOrder
    simp only [ends_bind, ends_pure]
    refine ends_sweepSidecar hkeep (fun hnone ↦ ⟨fun j ↦ ?_, ?_⟩) fun hnone ↦ ⟨fun j ↦ ?_, ?_⟩
    · by_cases hj : j = id
      · subst hj
        refine (hkeep.upload j).visitSidecar hnone rfl (.inl rfl) ?_
        rw [forget, OrderedMap.get_erase, if_pos rfl]
      · refine (hkeep.upload j).of_same rfl rfl ?_ (List.Subset.refl _) (List.Subset.refl _)
          fun _ hmem ↦ hmem
        show (forget id sweep.store).observations.get j = _
        rw [forget, OrderedMap.get_erase, if_neg hj]
    · exact ⟨unlinked, horder.of_same rfl rfl⟩
    · by_cases hj : j = id
      · subst hj
        refine (hkeep.upload j).visitSidecar hnone rfl (.inr ?_) ?_
        · show (dropSidecar j (forget j sweep.store)).sidecars.get j = none
          rw [dropSidecar, OrderedMap.get_erase, if_pos rfl]
        · show (forget j sweep.store).observations.get j = none
          rw [forget, OrderedMap.get_erase, if_pos rfl]
      · refine (hkeep.upload j).of_same rfl ?_ ?_ (List.Subset.refl _) (List.Subset.refl _)
          fun _ hmem ↦ hmem
        · show (dropSidecar id (forget id sweep.store)).sidecars.get j = _
          rw [dropSidecar, OrderedMap.get_erase, if_neg hj]
          rfl
        · show (forget id sweep.store).observations.get j = _
          rw [forget, OrderedMap.get_erase, if_neg hj]
    · have hforgotten : InOrder s₀ (forget id sweep.store) unlinked := horder.of_same rfl rfl
      exact ⟨_, hforgotten.lease hnone rfl rfl⟩

theorem swept_foldl {s₀ : Store} {sweep : Sweep} {visited : List (EntryName × Host)}
    (h : Swept wall monotonic s₀ visited sweep) (listing : List (EntryName × Host)) :
    Swept wall monotonic s₀ (visited ++ listing)
      (listing.foldl (Sweep.visit wall monotonic) sweep) := by
  induction listing generalizing visited sweep with
  | nil => simpa using h
  | cons entry listing ih => simpa using ih (h.visit entry)

/-- **What a whole pass over a listing does.** -/
theorem swept_sweepEntries (wall : ℤ) (monotonic : ℕ) (listing : List (EntryName × Host))
    (s : Store) : Swept wall monotonic s listing (sweepEntries wall monotonic listing s) := by
  rw [sweepEntries, ← List.nil_append listing]
  exact swept_foldl (.start s) listing

end Khive.Blob
