import Khive.Foundation.Descent
import Khive.Foundation.SortedMap
import Khive.Types.Edge

/-!
# Live grants

A grant is live when its parents lead over valid grants to a valid anchor. The walk over them is
bounded by the size of the table and not by an order of the ids, since anchors have high ids and
grants low ones. That is enough: the parent pointers are a partial function, so a walk that arrives
has passed every id at most once.
-/

namespace Khive.Liveness

/-- `CapId`. -/
abbrev CapId := Id128

/-- `PRIVATE_ID_START`. -/
def privateIdStart : CapId := ⟨2 ^ 127, by norm_num⟩

/-- `CapId::MAX`. -/
def capIdMax : CapId := ⟨2 ^ 128 - 1, by norm_num⟩

/-- The fields of a capability that decide its liveness. -/
structure Capability where
  parent : Option CapId
  valid : Bool
deriving DecidableEq

/-- The capability table of the kernel, sorted by id and without duplicates. -/
structure RevocationState where
  caps : OrderedMap CapId Capability

namespace RevocationState

def get (state : RevocationState) (capId : CapId) : Option Capability := state.caps.get capId

def capCount (state : RevocationState) : ℕ := state.caps.entries.length

/-- `RevocationState::revoke`: the entry stays, and it is no longer valid. -/
def revoke (state : RevocationState) (capId : CapId) : RevocationState where
  caps :=
    { entries := state.caps.entries.map fun e ↦
        if e.1 = capId then (e.1, { e.2 with valid := false }) else e
      sorted := by
        refine List.pairwise_map.mpr (state.caps.sorted.imp fun {e f} hlt ↦ ?_)
        split_ifs <;> exact hlt }

end RevocationState

section Walk

variable (state : RevocationState) (anchors : Finset CapId)

/-- The loop of `chain_is_live`, with the rounds left. -/
def walk : ℕ → CapId → Bool
  | 0, _ => false
  | rounds + 1, current =>
    match state.get current with
    | none => false
    | some cap =>
      if !cap.valid then false
      else if current ∈ anchors then
        decide (privateIdStart ≤ current) && decide (current ≠ capIdMax) && cap.parent.isNone
      else if privateIdStart ≤ current then false
      else
        match cap.parent with
        | some parent => walk rounds parent
        | none => false

/-- `chain_is_live`. -/
def chainIsLive (capId : CapId) : Bool :=
  if privateIdStart ≤ capId then false else walk state anchors state.capCount capId

/-! ## Chains to an anchor -/

/-- The parent pointer of an entry. -/
def parentOf (capId : CapId) : Option CapId := (state.get capId).bind Capability.parent

/-- The capability is present and valid. -/
def Holds (capId : CapId) : Prop := ∃ cap, state.get capId = some cap ∧ cap.valid = true

/-- What stands at the end of a live chain. -/
structure IsAnchor (capId : CapId) : Prop where
  anchored : capId ∈ anchors
  start_le : privateIdStart ≤ capId
  lt_max : capId < capIdMax
  root : parentOf state capId = none

/-- What stands before the end of a live chain. -/
structure IsGrant (capId : CapId) : Prop where
  lt_start : capId < privateIdStart
  not_anchored : capId ∉ anchors

/-- A finite parent chain of valid capabilities: grants first, and an anchor at the end. -/
structure LiveChain (chain : List CapId) : Prop where
  holds : ∀ capId ∈ chain, Holds state capId
  linked : chain.IsChain fun capId parent ↦ parentOf state capId = some parent
  grants : ∀ capId ∈ chain.dropLast, IsGrant anchors capId
  anchor : ∃ last ∈ chain.getLast?, IsAnchor state anchors last

end Walk

section Chain

variable {state : RevocationState} {anchors : Finset CapId} {a b : CapId} {chain : List CapId}

theorem liveChain_singleton :
    LiveChain state anchors [a] ↔ Holds state a ∧ IsAnchor state anchors a := by
  constructor
  · rintro ⟨hholds, -, -, last, hlast, hanchor⟩
    obtain rfl : a = last := Option.some.inj hlast
    exact ⟨hholds a List.mem_cons_self, hanchor⟩
  · rintro ⟨hholds, hanchor⟩
    refine ⟨fun capId h ↦ ?_, List.isChain_singleton a, nofun, a, rfl, hanchor⟩
    rwa [List.mem_singleton.mp h]

theorem liveChain_cons_cons :
    LiveChain state anchors (a :: b :: chain) ↔
      Holds state a ∧ IsGrant anchors a ∧ parentOf state a = some b ∧
        LiveChain state anchors (b :: chain) := by
  constructor
  · rintro ⟨hholds, hlinked, hgrants, last, hlast, hanchor⟩
    rw [List.isChain_cons_cons] at hlinked
    rw [List.dropLast_cons_cons] at hgrants
    rw [List.getLast?_cons_cons] at hlast
    refine ⟨hholds a List.mem_cons_self, hgrants a List.mem_cons_self, hlinked.1, ?_⟩
    exact ⟨fun c h ↦ hholds c (List.mem_cons_of_mem a h), hlinked.2,
      fun c h ↦ hgrants c (List.mem_cons_of_mem a h), last, hlast, hanchor⟩
  · rintro ⟨hholds, hgrant, hparent, htail⟩
    obtain ⟨last, hlast, hanchor⟩ := htail.anchor
    refine ⟨List.forall_mem_cons.mpr ⟨hholds, htail.holds⟩,
      List.isChain_cons_cons.mpr ⟨hparent, htail.linked⟩, ?_, last, ?_, hanchor⟩
    · rw [List.dropLast_cons_cons]
      exact List.forall_mem_cons.mpr ⟨hgrant, htail.grants⟩
    · rwa [List.getLast?_cons_cons]

namespace LiveChain

theorem ne_nil (h : LiveChain state anchors chain) : chain ≠ [] := by
  rintro rfl
  obtain ⟨last, hlast, -⟩ := h.anchor
  cases hlast

theorem descends (h : LiveChain state anchors chain) : Descends (parentOf state) chain := by
  induction chain with
  | nil => exact absurd rfl h.ne_nil
  | cons a chain ih =>
    cases chain with
    | nil => exact (liveChain_singleton.mp h).2.root
    | cons b chain =>
      obtain ⟨-, -, hparent, htail⟩ := liveChain_cons_cons.mp h
      exact ⟨hparent, ih htail⟩

/-- A chain has at most as many members as the table has entries. -/
theorem length_le (h : LiveChain state anchors chain) : chain.length ≤ state.capCount := by
  have hkeys : (state.caps.entries.map Prod.fst).length = state.capCount := List.length_map _
  rw [← hkeys]
  refine (List.subperm_of_subset h.descends.nodup fun capId hmem ↦ ?_).length_le
  obtain ⟨cap, hcap, -⟩ := h.holds capId hmem
  exact OrderedMap.mem_keys.mpr (Option.isSome_of_mem hcap)

end LiveChain

/-! ## The walk -/

theorem ne_capIdMax_iff : a ≠ capIdMax ↔ a < capIdMax := by
  have hle : a ≤ capIdMax := Fin.le_def.mpr (Nat.le_pred_of_lt a.isLt)
  exact hle.lt_iff_ne.symm

/-- One round: the walk stops at an anchor and goes on from a grant. -/
theorem walk_succ_eq_true_iff (rounds : ℕ) :
    walk state anchors (rounds + 1) a = true ↔
      Holds state a ∧ (IsAnchor state anchors a ∨
        IsGrant anchors a ∧ ∃ b, parentOf state a = some b ∧
          walk state anchors rounds b = true) := by
  rw [walk]
  cases hget : state.get a with
  | none =>
    refine iff_of_false Bool.false_ne_true ?_
    rintro ⟨⟨cap, hcap, -⟩, -⟩
    cases hget.symm.trans hcap
  | some cap =>
    have hparent : parentOf state a = cap.parent := by rw [parentOf, hget]; rfl
    have hholds : Holds state a ↔ cap.valid = true := by simp [Holds, hget]
    have hanchor : IsAnchor state anchors a ↔
        a ∈ anchors ∧ privateIdStart ≤ a ∧ a < capIdMax ∧ cap.parent = none := by
      rw [← hparent]
      exact ⟨fun h ↦ ⟨h.1, h.2, h.3, h.4⟩, fun h ↦ ⟨h.1, h.2.1, h.2.2.1, h.2.2.2⟩⟩
    have hgrant : IsGrant anchors a ↔ a < privateIdStart ∧ a ∉ anchors :=
      ⟨fun h ↦ ⟨h.1, h.2⟩, fun h ↦ ⟨h.1, h.2⟩⟩
    rw [hholds, hanchor, hgrant, hparent]
    by_cases hvalid : cap.valid = true
    · by_cases hmem : a ∈ anchors
      · simp [hvalid, hmem, ne_capIdMax_iff, and_assoc]
      · by_cases hstart : privateIdStart ≤ a
        · simp [hvalid, hmem, hstart, not_lt.mpr hstart]
        · cases hcap : cap.parent <;> simp [hvalid, hmem, hstart, not_le.mp hstart, hcap]
    · simp [hvalid]

/-- The loop arrives exactly when a live chain is no longer than the rounds left. -/
theorem walk_eq_true_iff (rounds : ℕ) :
    walk state anchors rounds a = true ↔
      ∃ chain, (a :: chain).length ≤ rounds ∧ LiveChain state anchors (a :: chain) := by
  induction rounds generalizing a with
  | zero => simp [walk]
  | succ rounds ih =>
    rw [walk_succ_eq_true_iff]
    constructor
    · rintro ⟨hholds, hanchor | ⟨hgrant, b, hparent, hwalk⟩⟩
      · exact ⟨[], Nat.succ_le_succ rounds.zero_le, liveChain_singleton.mpr ⟨hholds, hanchor⟩⟩
      · obtain ⟨chain, hlen, hchain⟩ := ih.mp hwalk
        exact ⟨b :: chain, Nat.succ_le_succ hlen,
          liveChain_cons_cons.mpr ⟨hholds, hgrant, hparent, hchain⟩⟩
    · rintro ⟨chain, hlen, hchain⟩
      cases chain with
      | nil =>
        obtain ⟨hholds, hanchor⟩ := liveChain_singleton.mp hchain
        exact ⟨hholds, Or.inl hanchor⟩
      | cons b chain =>
        obtain ⟨hholds, hgrant, hparent, htail⟩ := liveChain_cons_cons.mp hchain
        have hwalk := ih.mpr ⟨chain, Nat.le_of_succ_le_succ hlen, htail⟩
        exact ⟨hholds, Or.inr ⟨hgrant, b, hparent, hwalk⟩⟩

theorem chainIsLive_iff_exists_liveChain :
    chainIsLive state anchors a = true ↔
      a < privateIdStart ∧ ∃ chain, LiveChain state anchors (a :: chain) := by
  rw [chainIsLive]
  by_cases hstart : privateIdStart ≤ a
  · simp [hstart, not_lt.mpr hstart]
  · rw [if_neg hstart, walk_eq_true_iff]
    constructor
    · rintro ⟨chain, -, h⟩
      exact ⟨not_le.mp hstart, chain, h⟩
    · rintro ⟨-, chain, h⟩
      exact ⟨chain, h.length_le, h⟩

end Chain

/-- The walk is exact on the ids of grants, and its bound cuts off no chain. -/
theorem chainIsLive_iff (state : RevocationState) (anchors : Finset CapId) (capId : CapId) :
    (chainIsLive state anchors capId = true ↔
      capId < privateIdStart ∧
        ∃ chain, chain.head? = some capId ∧ LiveChain state anchors chain) ∧
      ∀ chain, LiveChain state anchors chain → chain.length ≤ state.capCount := by
  refine ⟨chainIsLive_iff_exists_liveChain.trans (and_congr_right fun _ ↦ ?_),
    fun chain h ↦ h.length_le⟩
  constructor
  · rintro ⟨chain, h⟩
    exact ⟨capId :: chain, rfl, h⟩
  · rintro ⟨_ | ⟨a, chain⟩, hhead, h⟩
    · cases hhead
    · obtain rfl : a = capId := Option.some.inj hhead
      exact ⟨chain, h⟩

/-- A table with one valid anchor in it. -/
def anchorTable : RevocationState :=
  ⟨OrderedMap.empty.insert privateIdStart ⟨none, true⟩⟩

/-- An anchor is at the end of its own chain and is not a live grant. -/
theorem not_chainIsLive_anchor :
    ¬(chainIsLive anchorTable {privateIdStart} privateIdStart = true ↔
      ∃ chain, chain.head? = some privateIdStart ∧
        LiveChain anchorTable {privateIdStart} chain) := by
  intro h
  have hchain : LiveChain anchorTable {privateIdStart} [privateIdStart] := by
    refine liveChain_singleton.mpr ⟨⟨⟨none, true⟩, by decide, rfl⟩, ?_⟩
    exact ⟨Finset.mem_singleton_self _, le_rfl, by decide, by decide⟩
  have hlive := h.mpr ⟨_, rfl, hchain⟩
  rw [chainIsLive, if_pos le_rfl] at hlive
  exact Bool.false_ne_true hlive

/-! ## Revocation -/

section Revoke

variable {state : RevocationState} {anchors : Finset CapId} {capId revoked : CapId}
  {chain : List CapId}

theorem get_revoke : (state.revoke revoked).get capId =
    if capId = revoked then (state.get capId).map fun cap ↦ { cap with valid := false }
    else state.get capId := by
  apply Option.ext
  intro cap
  split_ifs with heq
  · subst heq
    simp only [RevocationState.get, Option.map_eq_some_iff, OrderedMap.get_eq_some,
      RevocationState.revoke, List.mem_map, Prod.exists]
    constructor
    · rintro ⟨id, old, hmem, hentry⟩
      split_ifs at hentry with hid
      · obtain ⟨rfl, rfl⟩ := Prod.mk.inj hentry
        exact ⟨old, hmem, rfl⟩
      · exact absurd (Prod.mk.inj hentry).1 hid
    · rintro ⟨old, hmem, rfl⟩
      exact ⟨capId, old, hmem, if_pos rfl⟩
  · simp only [RevocationState.get, OrderedMap.get_eq_some, RevocationState.revoke, List.mem_map,
      Prod.exists]
    constructor
    · rintro ⟨id, old, hmem, hentry⟩
      split_ifs at hentry with hid
      · exact absurd ((Prod.mk.inj hentry).1.symm.trans hid) heq
      · obtain ⟨rfl, rfl⟩ := Prod.mk.inj hentry
        exact hmem
    · intro hmem
      exact ⟨capId, cap, hmem, if_neg heq⟩

theorem holds_revoke :
    Holds (state.revoke revoked) capId ↔ Holds state capId ∧ capId ≠ revoked := by
  rw [Holds, Holds, get_revoke]
  split_ifs with heq <;> simp [heq]

theorem parentOf_revoke : parentOf (state.revoke revoked) = parentOf state := by
  funext capId
  rw [parentOf, parentOf, get_revoke]
  split_ifs
  · cases state.get capId <;> rfl
  · rfl

/-- The chains that are left are those the revoked capability is not on. -/
theorem liveChain_revoke : LiveChain (state.revoke revoked) anchors chain ↔
    LiveChain state anchors chain ∧ revoked ∉ chain := by
  have hanchor : ∀ last, IsAnchor (state.revoke revoked) anchors last ↔
      IsAnchor state anchors last := by
    intro last
    constructor
    · rintro ⟨h₁, h₂, h₃, h₄⟩
      exact ⟨h₁, h₂, h₃, by rwa [parentOf_revoke] at h₄⟩
    · rintro ⟨h₁, h₂, h₃, h₄⟩
      exact ⟨h₁, h₂, h₃, by rwa [parentOf_revoke]⟩
  constructor
  · rintro ⟨hholds, hlinked, hgrants, last, hlast, h⟩
    rw [parentOf_revoke] at hlinked
    refine ⟨⟨fun c hc ↦ (holds_revoke.mp (hholds c hc)).1, hlinked, hgrants, last, hlast,
      (hanchor last).mp h⟩, fun hmem ↦ ?_⟩
    exact (holds_revoke.mp (hholds revoked hmem)).2 rfl
  · rintro ⟨⟨hholds, hlinked, hgrants, last, hlast, h⟩, hnot⟩
    rw [← @parentOf_revoke state revoked] at hlinked
    refine ⟨fun c hc ↦ holds_revoke.mpr ⟨hholds c hc, fun heq ↦ hnot (heq ▸ hc)⟩, hlinked, hgrants,
      last, hlast, (hanchor last).mpr h⟩

/-- Revoking one capability ends exactly the grants below it, valid as they may be themselves. -/
theorem chainIsLive_revoke : chainIsLive (state.revoke revoked) anchors capId = true ↔
    chainIsLive state anchors capId = true ∧
      ∀ chain, LiveChain state anchors (capId :: chain) → revoked ∉ capId :: chain := by
  simp only [chainIsLive_iff_exists_liveChain, liveChain_revoke]
  constructor
  · rintro ⟨hstart, chain, hchain, hnot⟩
    refine ⟨⟨hstart, chain, hchain⟩, fun others hothers ↦ ?_⟩
    rwa [← hchain.descends.unique hothers.descends]
  · rintro ⟨⟨hstart, chain, hchain⟩, hnot⟩
    exact ⟨hstart, chain, hchain, hnot chain hchain⟩

end Revoke

end Khive.Liveness
