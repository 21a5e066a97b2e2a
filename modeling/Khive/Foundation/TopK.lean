import Mathlib

/-!
# The best entries of a scan that prunes

The best `k` entries seen so far are kept in ascending order, so that the first of them is the one to
give way. An entry is *settled* when it is kept, or when all `k` kept ones are better: kept entries
only ever give way to better ones, so what is settled stays settled (`Settled.keep`).

A scan hands out documents with a score each. What is left of the score of a document only goes down;
while none of it is gone the document is still to come, and once some of it is gone the document has
to be settled. That is `Sound`, with two moves that keep it: documents whose rest is below the worst
kept score may be passed over (`Sound.skip`), and a document may be scored (`Sound.score`). When
nothing that is left can reach the threshold, the kept entries are the best `k` of all
(`Sound.finished`).
-/

namespace Khive.TopK

/-! ## Kept entries -/

section Kept

variable {α : Type} [LinearOrder α] {k : ℕ} {heap : List α} {a b : α}

/-- Push an entry; where there is no room, it takes the place of the worst one if it is better. -/
def keep (k : ℕ) (heap : List α) (a : α) : List α :=
  if k = 0 then heap
  else if heap.length < k then heap.orderedInsert (· ≤ ·) a
  else if (heap.head?.map fun worst ↦ decide (worst < a)).getD true then
    heap.tail.orderedInsert (· ≤ ·) a
  else heap

/-- There are `k` better entries. -/
def Beaten (k : ℕ) (heap : List α) (a : α) : Prop := heap.length = k ∧ ∀ b ∈ heap, a < b

def Settled (k : ℕ) (heap : List α) (a : α) : Prop := a ∈ heap ∨ Beaten k heap a

theorem pairwise_orderedInsert (hheap : heap.Pairwise (· < ·)) (ha : a ∉ heap) :
    (heap.orderedInsert (· ≤ ·) a).Pairwise (· < ·) := by
  have hle : (heap.orderedInsert (· ≤ ·) a).Pairwise (· ≤ ·) :=
    (hheap.imp le_of_lt).orderedInsert a heap
  have hnodup : (heap.orderedInsert (· ≤ ·) a).Nodup := by
    rw [(List.perm_orderedInsert (· ≤ ·) a heap).nodup_iff, List.nodup_cons]
    exact ⟨ha, hheap.imp ne_of_lt⟩
  exact hle.and hnodup |>.imp fun h ↦ lt_of_le_of_ne h.1 h.2

/-- What a push does, by the room there is. -/
theorem keep_cases (hlength : heap.length ≤ k) (a : α) :
    heap.length < k ∧ keep k heap a = heap.orderedInsert (· ≤ ·) a ∨
    (∃ worst rest, heap = worst :: rest ∧ heap.length = k ∧ worst < a ∧
      keep k heap a = rest.orderedInsert (· ≤ ·) a) ∨
    heap.length = k ∧ (∀ worst ∈ heap.head?, a ≤ worst) ∧ keep k heap a = heap := by
  by_cases hroom : heap.length < k
  · refine .inl ⟨hroom, ?_⟩
    rw [keep, if_neg (by omega), if_pos hroom]
  · have hfull : heap.length = k := by omega
    rcases heap with _ | ⟨worst, rest⟩
    · exact .inr (.inr ⟨hfull, by simp, if_pos hfull.symm⟩)
    · have hk : k ≠ 0 := by
        rintro rfl
        cases hfull
      by_cases hbetter : worst < a
      · refine .inr (.inl ⟨worst, rest, rfl, hfull, hbetter, ?_⟩)
        rw [keep, if_neg hk, if_neg hroom]
        exact if_pos (decide_eq_true hbetter)
      · refine .inr (.inr ⟨hfull, by simpa using hbetter, ?_⟩)
        rw [keep, if_neg hk, if_neg hroom]
        exact if_neg (by simpa using hbetter)

theorem length_keep (hlength : heap.length ≤ k) : (keep k heap a).length ≤ k := by
  rcases keep_cases hlength a with ⟨hroom, h⟩ | ⟨worst, rest, rfl, hfull, -, h⟩ | ⟨hfull, -, h⟩
  · rw [h, List.orderedInsert_length]
    exact hroom
  · rw [h, List.orderedInsert_length]
    exact hfull.le
  · rw [h]
    exact hlength

theorem mem_of_mem_keep (hlength : heap.length ≤ k) (h : b ∈ keep k heap a) : b = a ∨ b ∈ heap := by
  rcases keep_cases hlength a with ⟨-, heq⟩ | ⟨worst, rest, rfl, -, -, heq⟩ | ⟨-, -, heq⟩
  · rw [heq] at h
    exact (List.mem_orderedInsert _).mp h
  · rw [heq] at h
    exact ((List.mem_orderedInsert _).mp h).imp_right (List.mem_cons_of_mem _)
  · rw [heq] at h
    exact .inr h

theorem pairwise_keep (hheap : heap.Pairwise (· < ·)) (hlength : heap.length ≤ k) (ha : a ∉ heap) :
    (keep k heap a).Pairwise (· < ·) := by
  rcases keep_cases hlength a with ⟨-, h⟩ | ⟨worst, rest, rfl, -, -, h⟩ | ⟨-, -, h⟩
  · rw [h]
    exact pairwise_orderedInsert hheap ha
  · rw [h]
    exact pairwise_orderedInsert (List.pairwise_cons.mp hheap).2
      fun hmem ↦ ha (List.mem_cons_of_mem _ hmem)
  · rw [h]
    exact hheap

/-- An entry that has been pushed is settled. -/
theorem settled_keep (hheap : heap.Pairwise (· < ·)) (hlength : heap.length ≤ k) :
    Settled k (keep k heap a) a := by
  rcases keep_cases hlength a with ⟨-, h⟩ | ⟨worst, rest, rfl, -, -, h⟩ | ⟨hfull, hworst, h⟩
  · rw [h]
    exact .inl ((List.mem_orderedInsert _).mpr (.inl rfl))
  · rw [h]
    exact .inl ((List.mem_orderedInsert _).mpr (.inl rfl))
  · rw [h]
    rcases heap with _ | ⟨worst, rest⟩
    · exact .inr ⟨hfull, by simp⟩
    · rcases (hworst worst rfl).eq_or_lt with rfl | hlt
      · exact .inl List.mem_cons_self
      · refine .inr ⟨hfull, List.forall_mem_cons.mpr ⟨hlt, fun b hb ↦ ?_⟩⟩
        exact hlt.trans ((List.pairwise_cons.mp hheap).1 b hb)

/-- Entries only give way to better ones. -/
theorem beaten_replace {worst : α} {rest : List α} (hheap : (worst :: rest).Pairwise (· < ·))
    (hfull : (worst :: rest).length = k) (hbetter : worst < a) (hle : b ≤ worst) :
    Beaten k (rest.orderedInsert (· ≤ ·) a) b := by
  refine ⟨by rw [List.orderedInsert_length]; exact hfull, fun c hc ↦ ?_⟩
  rcases (List.mem_orderedInsert _).mp hc with rfl | hc
  · exact hle.trans_lt hbetter
  · exact hle.trans_lt ((List.pairwise_cons.mp hheap).1 c hc)

theorem Beaten.keep (h : Beaten k heap b) (hheap : heap.Pairwise (· < ·)) (a : α) :
    Beaten k (keep k heap a) b := by
  rcases keep_cases h.1.le a with ⟨hroom, -⟩ | ⟨worst, rest, rfl, hfull, hbetter, heq⟩ | ⟨-, -, heq⟩
  · exact absurd h.1 hroom.ne
  · rw [heq]
    exact beaten_replace hheap hfull hbetter (h.2 worst List.mem_cons_self).le
  · rw [heq]
    exact h

/-- **What is settled stays settled.** -/
theorem Settled.keep (h : Settled k heap b) (hheap : heap.Pairwise (· < ·))
    (hlength : heap.length ≤ k) (a : α) : Settled k (keep k heap a) b := by
  rcases h with hmem | hbeaten
  · rcases keep_cases hlength a with ⟨-, heq⟩ | ⟨worst, rest, rfl, hfull, hbetter, heq⟩ |
      ⟨-, -, heq⟩
    · rw [heq]
      exact .inl ((List.mem_orderedInsert _).mpr (.inr hmem))
    · rw [heq]
      rcases List.mem_cons.mp hmem with rfl | hmem
      · exact .inr (beaten_replace hheap hfull hbetter le_rfl)
      · exact .inl ((List.mem_orderedInsert _).mpr (.inr hmem))
    · rw [heq]
      exact .inl hmem
  · exact .inr (hbeaten.keep hheap a)

/-- The order in which results are listed, the best one first. -/
def best (entries : List α) : List α := entries.mergeSort fun a b ↦ decide (b ≤ a)

theorem pairwise_best (entries : List α) : (best entries).Pairwise (fun a b ↦ b ≤ a) := by
  refine (List.pairwise_mergeSort ?_ ?_ entries).imp fun h ↦ of_decide_eq_true h
  · intro a b c hab hbc
    exact decide_eq_true ((of_decide_eq_true hbc).trans (of_decide_eq_true hab))
  · intro a b
    simpa using le_total b a

theorem best_eq_of_perm {entries sorted : List α} (hperm : sorted.Perm entries)
    (hsorted : sorted.Pairwise (fun a b ↦ b ≤ a)) : best entries = sorted :=
  ((List.mergeSort_perm _ _).trans hperm.symm).eq_of_pairwise
    (fun _ _ _ _ hab hba ↦ le_antisymm hba hab) (pairwise_best entries) hsorted

/-- Where all entries are settled, the kept ones are the best. -/
theorem reverse_eq_take {entries : List α} (hentries : entries.Nodup)
    (hheap : heap.Pairwise (· < ·)) (hlength : heap.length ≤ k) (hmem : ∀ a ∈ heap, a ∈ entries)
    (hsettled : ∀ a ∈ entries, Settled k heap a) : heap.reverse = (best entries).take k := by
  let others := best (entries.filter (· ∉ heap))
  have hothers : ∀ a, a ∈ others ↔ a ∈ entries ∧ a ∉ heap := by
    intro a
    rw [show others = best _ from rfl, best, List.mem_mergeSort, List.mem_filter,
      decide_eq_true_iff]
  have hbelow : ∀ a ∈ others, heap.length = k ∧ ∀ b ∈ heap, a < b := by
    intro a ha
    obtain ⟨hin, hout⟩ := (hothers a).mp ha
    exact (hsettled a hin).resolve_left hout
  -- the kept entries and the others are all entries, and sorted as they stand
  have hperm : (heap.reverse ++ others).Perm (best entries) := by
    have hnodup : (heap.reverse ++ others).Nodup := by
      refine List.nodup_append.mpr ⟨List.nodup_reverse.mpr (hheap.imp ne_of_lt), ?_, ?_⟩
      · exact (List.mergeSort_perm _ _).nodup_iff.mpr (hentries.filter _)
      · rintro a ha b hb rfl
        exact ((hothers a).mp hb).2 (List.mem_reverse.mp ha)
    have hnodup' : (best entries).Nodup := (List.mergeSort_perm _ _).nodup_iff.mpr hentries
    refine (List.perm_ext_iff_of_nodup hnodup hnodup').mpr fun a ↦ ?_
    rw [List.mem_append, List.mem_reverse, hothers, best, List.mem_mergeSort]
    constructor
    · rintro (ha | ⟨ha, -⟩)
      · exact hmem a ha
      · exact ha
    · intro ha
      by_cases hin : a ∈ heap
      · exact .inl hin
      · exact .inr ⟨ha, hin⟩
  have hsorted : (heap.reverse ++ others).Pairwise (fun a b ↦ b ≤ a) := by
    refine List.pairwise_append.mpr ⟨?_, pairwise_best _, fun a ha b hb ↦ ?_⟩
    · exact List.pairwise_reverse.mpr (hheap.imp le_of_lt)
    · exact ((hbelow b hb).2 a (List.mem_reverse.mp ha)).le
  rw [best_eq_of_perm (hperm.trans (List.mergeSort_perm _ _)) hsorted]
  rcases hnone : others with _ | ⟨a, rest⟩
  · rw [List.append_nil, List.take_of_length_le (by rw [List.length_reverse]; exact hlength)]
  · -- something was left out, so the kept entries are as many as may be kept
    have hfull := (hbelow a (by rw [hnone]; exact List.mem_cons_self)).1
    rw [List.take_left' (by rw [List.length_reverse]; exact hfull)]

end Kept

/-! ## Scans -/

section Scan

variable {R : Type}

/-- A document with its score, the better the higher the score and then the lower its number. -/
abbrev Entry (R : Type) := R ×ₗ ℕᵒᵈ

namespace Entry

def of (score : R) (doc : ℕ) : Entry R := toLex (score, OrderDual.toDual doc)

def score (entry : Entry R) : R := (ofLex entry).1

def doc (entry : Entry R) : ℕ := OrderDual.ofDual (ofLex entry).2

variable [LinearOrder R]

theorem lt_of_score_lt {e e' : Entry R} (h : e.score < e'.score) : e < e' :=
  Prod.Lex.toLex_lt_toLex.mpr (.inl h)

theorem of_le_of {s t : R} (h : s ≤ t) (doc : ℕ) : of s doc ≤ of t doc := by
  rcases h.eq_or_lt with rfl | hlt
  · exact le_rfl
  · exact (lt_of_score_lt hlt).le

end Entry

variable [LinearOrder R] [Zero R]

/-- The score to reach: the worst kept one, once there are `k`. -/
def threshold (k : ℕ) (heap : List (Entry R)) : R :=
  if heap.length < k then 0 else (heap.head?.map Entry.score).getD 0

/-- **A scan on its way**: `total` is the score of each document and `rest` what is left of it. -/
structure Sound (k : ℕ) (total rest : ℕ → R) (heap : List (Entry R)) : Prop where
  nonneg : ∀ d, 0 ≤ rest d
  le : ∀ d, rest d ≤ total d
  sorted : heap.Pairwise (· < ·)
  length : heap.length ≤ k
  held : ∀ e ∈ heap, e = .of (total e.doc) e.doc ∧ 0 < total e.doc ∧ rest e.doc = 0
  settled : ∀ d, rest d = total d ∨ Settled k heap (.of (total d) d)

variable {k : ℕ} {total rest rest' : ℕ → R} {heap : List (Entry R)} {d : ℕ}

theorem Sound.start (hnonneg : ∀ d, 0 ≤ total d) : Sound k total total [] where
  nonneg := hnonneg
  le := fun _ ↦ le_rfl
  sorted := .nil
  length := Nat.zero_le k
  held := fun _ he ↦ absurd he List.not_mem_nil
  settled := fun _ ↦ .inl rfl

/-- A document that cannot reach the threshold is beaten. -/
theorem Sound.beaten_of_lt (h : Sound k total rest heap) (hrest : rest d = total d)
    (hlt : rest d < threshold k heap) : Beaten k heap (.of (total d) d) := by
  rw [threshold] at hlt
  split_ifs at hlt with hroom
  · exact absurd hlt (h.nonneg d).not_gt
  · rcases heap with _ | ⟨worst, others⟩
    · exact absurd hlt (h.nonneg d).not_gt
    · have hworst : Entry.of (total d) d < worst := Entry.lt_of_score_lt (hrest ▸ hlt)
      refine ⟨le_antisymm h.length (not_lt.mp hroom),
        List.forall_mem_cons.mpr ⟨hworst, fun e he ↦ ?_⟩⟩
      exact hworst.trans ((List.pairwise_cons.mp h.sorted).1 e he)

/-- **Passing over** documents whose rest is below the threshold. -/
theorem Sound.skip (h : Sound k total rest heap) (hnonneg : ∀ d, 0 ≤ rest' d)
    (hskip : ∀ d, rest' d = rest d ∨ rest' d ≤ rest d ∧ rest d < threshold k heap) :
    Sound k total rest' heap where
  nonneg := hnonneg
  le := fun d ↦ by
    rcases hskip d with heq | ⟨hle, -⟩
    · exact heq.trans_le (h.le d)
    · exact hle.trans (h.le d)
  sorted := h.sorted
  length := h.length
  held := fun e he ↦ by
    obtain ⟨heq, hpos, hgone⟩ := h.held e he
    refine ⟨heq, hpos, ?_⟩
    rcases hskip e.doc with hsame | ⟨hle, -⟩
    · exact hsame.trans hgone
    · exact le_antisymm (hle.trans hgone.le) (hnonneg e.doc)
  settled := fun d ↦ by
    rcases h.settled d with hrest | hsettled
    · rcases hskip d with hsame | ⟨-, hlt⟩
      · exact .inl (hsame.trans hrest)
      · exact .inr (.inr (h.beaten_of_lt hrest hlt))
    · exact .inr hsettled

/-- So a document of which something is passed over is not among the best. -/
theorem Sound.beaten_of_skip (h : Sound k total rest heap) (hnonneg : ∀ d, 0 ≤ rest' d)
    (hskip : ∀ d, rest' d = rest d ∨ rest' d ≤ rest d ∧ rest d < threshold k heap)
    (hmoved : rest' d ≠ rest d) : Beaten k heap (.of (total d) d) := by
  obtain ⟨hle, hlt⟩ := (hskip d).resolve_left hmoved
  rcases h.settled d with hrest | hmem | hbeaten
  · exact h.beaten_of_lt hrest hlt
  · have hgone : rest d = 0 := (h.held _ hmem).2.2
    exact absurd (le_antisymm (hle.trans hgone.le) (hnonneg d) |>.trans hgone.symm) hmoved
  · exact hbeaten

/-- **Scoring** a document by what is left of its score. -/
theorem Sound.score (h : Sound k total rest heap) (hpos : 0 < rest d) (hgone : rest' d = 0)
    (hother : ∀ e ≠ d, rest' e = rest e) :
    Sound k total rest' (keep k heap (.of (rest d) d)) := by
  have hnotin : ∀ e ∈ heap, e.doc ≠ d := by
    rintro e he rfl
    exact hpos.ne' (h.held e he).2.2
  have hnonneg : ∀ e, 0 ≤ rest' e := by
    intro e
    by_cases he : e = d
    · rw [he, hgone]
    · rw [hother e he]
      exact h.nonneg e
  have hle : ∀ e, rest' e ≤ total e := by
    intro e
    by_cases he : e = d
    · rw [he, hgone]
      exact hpos.le.trans (h.le d)
    · rw [hother e he]
      exact h.le e
  have hheld : ∀ e ∈ heap, e = .of (total e.doc) e.doc ∧ 0 < total e.doc ∧ rest' e.doc = 0 := by
    intro e he
    obtain ⟨heq, hpos', hrest⟩ := h.held e he
    exact ⟨heq, hpos', (hother e.doc (hnotin e he)).trans hrest⟩
  rcases h.settled d with hwhole | hsettled
  · -- nothing of the score is gone, and the entry is the document's own
    have hnew : Entry.of (rest d) d ∉ heap := fun hmem ↦ hnotin _ hmem rfl
    refine
      { nonneg := hnonneg
        le := hle
        sorted := pairwise_keep h.sorted h.length hnew
        length := length_keep h.length
        held := fun e he ↦ ?_
        settled := fun e ↦ ?_ }
    · rcases mem_of_mem_keep h.length he with rfl | he
      · exact ⟨by rw [hwhole]; rfl, hwhole ▸ hpos, hgone⟩
      · exact hheld e he
    · by_cases he : e = d
      · rw [he, ← hwhole]
        exact .inr (settled_keep h.sorted h.length)
      · rw [hother e he]
        exact (h.settled e).imp_right fun hsettled ↦ hsettled.keep h.sorted h.length _
  · -- part of the score is gone, so the kept entries are all better
    obtain ⟨hfull, hbetter⟩ := hsettled.resolve_left fun hmem ↦ hnotin _ hmem rfl
    have hbelow : ∀ e ∈ heap, Entry.of (rest d) d < e := fun e he ↦
      (Entry.of_le_of (h.le d) d).trans_lt (hbetter e he)
    have hsame : keep k heap (.of (rest d) d) = heap := by
      rcases keep_cases h.length (.of (rest d) d) with ⟨hroom, -⟩ | ⟨worst, others, heq, -, hlt, -⟩ |
        ⟨-, -, heq⟩
      · omega
      · exact absurd hlt (hbelow worst (heq ▸ List.mem_cons_self)).not_gt
      · exact heq
    rw [hsame]
    refine
      { nonneg := hnonneg
        le := hle
        sorted := h.sorted
        length := h.length
        held := hheld
        settled := fun e ↦ ?_ }
    by_cases he : e = d
    · rw [he]
      exact .inr (.inr ⟨hfull, hbetter⟩)
    · rw [hother e he]
      exact h.settled e

/-- **A finished scan** has kept the best entries. -/
theorem Sound.finished (h : Sound k total rest heap)
    (hdone : ∀ d, rest d = 0 ∨ rest d < threshold k heap) {entries : List (Entry R)}
    (hnodup : entries.Nodup)
    (hentries : ∀ e, e ∈ entries ↔ e = .of (total e.doc) e.doc ∧ 0 < total e.doc) :
    heap.reverse = (best entries).take k := by
  refine reverse_eq_take hnodup h.sorted h.length (fun e he ↦ ?_) fun e he ↦ ?_
  · obtain ⟨heq, hpos, -⟩ := h.held e he
    exact (hentries e).mpr ⟨heq, hpos⟩
  · obtain ⟨heq, hpos⟩ := (hentries e).mp he
    rw [heq]
    rcases h.settled e.doc with hwhole | hsettled
    · refine .inr (h.beaten_of_lt hwhole ((hdone e.doc).resolve_left ?_))
      rw [hwhole]
      exact hpos.ne'
    · exact hsettled

end Scan

end Khive.TopK
