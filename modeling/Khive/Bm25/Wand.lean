import Khive.Bm25.Cursor

/-!
# The cursor loop is a scan

What is left of the score of a document is what the cursors still have to give to it, `restScore`. A
turn of the loop either moves some cursors up to a document `t`, where nothing below `t` can reach the
threshold any more, or scores the pivot: these are the two moves of a sound scan. Every turn shortens
the rest of some cursor, so the loop ends.
-/

namespace Khive.Bm25

open TopK

variable {R : Type} {F : Type} {index : Bm25Index F} {cursors : List (TermCursor R)} {d t k : ℕ}
  {heap : List (Entry R)}

/-! ## Sorting and pruning -/

theorem sortAndPrune_perm (cursors : List (TermCursor R)) :
    (sortAndPruneTerminated cursors).Perm (cursors.filter fun c ↦ !c.isTerminated) :=
  List.mergeSort_perm _ _

theorem mem_sortAndPrune {c : TermCursor R} :
    c ∈ sortAndPruneTerminated cursors ↔ c ∈ cursors ∧ c.isTerminated = false := by
  rw [(sortAndPrune_perm cursors).mem_iff, List.mem_filter, Bool.not_eq_true']

/-- A terminated cursor has nothing to give. -/
theorem sum_filter_live {M : Type} [AddCommMonoid M] (f : TermCursor R → M)
    (h : ∀ c ∈ cursors, c.isTerminated = true → f c = 0) :
    ((sortAndPruneTerminated cursors).map f).sum = (cursors.map f).sum := by
  rw [((sortAndPrune_perm cursors).map f).sum_eq]
  induction cursors with
  | nil => rfl
  | cons c cursors ih =>
    have ih := ih fun c hc ↦ h c (List.mem_cons_of_mem _ hc)
    by_cases hend : c.isTerminated = true
    · rw [List.filter_cons_of_neg (by simpa using hend), ih, List.map_cons, List.sum_cons,
        h c List.mem_cons_self hend, zero_add]
    · rw [List.filter_cons_of_pos (by simpa using hend), List.map_cons, List.map_cons,
        List.sum_cons, List.sum_cons, ih]

/-! ## Where a block ends -/

/-- The earliest end of a block is one of the ends, or there is none. -/
theorem foldl_earliestBlock {pivotDoc : ℕ} {entries : List (TermCursor R × ℕ)}
    (start : Option ℕ × ℕ) :
    let earliest := entries.foldl (fun (cursorToSeek, earliestBlockEnd) (cursor, idx) ↦
      match cursor.shallowBlockInfo pivotDoc with
      | none => (cursorToSeek, earliestBlockEnd)
      | some info =>
        if info.lastDoc < earliestBlockEnd then (some idx, info.lastDoc)
        else (cursorToSeek, earliestBlockEnd)) start
    earliest.2 ≤ start.2 ∧
      (∀ e ∈ entries, ∀ info, e.1.shallowBlockInfo pivotDoc = some info →
        earliest.2 ≤ info.lastDoc) ∧
      (earliest = start ∨ ∃ e ∈ entries, ∃ info, e.1.shallowBlockInfo pivotDoc = some info ∧
        earliest = (some e.2, info.lastDoc)) := by
  induction entries generalizing start with
  | nil => exact ⟨le_rfl, fun _ he ↦ absurd he List.not_mem_nil, .inl rfl⟩
  | cons entry entries ih =>
    obtain ⟨cursor, idx⟩ := entry
    obtain ⟨cursorToSeek, blockEnd⟩ := start
    rw [List.foldl_cons]
    dsimp only
    rcases hinfo : cursor.shallowBlockInfo pivotDoc with _ | info
    · obtain ⟨hle, hall, hsome⟩ := ih (cursorToSeek, blockEnd)
      refine ⟨hle, List.forall_mem_cons.mpr ⟨fun info h ↦ ?_, hall⟩, hsome.imp_right ?_⟩
      · rw [hinfo] at h
        cases h
      · rintro ⟨e, he, hfound⟩
        exact ⟨e, List.mem_cons_of_mem _ he, hfound⟩
    · dsimp only
      -- an end that is no earlier leaves what was found, so the first of equal ends wins
      split_ifs with hlt
      · obtain ⟨hle, hall, hsome⟩ := ih (some idx, info.lastDoc)
        refine ⟨hle.trans hlt.le, List.forall_mem_cons.mpr ⟨fun info' h ↦ ?_, hall⟩, .inr ?_⟩
        · rw [hinfo] at h
          obtain rfl := Option.some.inj h
          exact hle
        · rcases hsome with heq | ⟨e, he, hfound⟩
          · exact ⟨_, List.mem_cons_self, info, hinfo, heq⟩
          · exact ⟨e, List.mem_cons_of_mem _ he, hfound⟩
      · obtain ⟨hle, hall, hsome⟩ := ih (cursorToSeek, blockEnd)
        refine ⟨hle, List.forall_mem_cons.mpr ⟨fun info' h ↦ ?_, hall⟩, hsome.imp_right ?_⟩
        · rw [hinfo] at h
          obtain rfl := Option.some.inj h
          exact hle.trans (not_lt.mp hlt)
        · rintro ⟨e, he, hfound⟩
          exact ⟨e, List.mem_cons_of_mem _ he, hfound⟩

theorem foldl_min_doc (behind : List (TermCursor R)) (target : ℕ) :
    let after := behind.foldl (fun target cursor ↦
      if cursor.doc < target then cursor.doc else target) target
    after ≤ target ∧ (∀ c ∈ behind, after ≤ c.doc) ∧ (after = target ∨ ∃ c ∈ behind, after = c.doc) := by
  induction behind generalizing target with
  | nil => exact ⟨le_rfl, fun _ hc ↦ absurd hc List.not_mem_nil, .inl rfl⟩
  | cons c behind ih =>
    rw [List.foldl_cons]
    by_cases hlt : c.doc < target
    · rw [if_pos hlt]
      obtain ⟨hle, hall, hsome⟩ := ih c.doc
      refine ⟨hle.trans hlt.le, List.forall_mem_cons.mpr ⟨hle, hall⟩, .inr ?_⟩
      rcases hsome with heq | ⟨c', hc', heq⟩
      · exact ⟨c, List.mem_cons_self, heq⟩
      · exact ⟨c', List.mem_cons_of_mem _ hc', heq⟩
    · rw [if_neg hlt]
      obtain ⟨hle, hall, hsome⟩ := ih target
      refine ⟨hle, List.forall_mem_cons.mpr ⟨hle.trans (not_lt.mp hlt), hall⟩, ?_⟩
      exact hsome.imp_right fun ⟨c', hc', heq⟩ ↦ ⟨c', List.mem_cons_of_mem _ hc', heq⟩

/-! ## What is left -/

variable (index) in
/-- How many postings are still to come. -/
def remaining (cursors : List (TermCursor R)) : ℕ :=
  (cursors.map fun cursor ↦ (cursor.rest index).length).sum

theorem remaining_set {idx : ℕ} {c c' : TermCursor R} (hget : cursors[idx]? = some c)
    (hless : (c'.rest index).length < (c.rest index).length) :
    remaining index (cursors.set idx c') < remaining index cursors := by
  obtain ⟨hidx, rfl⟩ := List.getElem?_eq_some_iff.mp hget
  rw [List.set_eq_take_append_cons_drop, if_pos hidx]
  conv_rhs => rw [← List.take_append_drop idx cursors, List.drop_eq_getElem_cons hidx]
  simp only [remaining, List.map_append, List.map_cons, List.sum_append, List.sum_cons]
  omega

variable [AddCommMonoid R]

variable (index) in
/-- What the cursors still have to give to a document. -/
def restScore (cursors : List (TermCursor R)) (d : ℕ) : R :=
  (cursors.map fun cursor ↦ cursor.gain index d).sum

theorem restScore_append (front back : List (TermCursor R)) (d : ℕ) :
    restScore index (front ++ back) d = restScore index front d + restScore index back d := by
  rw [restScore, List.map_append, List.sum_append]
  rfl

theorem restScore_eq_zero (h : ∀ c ∈ cursors, c.gain index d = 0) : restScore index cursors d = 0 := by
  refine List.sum_eq_zero fun r hr ↦ ?_
  obtain ⟨c, hc, rfl⟩ := List.mem_map.mp hr
  exact h c hc

variable [LinearOrder R]

theorem beforePivotLen_eq_some {threshold sum : R} {n : ℕ}
    (h : beforePivotLen threshold sum cursors = some n) :
    n < cursors.length ∧
      (n = 0 ∨ sum + ((cursors.take n).map fun c ↦ c.remainingMaxScore).sum < threshold) := by
  induction cursors generalizing sum n with
  | nil => cases h
  | cons c cursors ih =>
    rw [beforePivotLen] at h
    split_ifs at h with hreached
    · obtain rfl := Option.some.inj h
      exact ⟨Nat.succ_pos _, .inl rfl⟩
    · obtain ⟨m, hm, rfl⟩ := Option.map_eq_some_iff.mp h
      obtain ⟨hlt, hsum⟩ := ih hm
      refine ⟨Nat.succ_lt_succ hlt, .inr ?_⟩
      rw [List.take_succ_cons, List.map_cons, List.sum_cons, ← add_assoc]
      rcases hsum with rfl | hsum
      · simpa using hreached
      · exact hsum

theorem beforePivotLen_eq_none {threshold sum : R}
    (h : beforePivotLen threshold sum cursors = none) :
    cursors = [] ∨ sum + (cursors.map fun c ↦ c.remainingMaxScore).sum < threshold := by
  induction cursors generalizing sum with
  | nil => exact .inl rfl
  | cons c cursors ih =>
    rw [beforePivotLen] at h
    split_ifs at h with hreached
    rw [List.map_cons, List.sum_cons, ← add_assoc]
    rcases ih (Option.map_eq_none_iff.mp h) with rfl | hsum
    · exact .inr (by simpa using hreached)
    · exact .inr hsum

variable (index) in
/-- Cursors as the loop holds them. -/
structure Ready (cursors : List (TermCursor R)) : Prop where
  valid : ∀ c ∈ cursors, c.Valid index
  live : ∀ c ∈ cursors, c.isTerminated = false
  sorted : cursors.Pairwise fun a b ↦ a.doc ≤ b.doc

theorem ready_sortAndPrune (h : ∀ c ∈ cursors, c.Valid index) :
    Ready index (sortAndPruneTerminated cursors) where
  valid := fun c hc ↦ h c (mem_sortAndPrune.mp hc).1
  live := fun _ hc ↦ (mem_sortAndPrune.mp hc).2
  sorted := by
    refine (List.pairwise_mergeSort ?_ ?_ _).imp fun hle ↦ of_decide_eq_true hle
    · intro a b c hab hbc
      exact decide_eq_true ((of_decide_eq_true hab).trans (of_decide_eq_true hbc))
    · intro a b
      simpa using le_total a.doc b.doc

theorem restScore_sortAndPrune (h : ∀ c ∈ cursors, c.Valid index) (d : ℕ) :
    restScore index (sortAndPruneTerminated cursors) d = restScore index cursors d :=
  sum_filter_live _ fun c hc hend ↦ (h c hc).gain_of_terminated hend

theorem remaining_sortAndPrune (h : ∀ c ∈ cursors, c.Valid index) :
    remaining index (sortAndPruneTerminated cursors) = remaining index cursors := by
  refine sum_filter_live _ fun c hc hend ↦ ?_
  rw [(h c hc).isTerminated_iff.mp hend]
  rfl

/-! ## The pivot -/

/-- The cursors before, at and behind a pivot. -/
structure Splits (cursors : List (TermCursor R)) (threshold : R) (pivot : Pivot)
    (front at' behind : List (TermCursor R)) : Prop where
  eq : cursors = front ++ at' ++ behind
  front_length : front.length = pivot.beforePivotLen
  length : (front ++ at').length = pivot.pivotLen
  at_ne : at' ≠ []
  at_doc : ∀ c ∈ at', c.doc = pivot.pivotDoc
  front_doc : ∀ c ∈ front, c.doc ≤ pivot.pivotDoc
  behind_doc : ∀ c ∈ behind, pivot.pivotDoc < c.doc
  front_sum : front = [] ∨ (front.map fun c ↦ c.remainingMaxScore).sum < threshold
  lt : pivot.pivotDoc < terminatedDoc

theorem Ready.splits (h : Ready index cursors) {threshold : R} {pivot : Pivot}
    (hpivot : findPivotDoc cursors threshold = some pivot) :
    ∃ front at' behind, Splits cursors threshold pivot front at' behind := by
  obtain ⟨n, hn, hpivot⟩ := Option.bind_eq_some_iff.mp hpivot
  obtain ⟨c, hc, hpivot⟩ := Option.bind_eq_some_iff.mp hpivot
  split_ifs at hpivot
  obtain rfl := Option.some.inj hpivot
  obtain ⟨hlt, hsum⟩ := beforePivotLen_eq_some hn
  obtain ⟨_, hget⟩ := List.getElem?_eq_some_iff.mp hc
  let others := cursors.drop (n + 1)
  let same := others.takeWhile (·.doc == c.doc)
  let behind := others.dropWhile (·.doc == c.doc)
  have hothers : same ++ behind = others := List.takeWhile_append_dropWhile
  have hdrop : cursors.drop n = c :: others := by
    rw [List.drop_eq_getElem_cons hlt, hget]
  have hsplit : cursors = cursors.take n ++ (c :: same) ++ behind := by
    rw [List.append_assoc, List.cons_append, hothers, ← hdrop, List.take_append_drop]
  have hcmem : c ∈ cursors := List.mem_of_getElem? hc
  have hsorted := h.sorted
  rw [← List.take_append_drop n cursors, hdrop] at hsorted
  obtain ⟨-, hback, hcross⟩ := List.pairwise_append.mp hsorted
  obtain ⟨habove, hothersSorted⟩ := List.pairwise_cons.mp hback
  refine ⟨cursors.take n, c :: same, behind, ?_⟩
  refine
    { eq := hsplit
      front_length := List.length_take_of_le hlt.le
      length := ?_
      at_ne := List.cons_ne_nil _ _
      at_doc := fun a ha ↦ ?_
      front_doc := fun a ha ↦ hcross a ha c List.mem_cons_self
      behind_doc := fun a ha ↦ ?_
      front_sum := ?_
      lt := (h.valid c hcmem).doc_lt (h.live c hcmem) }
  · rw [List.length_append, List.length_take_of_le hlt.le, List.length_cons]
    show n + (same.length + 1) = n + 1 + same.length
    omega
  · rcases List.mem_cons.mp ha with rfl | ha
    · rfl
    · exact beq_iff_eq.mp
        (List.mem_takeWhile_imp (p := fun a : TermCursor R ↦ a.doc == c.doc) ha)
  · -- the first cursor behind is at another document, and the others are not before it
    have hmem : a ∈ others := by
      rw [← hothers]
      exact List.mem_append_right _ ha
    refine lt_of_le_of_ne (habove a hmem) fun heq ↦ ?_
    rcases hbehind : behind with _ | ⟨first, rest⟩
    · rw [hbehind] at ha
      cases ha
    · have hfirst : (first.doc == c.doc) = false := by
        have hhead := List.head?_dropWhile_not (fun a : TermCursor R ↦ a.doc == c.doc) others
        rw [show others.dropWhile (fun a ↦ a.doc == c.doc) = first :: rest from hbehind] at hhead
        exact hhead
      have hsorted' : (same ++ behind).Pairwise fun a b ↦ a.doc ≤ b.doc := by
        rw [hothers]
        exact hothersSorted
      obtain ⟨-, hbehindSorted, -⟩ := List.pairwise_append.mp hsorted'
      rw [hbehind] at ha hbehindSorted
      have hfirstLe : first.doc ≤ a.doc := by
        rcases List.mem_cons.mp ha with rfl | ha
        · exact le_rfl
        · exact (List.pairwise_cons.mp hbehindSorted).1 a ha
      have hfirstGe : c.doc ≤ first.doc := by
        apply habove
        rw [← hothers, hbehind]
        exact List.mem_append_right _ List.mem_cons_self
      rw [beq_eq_false_iff_ne] at hfirst
      exact hfirst (le_antisymm (hfirstLe.trans_eq heq.symm) hfirstGe)
  · rcases hsum with rfl | hsum
    · exact .inl rfl
    · rw [zero_add] at hsum
      exact .inr hsum

/-! ## Moving cursors -/

variable (index t) in
/-- A cursor has moved, but not over a document from `t` on. -/
structure MovesTo (c c' : TermCursor R) : Prop where
  valid : c'.Valid index
  le : ∀ d, c'.gain index d ≤ c.gain index d
  same : ∀ d, t ≤ d → c'.gain index d = c.gain index d
  length : (c'.rest index).length ≤ (c.rest index).length

theorem MovesTo.refl {c : TermCursor R} (h : c.Valid index) : MovesTo index t c c :=
  ⟨h, fun _ ↦ le_rfl, fun _ _ ↦ rfl, le_rfl⟩

theorem movesTo_seek {c : TermCursor R} (h : c.Valid index) (t : ℕ) :
    MovesTo index t c (c.seek t) where
  valid := h.seek t
  le := fun d ↦ by
    rw [h.gain_seek]
    split_ifs
    · exact h.gain_nonneg d
    · exact le_rfl
  same := fun d hd ↦ by rw [h.gain_seek, if_neg hd.not_gt]
  length := h.length_rest_seek_le t

variable (index t) in
def Moves (cursors moved : List (TermCursor R)) : Prop :=
  List.Forall₂ (MovesTo index t) cursors moved

theorem Moves.refl (h : ∀ c ∈ cursors, c.Valid index) : Moves index t cursors cursors :=
  List.forall₂_same.mpr fun c hc ↦ .refl (h c hc)

theorem MovesTo.trans {c c' c'' : TermCursor R} (h : MovesTo index t c c')
    (h' : MovesTo index t c' c'') : MovesTo index t c c'' where
  valid := h'.valid
  le := fun d ↦ (h'.le d).trans (h.le d)
  same := fun d hd ↦ (h'.same d hd).trans (h.same d hd)
  length := h'.length.trans h.length

variable {moved : List (TermCursor R)}

theorem Moves.trans {moved' : List (TermCursor R)} (h : Moves index t cursors moved)
    (h' : Moves index t moved moved') : Moves index t cursors moved' := by
  induction h generalizing moved' with
  | nil => exact h'
  | cons hc _ ih =>
    obtain ⟨c'', rest, hc', hrest, rfl⟩ := List.forall₂_cons_left_iff.mp h'
    exact .cons (hc.trans hc') (ih hrest)

theorem Moves.valid (h : Moves index t cursors moved) : ∀ c ∈ moved, c.Valid index := by
  intro c hc
  obtain ⟨_, -, hmoves⟩ := exists_of_mem_forall₂ h hc
  exact hmoves.valid

theorem Moves.restScore_eq (h : Moves index t cursors moved) (hd : t ≤ d) :
    restScore index moved d = restScore index cursors d := by
  induction h with
  | nil => rfl
  | cons hc _ ih =>
    rw [restScore, restScore, List.map_cons, List.map_cons, List.sum_cons, List.sum_cons,
      hc.same d hd]
    exact congrArg _ ih

theorem Moves.remaining_le (h : Moves index t cursors moved) :
    remaining index moved ≤ remaining index cursors := by
  induction h with
  | nil => exact le_rfl
  | cons hc _ ih =>
    rw [remaining, remaining, List.map_cons, List.map_cons, List.sum_cons, List.sum_cons]
    exact Nat.add_le_add hc.length ih

/-! ## Aligning -/

/-- The seeks of an alignment either bring all cursors before the pivot to it, or stop with one that
has moved. -/
theorem alignLoop_cases {front back : List (TermCursor R)}
    (hvalid : ∀ c ∈ front ++ back, c.Valid index) (hlive : ∀ c ∈ front, c.isTerminated = false)
    (hdoc : ∀ c ∈ front, c.doc ≤ t) :
    (alignLoop t (front ++ back) front.length = (true, front.map (·.seek t) ++ back) ∧
      ∀ c ∈ front, (c.seek t).doc = t) ∨
    ∃ moved, alignLoop t (front ++ back) front.length = (false, sortAndPruneTerminated moved) ∧
      Moves index t (front ++ back) moved ∧ remaining index moved < remaining index (front ++ back) := by
  induction front using List.reverseRecOn generalizing back with
  | nil => exact .inl ⟨rfl, fun _ hc ↦ absurd hc List.not_mem_nil⟩
  | append_singleton front c ih =>
    have hcmem : c ∈ front ++ [c] := List.mem_append_right _ List.mem_cons_self
    have hc : c.Valid index := hvalid c (List.mem_append_left _ hcmem)
    have hfront : ∀ c' ∈ front, c' ∈ front ++ [c] := fun _ h ↦ List.mem_append_left _ h
    have hget : (front ++ [c] ++ back)[front.length]? = some c := by simp
    have hset : (front ++ [c] ++ back).set front.length (c.seek t) =
        front ++ (c.seek t :: back) := by simp
    have hmoves : Moves index t (front ++ [c] ++ back) (front ++ (c.seek t :: back)) := by
      rw [List.append_assoc]
      refine List.rel_append (Moves.refl fun c' hc' ↦ ?_) (.cons (movesTo_seek hc t)
        (Moves.refl fun c' hc' ↦ hvalid c' (List.mem_append_right _ hc')))
      exact hvalid c' (List.mem_append_left _ (hfront c' hc'))
    rw [List.length_append, List.length_singleton, alignLoop, hget]
    dsimp only
    rw [hset]
    split_ifs with hstop
    · -- the cursor stands behind the pivot now, so it was before it
      refine .inr ⟨_, rfl, hmoves, ?_⟩
      have hlt : c.doc < t := by
        refine lt_of_le_of_ne (hdoc c hcmem) fun heq ↦ hstop ?_
        rw [TermCursor.seek, hlive c hcmem, if_neg Bool.false_ne_true, if_pos heq.ge, heq]
      have hless := hc.length_rest_seek (hlive c hcmem) hlt
      simp only [remaining, List.map_append, List.map_cons, List.map_nil, List.sum_append,
        List.sum_cons, List.sum_nil]
      omega
    · have hvalid' : ∀ c' ∈ front ++ (c.seek t :: back), c'.Valid index := hmoves.valid
      have hrec := ih hvalid' (fun c' hc' ↦ hlive c' (hfront c' hc'))
        (fun c' hc' ↦ hdoc c' (hfront c' hc'))
      rcases hrec with ⟨heq, hall⟩ | ⟨moved, heq, hmoved, hless⟩
      · refine .inl ⟨?_, fun c' hc' ↦ ?_⟩
        · rw [heq, List.map_append, List.append_assoc]
          rfl
        · rcases List.mem_append.mp hc' with hc' | hc'
          · exact hall c' hc'
          · rw [List.mem_singleton.mp hc']
            exact not_not.mp hstop
      · exact .inr ⟨moved, heq, hmoves.trans hmoved, hless.trans_le hmoves.remaining_le⟩

/-! ## Passing over a block -/

/-- A cursor at the pivot is in a block, so one is chosen, and its block does not end before the
pivot. -/
theorem earliestBlock_eq {pivotDoc : ℕ} (hvalid : ∀ c ∈ cursors, c.Valid index)
    (hat : ∃ c ∈ cursors, c.isTerminated = false ∧ c.doc = pivotDoc) :
    ∃ idx c info, earliestBlock cursors pivotDoc = (some idx, info.lastDoc) ∧
      cursors[idx]? = some c ∧ c.shallowBlockInfo pivotDoc = some info ∧
      info.lastDoc < terminatedDoc ∧
      ∀ c' ∈ cursors, ∀ info', c'.shallowBlockInfo pivotDoc = some info' →
        info.lastDoc ≤ info'.lastDoc := by
  obtain ⟨c, hc, hlive, hdoc⟩ := hat
  have hmem : ∀ c' ∈ cursors, ∃ idx, (c', idx) ∈ cursors.zipIdx := fun c' hc' ↦ by
    obtain ⟨idx, hget⟩ := List.mem_iff_getElem?.mp hc'
    exact ⟨idx, List.mem_zipIdx_iff_getElem?.mpr hget⟩
  obtain ⟨-, hall, hsome⟩ : (earliestBlock cursors pivotDoc).2 ≤ terminatedDoc ∧
      (∀ e ∈ cursors.zipIdx, ∀ info, e.1.shallowBlockInfo pivotDoc = some info →
        (earliestBlock cursors pivotDoc).2 ≤ info.lastDoc) ∧
      (earliestBlock cursors pivotDoc = (none, terminatedDoc) ∨
        ∃ e ∈ cursors.zipIdx, ∃ info, e.1.shallowBlockInfo pivotDoc = some info ∧
          earliestBlock cursors pivotDoc = (some e.2, info.lastDoc)) :=
    foldl_earliestBlock _
  have hall' : ∀ c' ∈ cursors, ∀ info', c'.shallowBlockInfo pivotDoc = some info' →
      (earliestBlock cursors pivotDoc).2 ≤ info'.lastDoc := by
    intro c' hc' info' hinfo'
    obtain ⟨idx, hidx⟩ := hmem c' hc'
    exact hall _ hidx info' hinfo'
  obtain ⟨e, es, hrest⟩ := (hvalid c hc).exists_cons hlive
  have hle : pivotDoc ≤ e.1 := by rw [← hdoc, (hvalid c hc).doc_of_cons hrest]
  obtain ⟨info, hinfo, hlt, -⟩ := (hvalid c hc).shallowBlockInfo_of_mem
    (by rw [hrest]; exact List.mem_cons_self) hle
  have hend := hall' c hc info hinfo
  rcases hsome with heq | ⟨⟨c', idx⟩, hin, info', hinfo', heq⟩
  · rw [heq] at hend
    exact absurd hlt hend.not_gt
  · rw [heq] at hall' hend
    exact ⟨idx, c', info', heq, List.mem_zipIdx_iff_getElem?.mp hin, hinfo', hend.trans_lt hlt,
      hall'⟩

theorem Moves.set (hvalid : ∀ c ∈ cursors, c.Valid index) {idx : ℕ} {c : TermCursor R}
    (hget : cursors[idx]? = some c) (t : ℕ) : Moves index t cursors (cursors.set idx (c.seek t)) := by
  induction cursors generalizing idx with
  | nil => cases hget
  | cons first cursors ih =>
    obtain ⟨hfirst, hothers⟩ := List.forall_mem_cons.mp hvalid
    rcases idx with _ | idx
    · obtain rfl : first = c := by simpa using hget
      exact .cons (movesTo_seek hfirst t) (Moves.refl hothers)
    · exact .cons (.refl hfirst) (ih hothers (by simpa using hget))

/-- **The seek that passes over a block**: the cursor stands at or before the pivot and the target
behind it, so nothing has to be forced. The target is not behind the end of a block of the pivot's
cursors, nor behind another cursor. -/
theorem Splits.seek {threshold : R} {pivot : Pivot} {front at' behind : List (TermCursor R)}
    (h : Splits cursors threshold pivot front at' behind) (hready : Ready index cursors) :
    ∃ idx c, (earliestBlock (cursors.take pivot.pivotLen) pivot.pivotDoc).1 = some idx ∧
      cursors[idx]? = some c ∧ c.doc ≤ pivot.pivotDoc ∧
      pivot.pivotDoc < docToSeekAfter cursors pivot ∧
      (∀ c' ∈ front ++ at', ∀ info, c'.shallowBlockInfo pivot.pivotDoc = some info →
        docToSeekAfter cursors pivot ≤ info.lastDoc + 1) ∧
      ∀ c' ∈ behind, docToSeekAfter cursors pivot ≤ c'.doc := by
  have htake : cursors.take pivot.pivotLen = front ++ at' := by
    rw [h.eq, ← h.length, List.take_left]
  have hdrop : cursors.drop pivot.pivotLen = behind := by
    rw [h.eq, ← h.length, List.drop_left]
  have hsub : ∀ c ∈ front ++ at', c ∈ cursors := fun c hc ↦ by
    rw [h.eq]
    exact List.mem_append_left _ hc
  obtain ⟨c₀, hc₀⟩ := List.exists_mem_of_ne_nil _ h.at_ne
  have hvalid : ∀ c ∈ front ++ at', c.Valid index := fun c hc ↦ hready.valid c (hsub c hc)
  obtain ⟨idx, c, info, heq, hget, hinfo, hlt, hleast⟩ := earliestBlock_eq hvalid
    ⟨c₀, List.mem_append_right _ hc₀, hready.live c₀ (hsub c₀ (List.mem_append_right _ hc₀)),
      h.at_doc c₀ hc₀⟩
  have hcmem : c ∈ front ++ at' := List.mem_of_getElem? hget
  have hcdoc : c.doc ≤ pivot.pivotDoc := by
    rcases List.mem_append.mp hcmem with hc | hc
    · exact h.front_doc c hc
    · exact (h.at_doc c hc).le
  have htarget : docToSeekAfter cursors pivot = behind.foldl (fun target cursor ↦
      if cursor.doc < target then cursor.doc else target) (info.lastDoc + 1) := by
    rw [docToSeekAfter, htake, hdrop, heq]
    dsimp only
    rw [if_pos hlt.ne, min_eq_left hlt]
  obtain ⟨hle, hbehind, hsome⟩ := foldl_min_doc behind (info.lastDoc + 1)
  rw [← htarget] at hle hbehind hsome
  refine ⟨idx, c, by rw [htake, heq], ?_, hcdoc, ?_, ?_, hbehind⟩
  · obtain ⟨hidx, -⟩ := List.getElem?_eq_some_iff.mp hget
    rw [h.eq, List.getElem?_append_left hidx, hget]
  · rcases hsome with hsame | ⟨c', hc', hsame⟩
    · rw [hsame]
      exact Nat.lt_succ_of_le (TermCursor.le_lastDoc hinfo)
    · rw [hsame]
      exact h.behind_doc c' hc'
  · exact fun c' hc' info' hinfo' ↦ hle.trans (Nat.succ_le_succ (hleast c' hc' info' hinfo'))

/-- The cursors that have been aligned with the pivot. -/
structure Aligned (cursors : List (TermCursor R)) (pivotDoc : ℕ)
    (front behind : List (TermCursor R)) : Prop where
  eq : cursors = front ++ behind
  ne : front ≠ []
  at_doc : ∀ c ∈ front, c.doc = pivotDoc
  live : ∀ c ∈ front, c.isTerminated = false
  behind_doc : ∀ c ∈ behind, pivotDoc < c.doc

/-- What aligning leaves: cursors that have moved up to the pivot, aligned with it or not. -/
theorem Splits.align {threshold : R} {pivot : Pivot} {front at' behind : List (TermCursor R)}
    (h : Splits cursors threshold pivot front at' behind) (hready : Ready index cursors) :
    (∃ aligned, alignCursors cursors pivot = (true, aligned ++ behind) ∧
      aligned.length = pivot.pivotLen ∧ Moves index pivot.pivotDoc cursors (aligned ++ behind) ∧
      Aligned (aligned ++ behind) pivot.pivotDoc aligned behind) ∨
    ∃ moved, alignCursors cursors pivot = (false, sortAndPruneTerminated moved) ∧
      Moves index pivot.pivotDoc cursors moved ∧ remaining index moved < remaining index cursors := by
  have heq : cursors = front ++ (at' ++ behind) := by rw [h.eq, List.append_assoc]
  have hmem : ∀ c ∈ front, c ∈ cursors := fun c hc ↦ by
    rw [heq]
    exact List.mem_append_left _ hc
  have hback : ∀ c ∈ at' ++ behind, c ∈ cursors := fun c hc ↦ by
    rw [heq]
    exact List.mem_append_right _ hc
  have hvalid : ∀ c ∈ front ++ (at' ++ behind), c.Valid index := by
    rw [← heq]
    exact hready.valid
  have hcases := alignLoop_cases hvalid (fun c hc ↦ hready.live c (hmem c hc)) h.front_doc
  rw [← heq, h.front_length] at hcases
  rcases hcases with ⟨halign, hdoc⟩ | ⟨moved, halign, hmoves, hless⟩
  · refine .inl ⟨front.map (·.seek pivot.pivotDoc) ++ at', ?_, ?_, ?_, ?_⟩
    · rw [alignCursors, halign, List.append_assoc]
    · rw [← h.length, List.length_append, List.length_append, List.length_map]
    · rw [heq, List.append_assoc]
      refine List.rel_append ?_ (Moves.refl fun c hc ↦ hready.valid c (hback c hc))
      rw [List.forall₂_map_right_iff, List.forall₂_same]
      exact fun c hc ↦ movesTo_seek (hready.valid c (hmem c hc)) _
    · -- no cursor went past the pivot, so all of them stand at it
      have hseek : ∀ c ∈ front.map (·.seek pivot.pivotDoc) ++ at', c.Valid index ∧
          c.doc = pivot.pivotDoc := by
        intro c hc
        rcases List.mem_append.mp hc with hc | hc
        · obtain ⟨c', hc', rfl⟩ := List.mem_map.mp hc
          exact ⟨(hready.valid c' (hmem c' hc')).seek _, hdoc c' hc'⟩
        · exact ⟨hready.valid c (hback c (List.mem_append_left _ hc)), h.at_doc c hc⟩
      refine
        { eq := rfl
          ne := fun hnil ↦ h.at_ne (List.append_eq_nil_iff.mp hnil).2
          at_doc := fun c hc ↦ (hseek c hc).2
          live := fun c hc ↦ Bool.eq_false_iff.mpr fun hend ↦ ?_
          behind_doc := h.behind_doc }
      have hlt := h.lt
      rw [← (hseek c hc).2, (hseek c hc).1.doc_of_nil
        ((hseek c hc).1.isTerminated_iff.mp hend)] at hlt
      exact lt_irrefl _ hlt
  · exact .inr ⟨moved, halign, hmoves, hless⟩

/-! ## Bounds -/

variable [IsOrderedCancelAddMonoid R]

theorem restScore_nonneg (h : ∀ c ∈ cursors, c.Valid index) (d : ℕ) :
    0 ≤ restScore index cursors d := by
  refine List.sum_nonneg fun r hr ↦ ?_
  obtain ⟨c, hc, rfl⟩ := List.mem_map.mp hr
  exact (h c hc).gain_nonneg d

theorem restScore_le {bound : TermCursor R → R} (h : ∀ c ∈ cursors, c.gain index d ≤ bound c) :
    restScore index cursors d ≤ (cursors.map bound).sum :=
  List.sum_le_sum h

/-- **Below the pivot** nothing reaches the threshold. -/
theorem Splits.below {threshold : R} {pivot : Pivot} {front at' behind : List (TermCursor R)}
    (h : Splits cursors threshold pivot front at' behind) (hvalid : ∀ c ∈ cursors, c.Valid index)
    (hd : d < pivot.pivotDoc) :
    restScore index cursors d = 0 ∨ restScore index cursors d < threshold := by
  have hvalid' := hvalid
  rw [h.eq] at hvalid'
  have hat : restScore index (at' ++ behind) d = 0 := by
    refine restScore_eq_zero fun c hc ↦ ?_
    have hc' : c ∈ front ++ at' ++ behind := by
      rw [List.append_assoc]
      exact List.mem_append_right _ hc
    apply (hvalid' c hc').gain_of_lt
    rcases List.mem_append.mp hc with hc | hc
    · rw [h.at_doc c hc]
      exact hd
    · exact hd.trans (h.behind_doc c hc)
  rw [h.eq, List.append_assoc, restScore_append, hat, add_zero]
  rcases h.front_sum with rfl | hsum
  · exact .inl rfl
  · refine .inr (lt_of_le_of_lt (restScore_le fun c hc ↦ ?_) hsum)
    have hc' : c ∈ front ++ at' ++ behind :=
      List.mem_append_left _ (List.mem_append_left _ hc)
    exact (hvalid' c hc').gain_le_remainingMaxScore d

/-- **From the pivot to the target** nothing exceeds the bound of the blocks. -/
theorem Splits.inside {threshold : R} {pivot : Pivot} {front at' behind : List (TermCursor R)}
    (h : Splits cursors threshold pivot front at' behind) (hvalid : ∀ c ∈ cursors, c.Valid index)
    (hd : pivot.pivotDoc ≤ d)
    (hblock : ∀ c ∈ front ++ at', ∀ info, c.shallowBlockInfo pivot.pivotDoc = some info →
      d ≤ info.lastDoc)
    (hbehind : ∀ c ∈ behind, d < c.doc) :
    restScore index cursors d ≤ blockUpperBound cursors pivot := by
  have hzero : restScore index behind d = 0 := by
    refine restScore_eq_zero fun c hc ↦ ?_
    have hc' : c ∈ cursors := by
      rw [h.eq]
      exact List.mem_append_right _ hc
    exact (hvalid c hc').gain_of_lt (hbehind c hc)
  have htake : cursors.take pivot.pivotLen = front ++ at' := by
    rw [h.eq, ← h.length, List.take_left]
  rw [blockUpperBound, htake]
  conv_lhs => rw [h.eq]
  rw [restScore_append, hzero, add_zero]
  refine restScore_le fun c hc ↦ ?_
  have hc' : c ∈ cursors := by
    rw [h.eq]
    exact List.mem_append_left _ hc
  exact (hvalid c hc').gain_le_shallow hd (hblock c hc)

theorem Moves.restScore_le (h : Moves index t cursors moved) (d : ℕ) :
    restScore index moved d ≤ restScore index cursors d := by
  induction h with
  | nil => exact le_rfl
  | cons hc _ ih =>
    rw [restScore, restScore, List.map_cons, List.map_cons, List.sum_cons, List.sum_cons]
    exact add_le_add (hc.le d) ih

/-- **Moving up to `t`**, where nothing below reaches the threshold, passes over nothing that counts. -/
theorem Moves.skips {threshold : R} (h : Moves index t cursors moved)
    (hbelow : ∀ d < t, restScore index cursors d = 0 ∨ restScore index cursors d < threshold)
    (d : ℕ) :
    restScore index moved d = restScore index cursors d ∨
      restScore index moved d ≤ restScore index cursors d ∧
        restScore index cursors d < threshold := by
  rcases Nat.lt_or_ge d t with hd | hd
  · rcases hbelow d hd with hzero | hlt
    · refine .inl (le_antisymm (h.restScore_le d) ?_)
      rw [hzero]
      exact restScore_nonneg h.valid d
    · exact .inr ⟨h.restScore_le d, hlt⟩
  · exact .inl (h.restScore_eq hd)

/-! ## One turn -/

/-- **A turn that passes over a block** moves one cursor, over documents that cannot reach the
threshold. -/
theorem Ready.pass (h : Ready index cursors) {threshold : R} {pivot : Pivot}
    (hpivot : findPivotDoc cursors threshold = some pivot)
    (hbound : blockUpperBound cursors pivot < threshold) :
    Ready index (advanceOneCursorPastBlock cursors pivot) ∧
      remaining index (advanceOneCursorPastBlock cursors pivot) < remaining index cursors ∧
      ∀ d, restScore index (advanceOneCursorPastBlock cursors pivot) d = restScore index cursors d ∨
        restScore index (advanceOneCursorPastBlock cursors pivot) d ≤ restScore index cursors d ∧
          restScore index cursors d < threshold := by
  obtain ⟨front, at', behind, hsplits⟩ := h.splits hpivot
  obtain ⟨idx, c, hearliest, hget, hdoc, htarget, hend, hbehind⟩ := hsplits.seek h
  have hc : c ∈ cursors := List.mem_of_getElem? hget
  have hforced : forcedTarget c (docToSeekAfter cursors pivot) = docToSeekAfter cursors pivot :=
    if_neg (hdoc.trans_lt htarget).not_ge
  have hadvance : advanceOneCursorPastBlock cursors pivot = sortAndPruneTerminated
      (cursors.set idx (c.seek (docToSeekAfter cursors pivot))) := by
    rw [advanceOneCursorPastBlock, hearliest, Option.bind_some, hget, Option.map_some]
    dsimp only
    rw [hforced]
  have hmoves := Moves.set h.valid hget (docToSeekAfter cursors pivot)
  rw [hadvance]
  refine ⟨ready_sortAndPrune hmoves.valid, ?_, fun d ↦ ?_⟩
  · rw [remaining_sortAndPrune hmoves.valid]
    exact remaining_set hget ((h.valid c hc).length_rest_seek (h.live c hc) (hdoc.trans_lt htarget))
  · rw [restScore_sortAndPrune hmoves.valid]
    refine hmoves.skips (fun d hd ↦ ?_) d
    rcases Nat.lt_or_ge d pivot.pivotDoc with hbelow | hfrom
    · exact hsplits.below h.valid hbelow
    · refine .inr ((hsplits.inside h.valid hfrom (fun c' hc' info hinfo ↦ ?_) ?_).trans_lt hbound)
      · exact Nat.le_of_lt_succ (hd.trans_le (hend c' hc' info hinfo))
      · exact fun c' hc' ↦ hd.trans_le (hbehind c' hc')

/-- Where no pivot is found, nothing that is left can reach the threshold. -/
theorem Ready.done (h : Ready index cursors) {threshold : R}
    (hnone : findPivotDoc cursors threshold = none) (d : ℕ) :
    restScore index cursors d = 0 ∨ restScore index cursors d < threshold := by
  rcases hbefore : beforePivotLen threshold 0 cursors with _ | n
  · rcases beforePivotLen_eq_none hbefore with rfl | hsum
    · exact .inl rfl
    · rw [zero_add] at hsum
      exact .inr ((restScore_le fun c hc ↦ (h.valid c hc).gain_le_remainingMaxScore d).trans_lt hsum)
  · obtain ⟨hlt, -⟩ := beforePivotLen_eq_some hbefore
    have hmem := List.getElem_mem hlt
    have hdoc := ((h.valid _ hmem).doc_lt (h.live _ hmem)).ne
    rw [findPivotDoc, hbefore] at hnone
    simp [hlt, hdoc] at hnone

/-- The cursors at the pivot give what is left of its score, and move off it. -/
theorem Aligned.score {pivotDoc : ℕ} {front behind : List (TermCursor R)}
    (h : Aligned cursors pivotDoc front behind) (hvalid : ∀ c ∈ cursors, c.Valid index) :
    (front.map fun c ↦ c.scoreCurrent index).sum = restScore index cursors pivotDoc ∧
      0 < restScore index cursors pivotDoc ∧
      restScore index (front.map TermCursor.advance ++ behind) pivotDoc = 0 ∧
      (∀ d ≠ pivotDoc, restScore index (front.map TermCursor.advance ++ behind) d =
        restScore index cursors d) ∧
      remaining index (front.map TermCursor.advance ++ behind) < remaining index cursors := by
  have hfront : ∀ c ∈ front, c.Valid index := fun c hc ↦
    hvalid c (by rw [h.eq]; exact List.mem_append_left _ hc)
  have hbehind : ∀ c ∈ behind, c.Valid index := fun c hc ↦
    hvalid c (by rw [h.eq]; exact List.mem_append_right _ hc)
  have hgain : ∀ c ∈ front, c.gain index pivotDoc = c.scoreCurrent index ∧
      0 < c.gain index pivotDoc := fun c hc ↦ by
    rw [← h.at_doc c hc]
    exact (hfront c hc).gain_doc (h.live c hc)
  have hzero : restScore index behind pivotDoc = 0 :=
    restScore_eq_zero fun c hc ↦ (hbehind c hc).gain_of_lt (h.behind_doc c hc)
  have hrest : restScore index cursors pivotDoc = (front.map fun c ↦ c.scoreCurrent index).sum := by
    rw [h.eq, restScore_append, hzero, add_zero, restScore,
      List.map_congr_left fun c hc ↦ (hgain c hc).1]
  -- the cursors in front stand at the pivot, so advancing them gives up that document alone
  have hadvance : ∀ c ∈ front, ∀ d, c.advance.gain index d =
      if d = pivotDoc then 0 else c.gain index d := by
    intro c hc d
    rw [(hfront c hc).gain_advance, h.at_doc c hc]
    rcases Nat.lt_trichotomy d pivotDoc with hlt | rfl | hgt
    · rw [if_pos (by omega), if_neg hlt.ne, (hfront c hc).gain_of_lt (by rw [h.at_doc c hc]; exact hlt)]
    · rw [if_pos (by omega), if_pos rfl]
    · rw [if_neg (by omega), if_neg hgt.ne']
  refine ⟨hrest.symm, ?_, ?_, fun d hd ↦ ?_, ?_⟩
  · obtain ⟨c, hc⟩ := List.exists_mem_of_ne_nil _ h.ne
    obtain ⟨before, after, hsplit⟩ := List.append_of_mem hc
    have hpart : ∀ part : List (TermCursor R), (∀ c ∈ part, c ∈ front) →
        0 ≤ restScore index part pivotDoc := fun part hpart ↦
      restScore_nonneg (fun c hc ↦ hfront c (hpart c hc)) pivotDoc
    have hbefore := hpart before fun c hc ↦ by rw [hsplit]; exact List.mem_append_left _ hc
    have hafter := hpart after fun c hc ↦ by
      rw [hsplit]
      exact List.mem_append_right _ (List.mem_cons_of_mem _ hc)
    have hcons : restScore index (c :: after) pivotDoc =
        c.gain index pivotDoc + restScore index after pivotDoc := rfl
    rw [h.eq, restScore_append, hzero, add_zero, hsplit, restScore_append, hcons]
    exact add_pos_of_nonneg_of_pos hbefore (add_pos_of_pos_of_nonneg (hgain c hc).2 hafter)
  · rw [restScore_append, hzero, add_zero]
    refine restScore_eq_zero fun c' hc' ↦ ?_
    obtain ⟨c, hc, rfl⟩ := List.mem_map.mp hc'
    rw [hadvance c hc, if_pos rfl]
  · rw [h.eq, restScore_append, restScore_append]
    refine congrArg (· + _) ?_
    rw [restScore, restScore, List.map_map]
    refine congrArg _ (List.map_congr_left fun c hc ↦ ?_)
    exact (hadvance c hc d).trans (if_neg hd)
  · rw [h.eq]
    simp only [remaining, List.map_append, List.sum_append, List.map_map]
    refine Nat.add_lt_add_right ?_ _
    refine List.sum_lt_sum _ _ (fun c hc ↦ ?_) ?_
    · exact ((hfront c hc).length_rest_advance (h.live c hc)).le
    · obtain ⟨c, hc⟩ := List.exists_mem_of_ne_nil _ h.ne
      exact ⟨c, hc, (hfront c hc).length_rest_advance (h.live c hc)⟩

/-- **A turn of the loop** keeps the scan sound and shortens what is left. -/
theorem turn_eq_some {total : ℕ → R} {state state' : SearchState R}
    (hready : Ready index state.cursors)
    (hsound : Sound k total (restScore index state.cursors) state.heap)
    (hturn : searchTurn index k state = some state') :
    Ready index state'.cursors ∧ Sound k total (restScore index state'.cursors) state'.heap ∧
      remaining index state'.cursors < remaining index state.cursors := by
  obtain ⟨pivot, hpivot, hstate⟩ := Option.map_eq_some_iff.mp hturn
  obtain ⟨front, at', behind, hsplits⟩ := hready.splits hpivot
  have hbelow : ∀ d < pivot.pivotDoc, restScore index state.cursors d = 0 ∨
      restScore index state.cursors d < threshold k state.heap :=
    fun d hd ↦ hsplits.below hready.valid hd
  split_ifs at hstate with hbound
  · -- the block is passed over: no document in it reaches the threshold
    obtain rfl := hstate
    obtain ⟨hready', hless, hskip⟩ := hready.pass hpivot hbound
    exact ⟨hready', hsound.skip (restScore_nonneg hready'.valid) hskip, hless⟩
  · rcases hsplits.align hready with ⟨aligned, halign, hlength, hmoves, haligned⟩ |
      ⟨moved, halign, hmoves, hless⟩
    · -- a cursor went past the pivot, which is given up for the next turn
      rw [halign] at hstate
      dsimp only at hstate
      rw [← hlength, List.take_left] at hstate
      obtain rfl := hstate
      have hmoved := hsound.skip (restScore_nonneg hmoves.valid) (hmoves.skips hbelow)
      obtain ⟨hscore, hpos, hgone, hother, hless⟩ := haligned.score hmoves.valid
      -- all cursors up to the pivot stand at it, and it is scored
      have hadvanced : advanceAllCursorsOnPivot (aligned ++ behind) aligned.length =
          sortAndPruneTerminated (aligned.map TermCursor.advance ++ behind) := by
        rw [advanceAllCursorsOnPivot, List.take_left, List.drop_left]
      have hvalid : ∀ c ∈ aligned.map TermCursor.advance ++ behind, c.Valid index := by
        intro c hc
        rcases List.mem_append.mp hc with hc | hc
        · obtain ⟨c', hc', rfl⟩ := List.mem_map.mp hc
          exact (hmoves.valid c' (List.mem_append_left _ hc')).advance
        · exact hmoves.valid c (List.mem_append_right _ hc)
      have hrest : restScore index (sortAndPruneTerminated
          (aligned.map TermCursor.advance ++ behind)) =
          restScore index (aligned.map TermCursor.advance ++ behind) :=
        funext (restScore_sortAndPrune hvalid)
      dsimp only
      rw [hadvanced, hscore, hrest, remaining_sortAndPrune hvalid]
      exact ⟨ready_sortAndPrune hvalid, hmoved.score hpos hgone hother,
        hless.trans_le hmoves.remaining_le⟩
    · rw [halign] at hstate
      obtain rfl := hstate
      have hrest : restScore index (sortAndPruneTerminated moved) = restScore index moved :=
        funext (restScore_sortAndPrune hmoves.valid)
      dsimp only
      rw [hrest, remaining_sortAndPrune hmoves.valid]
      exact ⟨ready_sortAndPrune hmoves.valid,
        hsound.skip (restScore_nonneg hmoves.valid) (hmoves.skips hbelow), hless⟩

/-! ## The loop -/

/-- The states of the loop, turn by turn. -/
def Turn (index : Bm25Index F) (k : ℕ) (state state' : SearchState R) : Prop :=
  searchTurn index k state = some state'

omit [IsOrderedCancelAddMonoid R] in
/-- What is beaten stays beaten. -/
theorem beaten_turn {state state' : SearchState R} {e : Entry R} (hturn : Turn index k state state')
    (hsorted : state.heap.Pairwise (· < ·)) (h : Beaten k state.heap e) :
    Beaten k state'.heap e := by
  obtain ⟨pivot, -, hstate⟩ := Option.map_eq_some_iff.mp hturn
  split_ifs at hstate
  · obtain rfl := hstate
    exact h
  · rcases halign : alignCursors state.cursors pivot with ⟨_ | _, cursors⟩
    · rw [halign] at hstate
      obtain rfl := hstate
      exact h
    · rw [halign] at hstate
      obtain rfl := hstate
      exact h.keep hsorted _

/-- **The loop ends**, with a sound scan of which nothing is left that counts. Its states are sound,
and what is beaten in one of them is beaten in the end. -/
theorem searchLoop_ends {total : ℕ → R} (state : SearchState R) (hready : Ready index state.cursors)
    (hsound : Sound k total (restScore index state.cursors) state.heap) :
    ∃ rest heap, Sound k total rest heap ∧ (∀ d, rest d = 0 ∨ rest d < threshold k heap) ∧
      (∀ fuel, remaining index state.cursors < fuel → searchLoop index k fuel state = some heap) ∧
      ∀ state', Relation.ReflTransGen (Turn index k) state state' →
        Ready index state'.cursors ∧
        Sound k total (restScore index state'.cursors) state'.heap ∧
        ∀ e, Beaten k state'.heap e → Beaten k heap e := by
  induction hn : remaining index state.cursors using Nat.strong_induction_on generalizing state with
  | _ n ih =>
    subst hn
    rcases hturn : searchTurn index k state with _ | next
    · refine ⟨_, _, hsound, hready.done (Option.map_eq_none_iff.mp hturn), ?_, ?_⟩
      · intro fuel hfuel
        obtain ⟨fuel, rfl⟩ := Nat.exists_eq_succ_of_ne_zero (Nat.ne_zero_of_lt hfuel)
        rw [searchLoop, hturn]
      · intro state' hreached
        rcases hreached.cases_head with rfl | ⟨between, hfirst, -⟩
        · exact ⟨hready, hsound, fun _ hb ↦ hb⟩
        · rw [Turn, hturn] at hfirst
          cases hfirst
    · obtain ⟨hready', hsound', hless⟩ := turn_eq_some hready hsound hturn
      obtain ⟨rest, heap, hfinal, hdone, hfuel, hstates⟩ := ih _ hless next hready' hsound' rfl
      refine ⟨rest, heap, hfinal, hdone, fun fuel hlt ↦ ?_, fun state' hreached ↦ ?_⟩
      · obtain ⟨fuel, rfl⟩ := Nat.exists_eq_succ_of_ne_zero (Nat.ne_zero_of_lt hlt)
        have hnext := hfuel fuel (hless.trans_le (Nat.le_of_lt_succ hlt))
        rw [searchLoop, hturn]
        dsimp only
        split_ifs with hempty
        · -- without cursors the next turn leaves the loop as well
          obtain ⟨fuel, rfl⟩ := Nat.exists_eq_succ_of_ne_zero
            (Nat.ne_zero_of_lt (hless.trans_le (Nat.le_of_lt_succ hlt)))
          rw [← hnext, searchLoop]
          have hleft : searchTurn index k next = none := by
            rw [searchTurn, List.isEmpty_iff.mp hempty]
            rfl
          rw [hleft]
        · exact hnext
      · rcases hreached.cases_head with rfl | ⟨between, hfirst, hrest⟩
        · refine ⟨hready, hsound, fun e hb ↦ ?_⟩
          exact (hstates next .refl).2.2 e (beaten_turn hturn hsound.sorted hb)
        · rw [Turn, hturn] at hfirst
          obtain rfl := Option.some.inj hfirst
          exact hstates state' hrest

end Khive.Bm25
