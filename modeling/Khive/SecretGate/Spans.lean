import Khive.SecretGate.Masking

/-!
# Spans

Spans are well formed when they are not empty, ascend without overlapping and start and end between
characters. Pushing a piece of the text keeps them so, and covers every character of the piece that
is no invisible separator.
-/

namespace Khive

namespace SecretGate

structure WellFormed (text : List Char) (spans : List Span) : Prop where
  lt : ∀ p ∈ spans, p.1 < p.2
  ascending : spans.Pairwise fun p q ↦ p.2 ≤ q.1
  boundary : ∀ p ∈ spans, IsBoundary text p.1 ∧ IsBoundary text p.2

/-- The spans end no later than at the position. -/
def EndsBy (spans : List Span) (n : ℕ) : Prop := ∀ p ∈ spans, p.2 ≤ n

/-- The character at its position lies in a span. -/
def InSpan (spans : List Span) (p : ℕ × Char) : Prop :=
  ∃ q ∈ spans, q.1 ≤ p.1 ∧ p.1 + p.2.utf8Size ≤ q.2

/-- The characters at a position that are no separators lie in spans. -/
def Covers (separator : Char → Bool) (spans : List Span) (n : ℕ) (chars : List Char) : Prop :=
  ∀ p ∈ charIndices n chars, separator p.2 = false → InSpan spans p

variable {text : List Char} {spans spans' : List Span} {separator : Char → Bool}

theorem EndsBy.mono {n m : ℕ} (h : EndsBy spans n) (hle : n ≤ m) : EndsBy spans m :=
  fun p hp ↦ (h p hp).trans hle

theorem EndsBy.concat {n a b : ℕ} (h : EndsBy spans n) (hb : n ≤ b) :
    EndsBy (spans ++ [(a, b)]) b := by
  intro p hp
  rcases List.mem_append.mp hp with hp | hp
  · exact (h p hp).trans hb
  · exact (List.mem_singleton.mp hp ▸ le_rfl)

theorem WellFormed.concat {n a b : ℕ} (h : WellFormed text spans) (hends : EndsBy spans n)
    (hn : n ≤ a) (hab : a < b) (ha : IsBoundary text a) (hb : IsBoundary text b) :
    WellFormed text (spans ++ [(a, b)]) where
  lt p hp := by
    rcases List.mem_append.mp hp with hp | hp
    · exact h.lt p hp
    · exact List.mem_singleton.mp hp ▸ hab
  ascending := by
    refine List.pairwise_append.mpr ⟨h.ascending, List.pairwise_singleton _ _, fun p hp q hq ↦ ?_⟩
    rw [List.mem_singleton.mp hq]
    exact (hends p hp).trans hn
  boundary p hp := by
    rcases List.mem_append.mp hp with hp | hp
    · exact h.boundary p hp
    · exact List.mem_singleton.mp hp ▸ ⟨ha, hb⟩

theorem InSpan.mono (hsub : spans ⊆ spans') {p : ℕ × Char} (h : InSpan spans p) :
    InSpan spans' p := by
  obtain ⟨q, hq, hp⟩ := h
  exact ⟨q, hsub hq, hp⟩

theorem Covers.mono (hsub : spans ⊆ spans') {n : ℕ} {chars : List Char}
    (h : Covers separator spans n chars) : Covers separator spans' n chars :=
  fun p hp hsep ↦ (h p hp hsep).mono hsub

theorem covers_append {n : ℕ} {s t : List Char} : Covers separator spans n (s ++ t) ↔
    Covers separator spans n s ∧ Covers separator spans (n + utf8Len s) t := by
  rw [Covers, charIndices_append, List.forall_mem_append]
  rfl

/-- A separator need not be covered. -/
theorem covers_singleton {n : ℕ} {c : Char} (h : separator c = true) :
    Covers separator spans n [c] := by
  intro p hp hsep
  rw [List.mem_singleton.mp hp, h] at hsep
  cases hsep

/-- A span covers what stands in it. -/
theorem covers_of_mem {a b n : ℕ} {chars : List Char} (h : (a, b) ∈ spans) (ha : a ≤ n)
    (hb : n + utf8Len chars ≤ b) : Covers separator spans n chars := by
  intro p hp _
  obtain ⟨hle, hlt⟩ := bounds_of_mem_charIndices hp
  exact ⟨(a, b), h, ha.trans hle, hlt.trans hb⟩

/-! ## Pushing runs -/

section Pushing

variable {isAlphanumeric : Char → Bool}

/-- The loop after some characters of a piece that starts at `start`: a head that is dealt with, and
a run under way behind it. -/
structure Pushing (isAlphanumeric : Char → Bool) (text : List Char) (start : ℕ)
    (before : List Span) (seen : List Char) (s : List Span × Option ℕ) (head run : List Char) :
    Prop where
  eq : seen = head ++ run
  runStart : s.2 = if run = [] then none else some (utf8Len head)
  visible : ∀ c ∈ run, isInvisibleBridgeSeparator isAlphanumeric c = false
  wellFormed : WellFormed text s.1
  endsBy : EndsBy s.1 (start + utf8Len head)
  covers : Covers (isInvisibleBridgeSeparator isAlphanumeric) s.1 start head
  grown : before <+: s.1
  separators : s.1 = before → ∀ c ∈ head, isInvisibleBridgeSeparator isAlphanumeric c = true

variable {before : List Span} {front seen head run rest : List Char}
  {s : List Span × Option ℕ}

/-- Close the run under way. -/
theorem Pushing.close (h : Pushing isAlphanumeric text (utf8Len front) before seen s head run)
    (htext : text = front ++ (seen ++ rest)) (hrun : run ≠ []) :
    Pushing isAlphanumeric text (utf8Len front) before seen
      (s.1 ++ [(utf8Len front + utf8Len head, utf8Len front + utf8Len seen)], none) seen [] := by
  have hseen : utf8Len seen = utf8Len head + utf8Len run := by rw [h.eq, utf8Len_append]
  have hpos := utf8Len_pos hrun
  have hmem : (utf8Len front + utf8Len head, utf8Len front + utf8Len seen) ∈
      s.1 ++ [(utf8Len front + utf8Len head, utf8Len front + utf8Len seen)] :=
    List.mem_append_right _ List.mem_cons_self
  refine ⟨(List.append_nil _).symm, rfl, fun c hc ↦ absurd hc List.not_mem_nil, ?_, ?_, ?_,
    h.grown.trans (List.prefix_append _ _), ?_⟩
  · refine h.wellFormed.concat h.endsBy le_rfl (by omega) ?_ ?_
    · rw [htext, h.eq, ← utf8Len_append]
      simp only [← List.append_assoc]
      rw [List.append_assoc (front ++ head)]
      exact isBoundary_utf8Len _ _
    · rw [htext, ← utf8Len_append, ← List.append_assoc]
      exact isBoundary_utf8Len _ _
  · exact h.endsBy.concat (by omega)
  · rw [h.eq, covers_append]
    refine ⟨h.covers.mono (List.subset_append_left _ _), ?_⟩
    rw [← h.eq]
    exact covers_of_mem hmem le_rfl (by omega)
  · intro heq
    have hlen := h.grown.length_le
    rw [← heq, List.length_append] at hlen
    exact absurd hlen (by simp)

/-- With no run under way a separator is dealt with at once. -/
theorem Pushing.skip (h : Pushing isAlphanumeric text (utf8Len front) before seen s seen [])
    {c : Char} (hsep : isInvisibleBridgeSeparator isAlphanumeric c = true) :
    Pushing isAlphanumeric text (utf8Len front) before (seen ++ [c]) s (seen ++ [c]) [] := by
  refine ⟨(List.append_nil _).symm, h.runStart, h.visible, h.wellFormed, h.endsBy.mono ?_,
    covers_append.mpr ⟨h.covers, covers_singleton hsep⟩, h.grown, ?_⟩
  · rw [utf8Len_append]
    omega
  · intro heq d hd
    rcases List.mem_append.mp hd with hd | hd
    · exact h.separators heq d hd
    · rwa [List.mem_singleton.mp hd]

/-- Any other character goes on with the run. -/
theorem Pushing.extend (h : Pushing isAlphanumeric text (utf8Len front) before seen s head run)
    {c : Char} (hsep : isInvisibleBridgeSeparator isAlphanumeric c = false) :
    Pushing isAlphanumeric text (utf8Len front) before (seen ++ [c])
      (s.1, some (s.2.getD (utf8Len seen))) head (run ++ [c]) := by
  refine ⟨?_, ?_, ?_, h.wellFormed, h.endsBy, h.covers, h.grown, h.separators⟩
  · rw [h.eq, List.append_assoc]
  · rw [if_neg (List.append_ne_nil_of_right_ne_nil _ (List.cons_ne_nil c []))]
    by_cases hrun : run = []
    · rw [h.runStart, if_pos hrun, Option.getD_none, h.eq, hrun, List.append_nil]
    · rw [h.runStart, if_neg hrun, Option.getD_some]
  · intro d hd
    rcases List.mem_append.mp hd with hd | hd
    · exact h.visible d hd
    · rwa [List.mem_singleton.mp hd]

/-- A separator closes the run, and another character goes on with it. -/
theorem Pushing.step (h : Pushing isAlphanumeric text (utf8Len front) before seen s head run)
    {c : Char} (htext : text = front ++ (seen ++ c :: rest)) :
    ∃ head' run', Pushing isAlphanumeric text (utf8Len front) before (seen ++ [c])
      (pushRun isAlphanumeric (utf8Len front) s (utf8Len seen, c)) head' run' := by
  rw [pushRun]
  split_ifs with hsep
  · refine ⟨seen ++ [c], [], ?_⟩
    by_cases hrun : run = []
    · subst hrun
      have hhead : head = seen := by rw [h.eq, List.append_nil]
      have hnone : s.2 = none := h.runStart
      rw [hnone]
      rw [hhead] at h
      exact h.skip hsep
    · rw [h.runStart, if_neg hrun]
      exact (h.close htext hrun).skip hsep
  · exact ⟨head, run ++ [c], h.extend (Bool.not_eq_true _ ▸ hsep)⟩

theorem Pushing.foldl (h : Pushing isAlphanumeric text (utf8Len front) before seen s head run)
    {chars : List Char} (htext : text = front ++ (seen ++ (chars ++ rest))) :
    ∃ head' run', Pushing isAlphanumeric text (utf8Len front) before (seen ++ chars)
      ((charIndices (utf8Len seen) chars).foldl (pushRun isAlphanumeric (utf8Len front)) s)
      head' run' := by
  induction chars generalizing seen s head run with
  | nil =>
    rw [List.append_nil]
    exact ⟨head, run, h⟩
  | cons c chars ih =>
    obtain ⟨head', run', hstep⟩ := h.step htext
    have hih := ih hstep (by rw [htext, List.append_assoc]; rfl)
    rw [List.append_assoc, utf8Len_append] at hih
    rw [charIndices, List.foldl_cons]
    exact hih

/-- The spans after a piece was pushed: new ones, which end with the piece at the latest and cover
its characters. -/
structure Pushed (isAlphanumeric : Char → Bool) (text front span : List Char)
    (spans spans' : List Span) : Prop where
  wellFormed : WellFormed text spans'
  endsBy : EndsBy spans' (utf8Len (front ++ span))
  covers : Covers (isInvisibleBridgeSeparator isAlphanumeric) spans' (utf8Len front) span
  grown : spans <+: spans'
  ne : spans' ≠ []

/-- A piece that is dealt with, where something was pushed. -/
theorem Pushing.pushed (h : Pushing isAlphanumeric text (utf8Len front) before seen s seen [])
    (hne : s.1 ≠ []) : Pushed isAlphanumeric text front seen before s.1 :=
  ⟨h.wellFormed, utf8Len_append front seen ▸ h.endsBy, h.covers, h.grown, hne⟩

theorem pushed_whole {span : List Char} (htext : text = front ++ (span ++ rest)) (hspan : span ≠ [])
    (hwf : WellFormed text spans) (hends : EndsBy spans (utf8Len front)) :
    Pushed isAlphanumeric text front span spans
      (spans ++ [(utf8Len front, utf8Len (front ++ span))]) := by
  have hlen := utf8Len_append front span
  have hpos := utf8Len_pos hspan
  refine ⟨hwf.concat hends le_rfl (by omega) ?_ ?_, hends.concat (by omega),
    covers_of_mem (List.mem_append_right _ List.mem_cons_self) le_rfl hlen.ge,
    List.prefix_append _ _, List.append_ne_nil_of_right_ne_nil _ (List.cons_ne_nil _ _)⟩
  · rw [htext]
    exact isBoundary_utf8Len _ _
  · rw [htext, ← List.append_assoc]
    exact isBoundary_utf8Len _ _

theorem pushMaskSpans_spec {span : List Char} (htext : text = front ++ (span ++ rest))
    (hspan : span ≠ []) (hwf : WellFormed text spans) (hends : EndsBy spans (utf8Len front)) :
    Returns (pushMaskSpans isAlphanumeric text (utf8Len front) (utf8Len (front ++ span)) spans)
      (Pushed isAlphanumeric text front span spans) := by
  have hwhole : Pushed isAlphanumeric text front span spans _ :=
    pushed_whole htext hspan hwf hends
  rw [pushMaskSpans, htext, sliceBytes_utf8Len, ← htext]
  refine returns_bind.mpr (returns_some.mpr ?_)
  split_ifs with hnone
  · exact returns_pure.mpr hwhole
  · have hstart : Pushing isAlphanumeric text (utf8Len front) spans [] (spans, none) [] [] :=
      ⟨rfl, rfl, fun c hc ↦ absurd hc List.not_mem_nil, hwf, hends, fun p hp ↦
        absurd hp List.not_mem_nil, List.prefix_rfl, fun _ c hc ↦ absurd hc List.not_mem_nil⟩
    obtain ⟨head, run, hpushing⟩ := hstart.foldl htext
    rw [List.nil_append, utf8Len_nil] at hpushing
    generalize (charIndices 0 span).foldl (pushRun isAlphanumeric (utf8Len front)) (spans, none) = s
      at hpushing ⊢
    obtain ⟨pushed, runStart⟩ := s
    have hrunStart := hpushing.runStart
    refine returns_pure.mpr ?_
    by_cases hrun : run = []
    · rw [if_pos hrun] at hrunStart
      obtain rfl : runStart = none := hrunStart
      have hhead : head = span := by rw [hpushing.eq, hrun, List.append_nil]
      rw [hrun, hhead] at hpushing
      split_ifs with hlen
      · -- nothing was pushed: every character is a separator
        have heq : spans = pushed := hpushing.grown.eq_of_length hlen.symm
        rwa [heq] at hwhole ⊢
      · refine hpushing.pushed fun hempty ↦ hlen ?_
        have hprefix : spans <+: [] := hempty ▸ hpushing.grown
        rw [List.prefix_nil.mp hprefix]
        exact congrArg List.length hempty
    · rw [if_neg hrun] at hrunStart
      obtain rfl : runStart = some (utf8Len head) := hrunStart
      have hclosed := (hpushing.close htext hrun).pushed
        (List.append_ne_nil_of_right_ne_nil _ (List.cons_ne_nil _ _))
      rw [← utf8Len_append front span] at hclosed
      rw [if_neg]
      · exact hclosed
      · intro hlen
        have hgrown : spans.length ≤ pushed.length := hpushing.grown.length_le
        have hlonger : (pushed ++
            [(utf8Len front + utf8Len head, utf8Len (front ++ span))]).length = spans.length := hlen
        rw [List.length_append, List.length_singleton] at hlonger
        omega

end Pushing

end SecretGate

end Khive
