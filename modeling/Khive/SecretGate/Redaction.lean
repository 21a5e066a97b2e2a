import Khive.SecretGate.Bridge
import Khive.SecretGate.Spans

/-!
# Redaction

A pass of the masker over a match appends the spans that cover the match and the fragments behind
it, and moves the cursor to their end. The run ends at the end of the text, where the detector finds
nothing more, or where the budget is exhausted; there the last span is stretched to the end of the
text. Whatever the detector reports, the masked text is the text with the spans replaced.
-/

namespace Khive

namespace SecretGate

/-! ## The end of a match -/

section Matches

variable {isAlphanumeric : Char → Bool} {text : List Char} {cursor : ℕ}

/-- The characters of the match without its structural punctuation, and of every chain of fragments
that follows, lie in spans if they are no separators. -/
def Match.CoveredBy (isAlphanumeric : Char → Bool) (sub : Match text cursor) (spans : List Span) :
    Prop :=
  ∀ chain rest, Bridged (isInvisibleBridgeSeparator isAlphanumeric) (MAX_BRIDGE_FRAGMENTS - 1)
      chain rest → text = sub.before ++ (trimEndMatches sub.chars ++ (chain ++ rest)) →
    Covers (isInvisibleBridgeSeparator isAlphanumeric) spans (utf8Len sub.before)
      (trimEndMatches sub.chars ++ chain)

theorem isAscii_of_isStructural {c : Char} (h : isStructural c = true) : isAscii c = true := by
  rw [isStructural, List.contains_iff_mem] at h
  simp only [List.mem_cons, List.not_mem_nil, or_false] at h
  rcases h with rfl | rfl | rfl | rfl | rfl | rfl | rfl | rfl <;> rfl

/-- What is redacted at least: the match without its punctuation, or its first character. -/
theorem exists_core {before chars after : List Char} (htext : text = before ++ (chars ++ after))
    (hchars : chars ≠ []) : ∃ core behind, core ≠ [] ∧ text = before ++ (core ++ behind) ∧
      max (utf8Len (trimEndMatches chars)) 1 = utf8Len core ∧
      (core = trimEndMatches chars ∨
        trimEndMatches chars = [] ∧ core.head?.any isStructural = true) := by
  by_cases htrim : trimEndMatches chars = []
  · obtain ⟨c, tail, rfl⟩ := List.exists_cons_of_ne_nil hchars
    have hc : isStructural c = true := List.rdropWhile_eq_nil_iff.mp htrim c List.mem_cons_self
    refine ⟨[c], tail ++ after, List.cons_ne_nil _ _, htext, ?_, .inr ⟨htrim, hc⟩⟩
    rw [htrim, utf8Len_cons, utf8Size_of_isAscii (isAscii_of_isStructural hc), utf8Len_nil]
    rfl
  · obtain ⟨tail, htail⟩ := List.rdropWhile_prefix isStructural (l := chars)
    refine ⟨trimEndMatches chars, tail ++ after, htrim, ?_, max_eq_left (utf8Len_pos htrim),
      .inl rfl⟩
    rw [trimEndMatches, ← List.append_assoc _ tail, htail]
    exact htext

/-- No chain starts with punctuation. -/
theorem Bridged.eq_nil {n : ℕ} {chain rest : List Char}
    (h : Bridged (isInvisibleBridgeSeparator isAlphanumeric) n chain rest)
    (hhead : (chain ++ rest).head?.any isStructural = true) : chain = [] := by
  cases h with
  | nil => rfl
  | @cons n gap fragment chain rest hne hgap _ _ _ _ =>
    obtain ⟨c, gap, rfl⟩ := List.exists_cons_of_ne_nil hne
    have hsep := hgap c List.mem_cons_self
    have hascii : isAscii c = true := isAscii_of_isStructural hhead
    rw [isInvisibleBridgeSeparator, hascii] at hsep
    cases hsep

/-- The redaction for a match ends between characters, behind the match and every chain. -/
theorem extend_spec {before chars after : List Char} (htext : text = before ++ (chars ++ after))
    (hchars : chars ≠ []) :
    Returns (extendAcrossInvisibleBridge isAlphanumeric text
      (utf8Len before + max (utf8Len (trimEndMatches chars)) 1)) fun stop ↦
        ∃ span rest, span ≠ [] ∧ text = before ++ (span ++ rest) ∧
          stop = utf8Len (before ++ span) ∧ ∀ chain rest',
            Bridged (isInvisibleBridgeSeparator isAlphanumeric) (MAX_BRIDGE_FRAGMENTS - 1) chain
              rest' → text = before ++ (trimEndMatches chars ++ (chain ++ rest')) →
                trimEndMatches chars ++ chain <+: span := by
  obtain ⟨core, behind, hne, hcore, hlen, hcases⟩ := exists_core htext hchars
  rw [hlen, ← utf8Len_append, extendAcrossInvisibleBridge]
  have hcut : text = (before ++ core) ++ behind := by rw [hcore, List.append_assoc]
  obtain ⟨stop, hstop, chain, rest, rfl, rfl⟩ :=
    extendPasses_boundary (MAX_BRIDGE_FRAGMENTS - 1) hcut
  refine ⟨_, hstop, core ++ chain, rest, ?_, ?_, ?_, ?_⟩
  · exact fun hnil ↦ hne (List.append_eq_nil_iff.mp hnil).1
  · rw [hcore, List.append_assoc]
  · rw [List.append_assoc]
  · intro chain' rest' hbridged htext'
    rcases hcases with rfl | ⟨htrim, hhead⟩
    · -- the chain is a start of the one the redaction went along
      have hcut' : text = (before ++ trimEndMatches chars) ++ (chain' ++ rest') := by
        rw [htext', List.append_assoc]
      have hreaches := (extendPasses_reaches hbridged hcut').of_eq hstop
      have htwo : (before ++ trimEndMatches chars ++ chain') ++ rest' =
          (before ++ trimEndMatches chars ++ chain) ++ rest := by
        rw [List.append_assoc, ← hcut', hcut, ← List.append_assoc]
      obtain ⟨u, hu, -⟩ := exists_eq_append htwo hreaches
      have hspan : before ++ (trimEndMatches chars ++ chain' ++ u) =
          before ++ (trimEndMatches chars ++ chain) := by
        simpa only [List.append_assoc] using hu.symm
      exact ⟨u, List.append_cancel_left hspan⟩
    · -- all of the match is trimmed, and its first character ends every chain
      rw [htrim, List.nil_append] at htext'
      have hsame : core ++ (chain ++ rest) = chain' ++ rest' :=
        List.append_cancel_left (hcore.symm.trans htext')
      have hnil : chain' = [] := by
        refine hbridged.eq_nil ?_
        rw [← hsame, List.head?_append_of_ne_nil _ hne]
        exact hhead
      rw [htrim, hnil]
      exact List.nil_prefix

/-- The same for a match. -/
theorem matchEnd_spec (sub : Match text cursor) :
    Returns (matchEnd isAlphanumeric text sub) fun stop ↦ ∃ span rest, span ≠ [] ∧
      text = sub.before ++ (span ++ rest) ∧ stop = utf8Len (sub.before ++ span) ∧
      ∀ spans, Covers (isInvisibleBridgeSeparator isAlphanumeric) spans (utf8Len sub.before) span →
        sub.CoveredBy isAlphanumeric spans := by
  refine (extend_spec sub.eq sub.nonempty).mono ?_
  rintro stop ⟨span, rest, hspan, htext, hstop, hprefix⟩
  refine ⟨span, rest, hspan, htext, hstop, fun spans hcovers chain rest' hbridged htext' ↦ ?_⟩
  obtain ⟨u, hu⟩ := hprefix chain rest' hbridged htext'
  rw [← hu] at hcovers
  exact (covers_append.mp hcovers).1

end Matches

/-! ## Passes -/

/-- What holds between the passes. -/
structure Masking (text : List Char) (s : MaskState) : Prop where
  boundary : IsBoundary text s.cursor
  wellFormed : WellFormed text s.spans
  endsBy : EndsBy s.spans s.cursor
  started : 0 < s.scanWorkBytes → s.spans ≠ []

/-- Whatever lies in a span before lies in one after. -/
def Extends (spans spans' : List Span) : Prop := ∀ p, InSpan spans p → InSpan spans' p

theorem Extends.covers {separator : Char → Bool} {spans spans' : List Span}
    (h : Extends spans spans') {n : ℕ} {chars : List Char}
    (hcovers : Covers separator spans n chars) : Covers separator spans' n chars :=
  fun p hp hsep ↦ h p (hcovers p hp hsep)

theorem extends_of_subset {spans spans' : List Span} (h : spans ⊆ spans') : Extends spans spans' :=
  fun _ hp ↦ hp.mono h

/-- Only the end of the last span moves. -/
theorem extendLast_concat (spans : List Span) (p : Span) (stop : ℕ) :
    extendLast (spans ++ [p]) stop = some (spans ++ [(p.1, stop)]) := by
  induction spans with
  | nil => rfl
  | cons q spans ih =>
    rcases spans with - | ⟨q', spans⟩
    · rfl
    · rw [List.cons_append, List.cons_append, extendLast, ← List.cons_append, ih]
      rfl

section Passes

variable {isAlphanumeric : Char → Bool} {text : List Char} {spans : List Span} {p : Span}
  {scanFrom : (cursor : ℕ) → Option (Match text cursor)} {s s' : MaskState}

/-- Stretching the last span to the end of the text keeps the spans well formed. -/
theorem WellFormed.stretch (h : WellFormed text (spans ++ [p])) (hlt : p.2 ≤ utf8Len text) :
    WellFormed text (spans ++ [(p.1, utf8Len text)]) := by
  have hp : p ∈ spans ++ [p] := List.mem_append_right _ List.mem_cons_self
  obtain ⟨hspans, -, hbefore⟩ := List.pairwise_append.mp h.ascending
  refine ⟨fun q hq ↦ ?_, List.pairwise_append.mpr
    ⟨hspans, List.pairwise_singleton _ _, fun q hq r hr ↦ ?_⟩, fun q hq ↦ ?_⟩
  · rcases List.mem_append.mp hq with hq | hq
    · exact h.lt q (List.mem_append_left _ hq)
    · rw [List.mem_singleton.mp hq]
      exact (h.lt p hp).trans_le hlt
  · rw [List.mem_singleton.mp hr]
    exact hbefore q hq p List.mem_cons_self
  · rcases List.mem_append.mp hq with hq | hq
    · exact h.boundary q (List.mem_append_left _ hq)
    · rw [List.mem_singleton.mp hq]
      exact ⟨(h.boundary p hp).1, text, [], (List.append_nil _).symm, rfl⟩

theorem extends_stretch {n : ℕ} (hle : p.2 ≤ n) : Extends (spans ++ [p]) (spans ++ [(p.1, n)]) := by
  rintro c ⟨q, hq, hstart, hend⟩
  rcases List.mem_append.mp hq with hq | hq
  · exact ⟨q, List.mem_append_left _ hq, hstart, hend⟩
  · rw [List.mem_singleton.mp hq] at hstart hend
    exact ⟨(p.1, n), List.mem_append_right _ List.mem_cons_self, hstart, hend.trans hle⟩

/-- With the budget exhausted there is a last span, and the pass stretches it. -/
theorem maskPass_exhausted (h : Masking text s) (hcursor : s.cursor < utf8Len text)
    (hbudget : budgetExhausted text s = true) : ∃ spans p, s.spans = spans ++ [p] ∧
      p.2 ≤ utf8Len text ∧ maskPass isAlphanumeric text scanFrom s =
        some (.leave (spans ++ [(p.1, utf8Len text)], s.scanWorkBytes)) := by
  have hwork : 0 < s.scanWorkBytes := by
    rw [budgetExhausted, Bool.and_eq_true, decide_eq_true_eq] at hbudget
    exact hbudget.1
  obtain ⟨spans, p, hspans⟩ : ∃ spans p, s.spans = spans ++ [p] :=
    ⟨_, _, (List.dropLast_append_getLast (h.started hwork)).symm⟩
  have hp : p ∈ s.spans := hspans ▸ List.mem_append_right _ List.mem_cons_self
  refine ⟨spans, p, hspans, (h.endsBy p hp).trans hcursor.le, ?_⟩
  rw [maskPass, if_neg (not_le.mpr hcursor), if_pos hbudget, hspans, extendLast_concat]
  rfl

/-- A match is covered, and the cursor moves behind it. -/
theorem maskPass_match (h : Masking text s) (hcursor : s.cursor < utf8Len text)
    (hbudget : budgetExhausted text s = false) {sub : Match text s.cursor}
    (hsub : scanFrom s.cursor = some sub) : ∃ s',
      maskPass isAlphanumeric text scanFrom s = some (.again s') ∧ Masking text s' ∧
        s.cursor < s'.cursor ∧ s.spans <+: s'.spans ∧ sub.CoveredBy isAlphanumeric s'.spans := by
  obtain ⟨stop, hstop, span, rest, hspan, htext, rfl, hcovered⟩ :=
    @matchEnd_spec isAlphanumeric _ _ sub
  obtain ⟨spans, hpush, hpushed⟩ :=
    pushMaskSpans_spec htext hspan h.wellFormed (h.endsBy.mono sub.cursor_le)
  refine ⟨⟨spans, utf8Len (sub.before ++ span),
    saturatingAdd s.scanWorkBytes (scanLen text s.cursor)⟩, ?_,
    ⟨?_, hpushed.wellFormed, hpushed.endsBy, fun _ ↦ hpushed.ne⟩, ?_, hpushed.grown,
    hcovered _ hpushed.covers⟩
  · rw [maskPass, if_neg (not_le.mpr hcursor), if_neg (Bool.not_eq_true _ ▸ hbudget)]
    dsimp only
    rw [hsub]
    dsimp only
    rw [hstop]
    exact Option.bind_eq_some_iff.mpr ⟨_, rfl, Option.bind_eq_some_iff.mpr ⟨_, hpush, rfl⟩⟩
  · exact ⟨sub.before ++ span, rest, htext.trans (List.append_assoc _ _ _).symm, rfl⟩
  · have hpos := utf8Len_pos hspan
    have hle := sub.cursor_le
    change s.cursor < utf8Len (sub.before ++ span)
    rw [utf8Len_append]
    omega

theorem maskPass_nothing (hcursor : s.cursor < utf8Len text)
    (hbudget : budgetExhausted text s = false) (hsub : scanFrom s.cursor = none) :
    maskPass isAlphanumeric text scanFrom s =
      some (.leave (s.spans, saturatingAdd s.scanWorkBytes (scanLen text s.cursor))) := by
  rw [maskPass, if_neg (not_le.mpr hcursor), if_neg (Bool.not_eq_true _ ▸ hbudget)]
  dsimp only
  rw [hsub]
  rfl

/-- What a pass comes to, wherever the masker stands. -/
theorem maskPass_spec (h : Masking text s) :
    Returns (maskPass isAlphanumeric text scanFrom s)
      (Pass.Satisfies (fun s' ↦ Masking text s' ∧ Extends s.spans s'.spans)
        (fun s ↦ utf8Len text - s.cursor)
        (fun r ↦ WellFormed text r.1 ∧ Extends s.spans r.1) (utf8Len text - s.cursor)) := by
  by_cases hcursor : s.cursor < utf8Len text
  · rcases hbudget : budgetExhausted text s with - | -
    · rcases hsub : scanFrom s.cursor with - | sub
      · exact ⟨_, maskPass_nothing hcursor hbudget hsub, h.wellFormed, fun _ hp ↦ hp⟩
      · obtain ⟨s', hpass, hmasking, hlt, hgrown, -⟩ := maskPass_match h hcursor hbudget hsub
        exact ⟨_, hpass, ⟨hmasking, extends_of_subset hgrown.subset⟩,
          Nat.sub_lt_sub_left hcursor hlt⟩
    · obtain ⟨spans, p, hspans, hle, hpass⟩ := maskPass_exhausted h hcursor hbudget
      refine ⟨_, hpass, WellFormed.stretch (hspans ▸ h.wellFormed) hle, ?_⟩
      rw [hspans]
      exact extends_stretch hle
  · refine ⟨.leave (s.spans, s.scanWorkBytes), ?_, h.wellFormed, fun _ hp ↦ hp⟩
    rw [maskPass, if_pos (not_lt.mp hcursor)]
    rfl

/-- The states of a run of the masker. -/
def Reaches (isAlphanumeric : Char → Bool) (text : List Char)
    (scanFrom : (cursor : ℕ) → Option (Match text cursor)) : MaskState → MaskState → Prop :=
  Relation.ReflTransGen fun s s' ↦ maskPass isAlphanumeric text scanFrom s = some (.again s')

theorem Masking.of_reaches (h : Masking text s)
    (hreach : Reaches isAlphanumeric text scanFrom s s') : Masking text s' := by
  induction hreach with
  | refl => exact h
  | tail _ hstep ih => exact ((maskPass_spec ih).of_eq hstep).1.1

theorem masking_start (text : List Char) : Masking text ⟨[], 0, 0⟩ where
  boundary := ⟨[], text, rfl, rfl⟩
  wellFormed :=
    ⟨fun _ hp ↦ absurd hp List.not_mem_nil, .nil, fun _ hp ↦ absurd hp List.not_mem_nil⟩
  endsBy _ hp := absurd hp List.not_mem_nil
  started hlt := absurd hlt (lt_irrefl 0)

/-- The loop ends, and whatever was covered on the way still is. -/
theorem loop_maskPass (h : Masking text s) {passes : ℕ} (hpasses : utf8Len text < passes) :
    Returns (loop (maskPass isAlphanumeric text scanFrom) passes s) fun r ↦
      WellFormed text r.1 ∧ Extends s.spans r.1 := by
  have hstep : ∀ s', (Masking text s' ∧ Extends s.spans s'.spans) →
      Returns (maskPass isAlphanumeric text scanFrom s')
        (Pass.Satisfies (fun s' ↦ Masking text s' ∧ Extends s.spans s'.spans)
          (fun s ↦ utf8Len text - s.cursor)
          (fun r ↦ WellFormed text r.1 ∧ Extends s.spans r.1) (utf8Len text - s'.cursor)) := by
    rintro s' ⟨hmasking, hextends⟩
    refine (maskPass_spec hmasking).mono ?_
    rintro (s'' | r) hpass
    · exact ⟨⟨hpass.1.1, fun p hp ↦ hpass.1.2 p (hextends p hp)⟩, hpass.2⟩
    · exact ⟨hpass.1, fun p hp ↦ hpass.2 p (hextends p hp)⟩
  exact returns_loop hstep ⟨h, fun _ hp ↦ hp⟩ (lt_of_le_of_lt (Nat.sub_le _ _) hpasses)

end Passes

/-! ## The masked text -/

/-- The text from a position on with the spans replaced, and everything else as it was. -/
inductive Redacted : ℕ → List Span → List Char → List Char → Prop
  | done (n : ℕ) (text : List Char) : Redacted n [] text text
  | span {n : ℕ} {kept secret rest out : List Char} {spans : List Span}
      (h : Redacted (n + utf8Len kept + utf8Len secret) spans rest out) :
      Redacted n ((n + utf8Len kept, n + utf8Len kept + utf8Len secret) :: spans)
        (kept ++ (secret ++ rest)) (kept ++ (REDACTION_MARKER ++ out))

section Writing

variable {text : List Char} {spans : List Span}

/-- Writing the spans keeps what stands between them, and the cursor stands behind the last. -/
theorem foldlM_writeSpan (h : WellFormed text spans) {s t : List Char} (htext : text = s ++ t)
    (hstart : ∀ p ∈ spans, utf8Len s ≤ p.1) (written : List Char) :
    ∃ out s' t', spans.foldlM (writeSpan text) (written, utf8Len s) =
      some (written ++ out, utf8Len s') ∧ text = s' ++ t' ∧
        Redacted (utf8Len s) spans t (out ++ t') := by
  induction spans generalizing s t written with
  | nil => exact ⟨[], s, t, by rw [List.append_nil]; rfl, htext, .done _ _⟩
  | cons p spans ih =>
    obtain ⟨start, stop⟩ := p
    have hle : utf8Len s ≤ start := hstart _ List.mem_cons_self
    have hlt : start < stop := h.lt _ List.mem_cons_self
    obtain ⟨hfirst, hsecond⟩ := h.boundary _ List.mem_cons_self
    obtain ⟨kept, t, rfl, rfl⟩ := (htext ▸ hfirst : IsBoundary (s ++ _) start).exists_cut hle
    rw [← List.append_assoc] at htext
    obtain ⟨secret, t, rfl, rfl⟩ :=
      (htext ▸ hsecond : IsBoundary ((s ++ kept) ++ _) stop).exists_cut hlt.le
    have hnext : text = (s ++ kept ++ secret) ++ t := by
      simp only [htext, List.append_assoc]
    have hrest : WellFormed text spans :=
      ⟨fun p hp ↦ h.lt p (List.mem_cons_of_mem _ hp), (List.pairwise_cons.mp h.ascending).2,
        fun p hp ↦ h.boundary p (List.mem_cons_of_mem _ hp)⟩
    obtain ⟨out, s', t', hfold, htext', hredacted⟩ := ih hrest hnext
      (List.pairwise_cons.mp h.ascending).1 (written ++ (kept ++ REDACTION_MARKER))
    refine ⟨kept ++ (REDACTION_MARKER ++ out), s', t', ?_, htext', ?_⟩
    · -- the text up to the span is copied, and the span becomes the marker
      have hslice : sliceBytes text (utf8Len s) (utf8Len (s ++ kept)) = some kept := by
        rw [htext, List.append_assoc]
        exact sliceBytes_utf8Len s kept (secret ++ t)
      have hwrite : writeSpan text (written, utf8Len s)
          (utf8Len (s ++ kept), utf8Len (s ++ kept ++ secret)) =
            some (written ++ (kept ++ REDACTION_MARKER), utf8Len (s ++ kept ++ secret)) := by
        rw [writeSpan, max_eq_left hle, hslice, max_eq_left (hle.trans hlt.le)]
        rfl
      rw [List.foldlM_cons, hwrite]
      refine hfold.trans ?_
      simp only [List.append_assoc]
    · rw [utf8Len_append (s ++ kept), utf8Len_append s] at hredacted ⊢
      rw [List.append_assoc, List.append_assoc]
      exact .span hredacted

end Writing

section Redaction

variable {isAlphanumeric : Char → Bool} {text : List Char}
  {scanFrom : (cursor : ℕ) → Option (Match text cursor)}

/-- What the masker writes for well-formed spans. -/
theorem maskSecrets_of_spans {passes : ℕ} {r : List Span × ℕ} (h : WellFormed text r.1)
    (hcollect : collectMaskSpans isAlphanumeric text scanFrom passes = some r) :
    ∃ out, maskSecrets isAlphanumeric text scanFrom passes = some out ∧
      Redacted 0 r.1 text out := by
  rw [maskSecrets, hcollect]
  obtain ⟨spans, work⟩ := r
  by_cases hempty : spans.isEmpty = true
  · obtain rfl := List.isEmpty_iff.mp hempty
    exact ⟨text, rfl, .done _ _⟩
  · obtain ⟨out, s', t', hfold, htext, hredacted⟩ := foldlM_writeSpan h (s := []) (t := text) rfl
      (fun _ _ ↦ Nat.zero_le _) []
    refine ⟨out ++ t', ?_, hredacted⟩
    refine Option.bind_eq_some_iff.mpr ⟨_, rfl, ?_⟩
    dsimp only
    rw [if_neg hempty]
    refine Option.bind_eq_some_iff.mpr ⟨_, hfold, Option.bind_eq_some_iff.mpr ⟨t', ?_, rfl⟩⟩
    rw [htext]
    exact sliceFrom_utf8Len s' t'

/-- For every text and every detector the masker ends, without panicking: its spans are well formed,
everything reported in its run is covered, where the budget ran out the last span goes on to the end
of the text, and the text is written with exactly the spans replaced. -/
theorem maskSecrets_spec (isAlphanumeric : Char → Bool) (text : List Char)
    (scanFrom : (cursor : ℕ) → Option (Match text cursor)) {passes : ℕ}
    (hpasses : utf8Len text < passes) :
    ∃ spans work out,
      collectMaskSpans isAlphanumeric text scanFrom passes = some (spans, work) ∧
      WellFormed text spans ∧
      (∀ s, Reaches isAlphanumeric text scanFrom ⟨[], 0, 0⟩ s → s.cursor < utf8Len text →
        (budgetExhausted text s = false → ∀ sub, scanFrom s.cursor = some sub →
          sub.CoveredBy isAlphanumeric spans) ∧
        (budgetExhausted text s = true → ∃ before last,
          s.spans = before ++ [last] ∧ spans = before ++ [(last.1, utf8Len text)])) ∧
      maskSecrets isAlphanumeric text scanFrom passes = some out ∧ Redacted 0 spans text out := by
  have hstart := masking_start text
  obtain ⟨⟨spans, work⟩, hcollect, hwellFormed, -⟩ := loop_maskPass hstart hpasses
  obtain ⟨out, hmask, hredacted⟩ := maskSecrets_of_spans hwellFormed hcollect
  refine ⟨spans, work, out, hcollect, hwellFormed, fun s hreach hcursor ↦ ?_, hmask, hredacted⟩
  have hmasking := hstart.of_reaches hreach
  constructor
  · intro hbudget sub hsub
    obtain ⟨s', hpass, hmasking', -, -, hcovered⟩ := maskPass_match hmasking hcursor hbudget hsub
    obtain ⟨fuel, hloop⟩ := loop_of_reaches (hreach.tail hpass) hcollect
    obtain ⟨r, hrest, -, hextends⟩ :=
      @loop_maskPass isAlphanumeric _ scanFrom _ hmasking' _ (Nat.lt_succ_self _)
    obtain rfl := loop_unique hrest hloop
    exact fun chain rest hbridged htext ↦ hextends.covers (hcovered chain rest hbridged htext)
  · intro hbudget
    obtain ⟨before, last, hspans, -, hpass⟩ := maskPass_exhausted hmasking hcursor hbudget
    obtain ⟨fuel, hloop⟩ := loop_of_reaches hreach hcollect
    have hresult := loop_of_leave hpass hloop
    exact ⟨before, last, hspans, congrArg Prod.fst hresult⟩

end Redaction

/-- A secret in two fragments with an invisible separator between them, and another one. -/
def sampleText : List Char := "é=ab\u200b12345678 cd;".toList

/-- A detector that reports `ab`, and then `cd` with the semicolon behind it. -/
def sampleDetector (cursor : ℕ) : Option (Match sampleText cursor) :=
  if h : cursor ≤ 3 then
    some ⟨"é=".toList, "ab".toList, "\u200b12345678 cd;".toList, "sample", by decide, by decide, h⟩
  else if h : cursor ≤ 17 then
    some ⟨"é=ab\u200b12345678 ".toList, "cd;".toList, [], "sample", by decide, by decide, h⟩
  else none

/-- The separator stays, and so does the semicolon. -/
theorem maskSecrets_spec_sample : ∃ out,
    maskSecrets Char.isAlphanum sampleText sampleDetector 21 = some out ∧
      Redacted 0 [(3, 5), (8, 16), (17, 19)] sampleText out ∧
      WellFormed sampleText [(3, 5), (8, 16), (17, 19)] ∧
      ∀ sub, sampleDetector 0 = some sub →
        sub.CoveredBy Char.isAlphanum [(3, 5), (8, 16), (17, 19)] := by
  obtain ⟨spans, work, out, hcollect, hwellFormed, hcovered, hmask, hredacted⟩ :=
    maskSecrets_spec Char.isAlphanum sampleText sampleDetector (show _ < 21 by decide +kernel)
  have hspans : (collectMaskSpans Char.isAlphanum sampleText sampleDetector 21).map Prod.fst =
      some [(3, 5), (8, 16), (17, 19)] := by decide +kernel
  rw [hcollect] at hspans
  obtain rfl := Option.some.inj hspans
  exact ⟨out, hmask, hredacted, hwellFormed,
    (hcovered _ .refl (by decide +kernel)).1 (by decide +kernel)⟩

example : maskSecrets Char.isAlphanum sampleText sampleDetector 21 =
    some ("é=".toList ++ (REDACTION_MARKER ++ ('\u200b' :: REDACTION_MARKER ++ (' ' ::
      REDACTION_MARKER ++ [';'])))) := by decide +kernel

end SecretGate

end Khive
