import Khive.Foundation.Returns
import Khive.Foundation.Runs
import Khive.Request.Scan

/-!
# Identifiers

An identifier is a word with a boundary in it: a separator, or two neighbouring characters where the
case or the class changes. One scanner looks for the first boundary and stops there. The other goes
on to the end, keeps the part under construction in a buffer and hands it over at every boundary.
Both find the same boundaries: the parts are the longest runs of characters without one between
them, and a word is an identifier exactly when it has a separator or more than one part.
-/

namespace Khive

namespace Identifier

/-! ## Detecting -/

/-- `matches!(c, '_' | '-' | '/' | '.' | ':')`. -/
def isSeparator (c : Char) : Bool := c == '_' || c == '-' || c == '/' || c == '.' || c == ':'

/-- An uppercase pair before a lowercase letter starts a word, except before a terminal plural
`s`. -/
def isAcronymBoundary (previous current : Char) (next afterNext : Option Char) : Bool :=
  previous.isUpper && current.isUpper &&
    next.any fun next ↦ next.isLower && (next != 's' || afterNext.any Char.isLower)

/-- The loop of `is_identifier` over the characters that are left. -/
def hasBoundary : Option Char → List Char → Bool
  | _, [] => false
  | previous, current :: chars =>
    let next := chars.head?
    let afterNext := chars.tail.head?
    isSeparator current ||
      previous.any (fun prev ↦
        (prev.isLower && current.isUpper) || isAcronymBoundary prev current next afterNext ||
          (prev.isAlpha && current.isDigit) || (prev.isDigit && current.isAlpha)) ||
      hasBoundary (some current) chars

def isIdentifier (text : String) : Bool :=
  if text.toList.any isWhitespace then false
  else if !text.toList.any Char.isAlpha then false
  else hasBoundary none text.toList

/-! ## Splitting -/

/-- The index, the part under construction and the parts before it. -/
structure Splitter where
  i : ℕ
  current : List Char
  parts : List (List Char)

/-- `parts.push(current.clone()); current.clear()`. -/
def Splitter.push (s : Splitter) : Splitter :=
  { s with parts := s.parts ++ [s.current], current := [] }

/-- Push the part unless it is empty. -/
def Splitter.flush (s : Splitter) : Splitter := if s.current.isEmpty then s else s.push

/-- `chars[i - 1]`: neither the subtraction nor the index may leave its range. -/
def charBefore (chars : List Char) (i : ℕ) : Option Char := do
  guard (0 < i)
  chars[i - 1]?

/-- `c == ':' && i + 1 < n && chars[i + 1] == ':'`. -/
def isColonPair (chars : List Char) (i : ℕ) (c : Char) : Option Bool :=
  if c == ':' && i + 1 < chars.length then (chars[i + 1]?).map (· == ':') else some false

/-- The boundaries before an uppercase letter. -/
def splitCase (chars : List Char) (c : Char) (s : Splitter) : Option Splitter :=
  if !s.current.isEmpty && c.isUpper then do
    let prev ← charBefore chars s.i
    pure (if prev.isLower then s.push
      else if isAcronymBoundary prev c chars[s.i + 1]? chars[s.i + 2]? then s.push
      else s)
  else some s

/-- The boundaries between digits and letters. The buffer may have been cleared just before. -/
def splitDigits (chars : List Char) (c : Char) (s : Splitter) : Option Splitter :=
  if !s.current.isEmpty then do
    let prev ← charBefore chars s.i
    pure (if (prev.isDigit && c.isAlpha) || (prev.isAlpha && c.isDigit) then s.push else s)
  else some s

/-- One pass through the loop of `split_identifier`. -/
def splitStep (chars : List Char) (s : Splitter) : Option (Pass Splitter (List (List Char))) :=
  if s.i < chars.length then do
    let c ← chars[s.i]?
    if c == '_' || c == '-' || c == '/' || c == '.' then
      pure (.again { s.flush with i := s.i + 1 })
    else do
      let colons ← isColonPair chars s.i c
      if colons then pure (.again { s.flush with i := s.i + 2 })
      else if c == ':' then pure (.again { s.flush with i := s.i + 1 })
      else do
        let s ← splitCase chars c s
        let s ← splitDigits chars c s
        pure (.again { s with current := s.current ++ [c], i := s.i + 1 })
  else some (.leave s.flush.parts)

/-- The parts before they are lowercased. -/
def splitParts (text : String) : Option (List String) :=
  (loop (splitStep text.toList) (text.toList.length + 1) ⟨0, [], []⟩).map (·.map String.ofList)

/-- `split_identifier`, where `toLowercase` stands for `str::to_lowercase`. -/
def splitIdentifier (toLowercase : String → String) (text : String) (minPartLen : ℕ) :
    Option (List String) :=
  (splitParts text).map fun parts ↦
    (parts.map toLowercase).filter fun part ↦ max minPartLen 1 ≤ part.length

/-! ## Boundaries -/

variable {chars : List Char} {i j : ℕ} {c : Char} {s : Splitter}

/-- The characters at `i` and `i + 1` form a boundary: lower to upper, an acronym's end, letter to
digit or digit to letter. -/
def isBoundary (chars : List Char) (i : ℕ) : Bool :=
  chars[i]?.any fun prev ↦ chars[i + 1]?.any fun current ↦
    (prev.isLower && current.isUpper) ||
      isAcronymBoundary prev current chars[i + 2]? chars[i + 3]? ||
      (prev.isAlpha && current.isDigit) || (prev.isDigit && current.isAlpha)

/-- The positions of the characters that are no separators. -/
def kept (chars : List Char) : List ℕ :=
  (List.range chars.length).filter fun i ↦ chars[i]?.any fun c ↦ !isSeparator c

/-- Two kept positions with nothing but separators between them. -/
structure Neighbours (chars : List Char) (i j : ℕ) : Prop where
  left : i ∈ kept chars
  right : j ∈ kept chars
  lt : i < j
  between : ∀ k, i < k → k < j → k ∉ kept chars

/-- A separator lies between the two positions. -/
def Separated (chars : List Char) (i j : ℕ) : Prop :=
  ∃ k, i < k ∧ k < j ∧ ∃ c, chars[k]? = some c ∧ isSeparator c = true

theorem mem_kept : i ∈ kept chars ↔ ∃ c, chars[i]? = some c ∧ isSeparator c = false := by
  rw [kept, List.mem_filter, List.mem_range, Option.any_eq_true]
  constructor
  · rintro ⟨-, c, hc, hsep⟩
    exact ⟨c, hc, by simpa using hsep⟩
  · rintro ⟨c, hc, hsep⟩
    exact ⟨(List.getElem?_eq_some_iff.mp hc).1, c, hc, by simpa using hsep⟩

/-- What a boundary between the character at `i` and an uppercase or other one comes to. -/
theorem isBoundary_eq {prev : Char} (hprev : chars[i]? = some prev) (hc : chars[i + 1]? = some c) :
    isBoundary chars i =
      ((prev.isLower && c.isUpper) || isAcronymBoundary prev c chars[i + 2]? chars[i + 3]? ||
        (prev.isAlpha && c.isDigit) || (prev.isDigit && c.isAlpha)) := by
  rw [isBoundary, hprev, hc]
  rfl

theorem exists_isBoundary_cons (prev : Char) (chars : List Char) :
    (∃ i, isBoundary (prev :: chars) i = true) ↔
      isBoundary (prev :: chars) 0 = true ∨ ∃ i, isBoundary chars i = true := by
  constructor
  · rintro ⟨i, hi⟩
    rcases i with - | i
    · exact Or.inl hi
    · exact Or.inr ⟨i, hi⟩
  · rintro (h | ⟨i, hi⟩)
    · exact ⟨0, h⟩
    · exact ⟨i + 1, hi⟩

/-- The detecting scanner stops at a separator or at the first boundary. -/
theorem hasBoundary_some {prev : Char} :
    hasBoundary (some prev) chars = true ↔
      (∃ c ∈ chars, isSeparator c = true) ∨ ∃ i, isBoundary (prev :: chars) i = true := by
  induction chars generalizing prev with
  | nil => simp [hasBoundary, isBoundary]
  | cons current chars ih =>
    have hjoint : isBoundary (prev :: current :: chars) 0 =
        ((prev.isLower && current.isUpper) ||
          isAcronymBoundary prev current chars.head? chars.tail.head? ||
          (prev.isAlpha && current.isDigit) || (prev.isDigit && current.isAlpha)) := by
      rw [isBoundary_eq rfl rfl, List.head?_eq_getElem?, List.head?_eq_getElem?,
        List.getElem?_tail]
      rfl
    rw [hasBoundary, Bool.or_eq_true, Bool.or_eq_true, ih, List.exists_mem_cons_iff,
      Option.any_some, ← hjoint, exists_isBoundary_cons prev (current :: chars), or_or_or_comm]

theorem hasBoundary_none :
    hasBoundary none chars = true ↔
      (∃ c ∈ chars, isSeparator c = true) ∨ ∃ i, isBoundary chars i = true := by
  rcases chars with - | ⟨current, chars⟩
  · simp [hasBoundary, isBoundary]
  · rw [hasBoundary, Option.any_none, Bool.or_false, Bool.or_eq_true, hasBoundary_some,
      List.exists_mem_cons_iff, or_assoc]

/-! ## The loop -/

/-- The kept position `j` goes on with the part of `i`. -/
def joined (chars : List Char) (i j : ℕ) : Bool := i + 1 == j && !isBoundary chars i

/-- The kept positions before `i`. -/
def keptBefore (chars : List Char) (i : ℕ) : List ℕ :=
  (List.range i).filter fun i ↦ chars[i]?.any fun c ↦ !isSeparator c

/-- The characters at the positions. -/
def read (chars : List Char) (positions : List ℕ) : List Char :=
  positions.filterMap fun i ↦ chars[i]?

/-- The state of the loop: the parts before and the part under construction are the runs of the
positions that have been passed, and the buffer is empty exactly behind a separator. -/
structure Placed (chars : List Char) (s : Splitter) (runs : List (List ℕ)) (run : List ℕ) :
    Prop where
  parts : s.parts = runs.map (read chars)
  current : s.current = read chars run
  bound : s.i ≤ chars.length
  split : (keptBefore chars s.i).splitBy (joined chars) = runs ++ if run = [] then [] else [run]
  last : run ≠ [] → ∃ i, s.i = i + 1 ∧ run.getLast? = some i ∧ i ∈ kept chars
  first : run = [] → ∀ i, s.i = i + 1 → i ∉ kept chars

theorem keptBefore_succ_of_not_mem (h : i ∉ kept chars) :
    keptBefore chars (i + 1) = keptBefore chars i := by
  have hfalse : (chars[i]?.any fun c ↦ !isSeparator c) = false := by
    rw [Bool.eq_false_iff, Ne, Option.any_eq_true]
    rintro ⟨c, hc, hsep⟩
    exact h (mem_kept.mpr ⟨c, hc, by simpa using hsep⟩)
  rw [keptBefore, List.range_succ, List.filter_append, List.filter_singleton, hfalse, keptBefore]
  simp

theorem keptBefore_succ_of_mem (h : i ∈ kept chars) :
    keptBefore chars (i + 1) = keptBefore chars i ++ [i] := by
  obtain ⟨c, hc, hsep⟩ := mem_kept.mp h
  have htrue : (chars[i]?.any fun c ↦ !isSeparator c) = true := by rw [hc]; simpa using hsep
  rw [keptBefore, List.range_succ, List.filter_append, List.filter_singleton, htrue, keptBefore]
  simp

theorem lt_of_mem_keptBefore {k : ℕ} (h : k ∈ keptBefore chars i) : k < i ∧ k ∈ kept chars := by
  rw [keptBefore, List.mem_filter, List.mem_range, Option.any_eq_true] at h
  obtain ⟨hlt, c, hc, hsep⟩ := h
  exact ⟨hlt, mem_kept.mpr ⟨c, hc, by simpa using hsep⟩⟩

theorem Splitter.flush_current : s.flush.current = [] := by
  rw [Splitter.flush]
  split_ifs with hempty
  · exact List.isEmpty_iff.mp hempty
  · rfl

namespace Placed

variable {runs : List (List ℕ)} {run : List ℕ}

theorem current_isEmpty (h : Placed chars s runs run) : s.current.isEmpty = true ↔ run = [] := by
  rw [List.isEmpty_iff, h.current]
  constructor
  · intro hread
    by_contra hne
    obtain ⟨i, -, hlast, hkept⟩ := h.last hne
    obtain ⟨c, hc, -⟩ := mem_kept.mp hkept
    have hmem : c ∈ read chars run :=
      List.mem_filterMap.mpr ⟨i, List.mem_of_getLast? hlast, hc⟩
    rw [hread] at hmem
    exact List.not_mem_nil hmem
  · rintro rfl
    rfl

/-- What is handed over when the part is closed. -/
theorem flush_parts (h : Placed chars s runs run) :
    s.flush.parts = ((keptBefore chars s.i).splitBy (joined chars)).map (read chars) := by
  rw [h.split, Splitter.flush]
  by_cases hrun : run = []
  · rw [if_pos (h.current_isEmpty.mpr hrun), if_pos hrun, List.append_nil, h.parts]
  · rw [if_neg (mt h.current_isEmpty.mp hrun), if_neg hrun, List.map_append, Splitter.push,
      h.parts, h.current]
    rfl

/-- A separator closes the part. -/
theorem skip (h : Placed chars s runs run) (hi : s.i < chars.length) (hsep : s.i ∉ kept chars) :
    ∃ runs run, Placed chars { s.flush with i := s.i + 1 } runs run := by
  refine ⟨(keptBefore chars s.i).splitBy (joined chars), [], h.flush_parts, s.flush_current, hi, ?_,
    fun hne ↦ (hne rfl).elim, ?_⟩
  · rw [keptBefore_succ_of_not_mem hsep, if_pos rfl, List.append_nil]
  · rintro - i hi
    exact Nat.succ.inj hi ▸ hsep

/-- A kept character opens a part behind a separator. -/
theorem opens (h : Placed chars s runs []) (hc : chars[s.i]? = some c)
    (hkept : s.i ∈ kept chars) :
    Placed chars { s with current := s.current ++ [c], i := s.i + 1 } runs [s.i] := by
  have hread : read chars [s.i] = [c] := by rw [read, List.filterMap_cons_some hc]; rfl
  refine ⟨h.parts, ?_, (List.getElem?_eq_some_iff.mp hc).1, ?_, fun _ ↦ ⟨s.i, rfl, rfl, hkept⟩,
    fun hnil ↦ absurd hnil (List.cons_ne_nil _ _)⟩
  · rw [hread, h.current]
    rfl
  · rw [keptBefore_succ_of_mem hkept, splitBy_concat_of_false, h.split, if_pos rfl,
      List.append_nil, if_neg (List.cons_ne_nil _ _)]
    -- the kept position before is not the next one
    intro k hk
    obtain ⟨hlt, hmem⟩ := lt_of_mem_keptBefore (List.mem_of_getLast? hk)
    have hne : k + 1 ≠ s.i := fun heq ↦ h.first rfl k heq.symm hmem
    rw [joined, beq_false_of_ne hne, Bool.false_and]

/-- A kept character goes on with the part, or opens one at a boundary. -/
theorem continues (h : Placed chars s runs run) (hrun : run ≠ []) (hc : chars[s.i]? = some c)
    (hkept : s.i ∈ kept chars) {s' : Splitter}
    (hs' : s' = if isBoundary chars (s.i - 1) then s.push else s) :
    ∃ runs' run', Placed chars { s' with current := s'.current ++ [c], i := s'.i + 1 }
      runs' run' := by
  have hread : read chars [s.i] = [c] := by rw [read, List.filterMap_cons_some hc]; rfl
  have hlt : s.i < chars.length := (List.getElem?_eq_some_iff.mp hc).1
  obtain ⟨i, hi, hlast, -⟩ := h.last hrun
  have hsplit := h.split
  rw [if_neg hrun] at hsplit
  have hlast' : (keptBefore chars s.i).getLast? = some i := by
    rw [← List.flatten_splitBy (joined chars) (keptBefore chars s.i), hsplit, List.flatten_append,
      List.flatten_singleton, List.getLast?_append, hlast, Option.some_or]
  rw [hi, Nat.add_sub_cancel] at hs'
  by_cases hboundary : isBoundary chars i = true
  · rw [if_pos hboundary] at hs'
    subst hs'
    refine ⟨runs ++ [run], [s.i], ?_, hread.symm, hlt, ?_, fun _ ↦ ⟨s.i, rfl, rfl, hkept⟩,
      fun hnil ↦ absurd hnil (List.cons_ne_nil _ _)⟩
    · rw [List.map_append, Splitter.push, h.parts, h.current]
      rfl
    · change (keptBefore chars (s.i + 1)).splitBy (joined chars) = _
      rw [keptBefore_succ_of_mem hkept, splitBy_concat_of_false, hsplit,
        if_neg (List.cons_ne_nil _ _)]
      intro k hk
      rw [hlast', Option.mem_some_iff] at hk
      rw [← hk, joined, hboundary, Bool.not_true, Bool.and_false]
  · rw [if_neg hboundary] at hs'
    rw [hs']
    refine ⟨runs, run ++ [s.i], h.parts, ?_, hlt, ?_,
      fun _ ↦ ⟨s.i, rfl, List.getLast?_concat, hkept⟩, fun hnil ↦ absurd hnil (by simp)⟩
    · rw [read, List.filterMap_append, ← read, ← read, hread, h.current]
    · rw [keptBefore_succ_of_mem hkept, splitBy_concat_of_true hsplit, if_neg (by simp)]
      intro k hk
      rw [hlast, Option.mem_some_iff] at hk
      rw [← hk, joined, hi, beq_self_eq_true, Bool.true_and, (Bool.not_eq_true _).mp hboundary,
        Bool.not_false]

end Placed

/-! ## The two scanners -/

section Step

variable {runs : List (List ℕ)} {run : List ℕ} {prev : Char}

/-- The character before a part under construction is there. -/
theorem Placed.charBefore_eq (h : Placed chars s runs run) (hrun : run ≠ []) :
    ∃ prev, charBefore chars s.i = some prev ∧ chars[s.i - 1]? = some prev := by
  obtain ⟨i, hi, -, hkept⟩ := h.last hrun
  obtain ⟨prev, hprev, -⟩ := mem_kept.mp hkept
  have hprev' : chars[s.i - 1]? = some prev := by rwa [hi, Nat.add_sub_cancel]
  refine ⟨prev, ?_, hprev'⟩
  rw [charBefore, guard, if_pos (hi ▸ Nat.succ_pos i)]
  exact hprev'

theorem isAcronymBoundary_of_not_upper (hc : c.isUpper = false) (next afterNext : Option Char) :
    isAcronymBoundary prev c next afterNext = false := by
  rw [isAcronymBoundary, hc, Bool.and_false, Bool.false_and]

theorem splitCase_eq (hcurrent : s.current.isEmpty = false)
    (hprev : charBefore chars s.i = some prev) :
    splitCase chars c s = some (if (prev.isLower && c.isUpper) ||
      isAcronymBoundary prev c chars[s.i + 1]? chars[s.i + 2]? then s.push else s) := by
  rw [splitCase, hcurrent, hprev]
  by_cases hc : c.isUpper = true
  · rw [hc]
    by_cases hlower : prev.isLower = true
    · simp [hlower]
    · simp [hlower]
  · rw [Bool.not_eq_true] at hc
    rw [hc, isAcronymBoundary_of_not_upper hc]
    simp

theorem splitDigits_eq (hcurrent : s.current.isEmpty = false)
    (hprev : charBefore chars s.i = some prev) :
    splitDigits chars c s = some (if (prev.isDigit && c.isAlpha) || (prev.isAlpha && c.isDigit)
      then s.push else s) := by
  rw [splitDigits, hcurrent, hprev]
  rfl

/-- The two tests together push the part exactly at a boundary. -/
theorem Placed.cut (h : Placed chars s runs run) (hrun : run ≠ []) (hc : chars[s.i]? = some c) :
    ((splitCase chars c s).bind fun s ↦ splitDigits chars c s) =
      some (if isBoundary chars (s.i - 1) then s.push else s) := by
  obtain ⟨prev, hbefore, hprev⟩ := h.charBefore_eq hrun
  obtain ⟨i, hi, -, -⟩ := h.last hrun
  have hcurrent : s.current.isEmpty = false := by
    rw [Bool.eq_false_iff, Ne, h.current_isEmpty]
    exact hrun
  rw [splitCase_eq hcurrent hbefore, Option.bind_some]
  rw [hi, Nat.add_sub_cancel] at hprev ⊢
  rw [hi] at hc
  rw [isBoundary_eq hprev hc]
  by_cases hcase : ((prev.isLower && c.isUpper) ||
      isAcronymBoundary prev c chars[i + 1 + 1]? chars[i + 1 + 2]?) = true
  · -- the buffer is empty now, and the second test is not made
    rw [if_pos hcase, hcase, Bool.true_or, Bool.true_or]
    rfl
  · rw [if_neg hcase, splitDigits_eq hcurrent hbefore, (Bool.not_eq_true _).mp hcase, Bool.false_or,
      Bool.or_comm]

theorem isSeparator_eq :
    isSeparator c = ((c == '_' || c == '-' || c == '/' || c == '.') || c == ':') := rfl

/-- Where the pair is found, both characters are colons. -/
theorem returns_isColonPair (chars : List Char) (i : ℕ) (c : Char) :
    Returns (isColonPair chars i c) fun pair ↦
      pair = true → c = ':' ∧ chars[i + 1]? = some ':' := by
  rw [isColonPair]
  split_ifs with h
  · rw [Bool.and_eq_true, decide_eq_true_iff] at h
    refine returns_map.mpr ((Returns.getElem? h.2).mono fun next hnext hpair ↦ ?_)
    exact ⟨eq_of_beq h.1, hnext.trans (congrArg some (eq_of_beq hpair))⟩
  · exact returns_some.mpr fun hpair ↦ absurd hpair Bool.false_ne_true

theorem not_mem_kept (hc : chars[i]? = some c) (hsep : isSeparator c = true) : i ∉ kept chars := by
  intro hkept
  obtain ⟨d, hd, hfalse⟩ := mem_kept.mp hkept
  rw [Option.some.inj (hc.symm.trans hd), hfalse] at hsep
  exact Bool.false_ne_true hsep

/-- A pair of colons is passed at once. -/
theorem Placed.skip_two (h : Placed chars s runs run) (hc : chars[s.i]? = some ':')
    (hnext : chars[s.i + 1]? = some ':') :
    ∃ runs run, Placed chars { s.flush with i := s.i + 2 } runs run := by
  obtain ⟨runs', run', h'⟩ := h.skip (List.getElem?_eq_some_iff.mp hc).1 (not_mem_kept hc rfl)
  have hskip := h'.skip (List.getElem?_eq_some_iff.mp hnext).1 (not_mem_kept hnext rfl)
  have hflush : Splitter.flush { s.flush with i := s.i + 1 } = { s.flush with i := s.i + 1 } := by
    rw [Splitter.flush, if_pos (List.isEmpty_iff.mpr s.flush_current)]
  rwa [hflush] at hskip

/-- Any other character goes into the buffer, which has been pushed before if there is a
boundary. -/
theorem Placed.take (h : Placed chars s runs run) (hc : chars[s.i]? = some c)
    (hkept : s.i ∈ kept chars) :
    ∃ s₁ s₂, splitCase chars c s = some s₁ ∧ splitDigits chars c s₁ = some s₂ ∧ s₂.i = s.i ∧
      ∃ runs run, Placed chars { s₂ with current := s₂.current ++ [c], i := s₂.i + 1 }
        runs run := by
  by_cases hrun : run = []
  · subst hrun
    have hempty : s.current.isEmpty = true := h.current_isEmpty.mpr rfl
    exact ⟨s, s, by rw [splitCase, hempty]; rfl, by rw [splitDigits, hempty]; rfl, rfl, runs, _,
      h.opens hc hkept⟩
  · obtain ⟨s₁, hs₁, hs₂⟩ := Option.bind_eq_some_iff.mp (h.cut hrun hc)
    refine ⟨s₁, _, hs₁, hs₂, ?_, h.continues hrun hc hkept rfl⟩
    split_ifs
    · rfl
    · rfl

/-- **A pass** through the loop reads within the text and leaves every passed character in its
run. -/
theorem Placed.step (h : Placed chars s runs run) :
    Returns (splitStep chars s) (Pass.Satisfies (fun s ↦ ∃ runs run, Placed chars s runs run)
      (fun s ↦ chars.length - s.i)
      (fun parts ↦ parts = ((kept chars).splitBy (joined chars)).map (read chars))
      (chars.length - s.i)) := by
  by_cases hi : s.i < chars.length
  · rw [splitStep, if_pos hi]
    refine (Returns.getElem? hi).bind fun c hc ↦ ?_
    by_cases hplain : (c == '_' || c == '-' || c == '/' || c == '.') = true
    · rw [if_pos hplain]
      have hsep : isSeparator c = true := by rw [isSeparator_eq, hplain, Bool.true_or]
      exact returns_pure.mpr ⟨h.skip hi (not_mem_kept hc hsep), by dsimp only; omega⟩
    · rw [if_neg hplain]
      refine (returns_isColonPair chars s.i c).bind fun pair hcolons ↦ ?_
      by_cases htrue : pair = true
      · obtain ⟨rfl, hnext⟩ := hcolons htrue
        rw [if_pos htrue]
        exact returns_pure.mpr ⟨h.skip_two hc hnext, by dsimp only; omega⟩
      · rw [if_neg htrue]
        by_cases hcolon : (c == ':') = true
        · rw [if_pos hcolon]
          have hsep : isSeparator c = true := by rw [isSeparator_eq, hcolon, Bool.or_true]
          exact returns_pure.mpr ⟨h.skip hi (not_mem_kept hc hsep), by dsimp only; omega⟩
        · rw [if_neg hcolon]
          have hkept : s.i ∈ kept chars := by
            refine mem_kept.mpr ⟨c, hc, ?_⟩
            rw [isSeparator_eq, (Bool.not_eq_true _).mp hplain, (Bool.not_eq_true _).mp hcolon,
              Bool.false_or]
          obtain ⟨s₁, s₂, hs₁, hs₂, hi', h'⟩ := h.take hc hkept
          refine returns_bind.mpr ⟨s₁, hs₁, returns_bind.mpr ⟨s₂, hs₂, returns_pure.mpr ⟨h', ?_⟩⟩⟩
          dsimp only
          omega
  · -- the whole text has been passed
    rw [splitStep, if_neg hi, returns_some, Pass.Satisfies, h.flush_parts,
      le_antisymm h.bound (not_lt.mp hi)]
    rfl

end Step

theorem placed_start : Placed chars ⟨0, [], []⟩ [] [] :=
  ⟨rfl, rfl, Nat.zero_le _, rfl, fun h ↦ (h rfl).elim,
    fun _ _ h ↦ absurd h.symm (Nat.succ_ne_zero _)⟩

theorem returns_split (chars : List Char) :
    Returns (loop (splitStep chars) (chars.length + 1) ⟨0, [], []⟩)
      fun parts ↦ parts = ((kept chars).splitBy (joined chars)).map (read chars) := by
  have hstep : ∀ s : Splitter, (∃ runs run, Placed chars s runs run) →
      Returns (splitStep chars s) (Pass.Satisfies (fun s ↦ ∃ runs run, Placed chars s runs run)
        (fun s ↦ chars.length - s.i)
        (fun parts ↦ parts = ((kept chars).splitBy (joined chars)).map (read chars))
        (chars.length - s.i)) := by
    rintro s ⟨runs, run, h⟩
    exact h.step
  exact returns_loop hstep ⟨[], [], placed_start⟩ (Nat.lt_succ_self _)

/-- The parts are the runs of kept positions without a boundary. -/
theorem splitParts_eq (text : String) :
    splitParts text = some (((kept text.toList).splitBy (joined text.toList)).map fun run ↦
      String.ofList (read text.toList run)) := by
  obtain ⟨parts, hparts, rfl⟩ := returns_split text.toList
  rw [splitParts, hparts, Option.map_some, List.map_map]
  rfl

/-- What `splitIdentifier` makes of the parts when it drops none. -/
theorem splitIdentifier_of_le_one {toLowercase : String → String}
    (hlower : ∀ part, part ≠ "" → toLowercase part ≠ "") {text : String} {minPartLen : ℕ}
    (hmin : minPartLen ≤ 1) {parts : List String} (hparts : splitParts text = some parts)
    (hne : ∀ part ∈ parts, part ≠ "") :
    splitIdentifier toLowercase text minPartLen = some (parts.map toLowercase) := by
  rw [splitIdentifier, hparts, Option.map_some, max_eq_right hmin]
  refine congrArg some (List.filter_eq_self.mpr ?_)
  intro part hpart
  obtain ⟨part, hmem, rfl⟩ := List.mem_map.mp hpart
  rw [decide_eq_true_iff, Nat.one_le_iff_ne_zero, Ne, String.length_eq_zero_iff]
  exact hlower part (hne part hmem)

theorem kept_sorted (chars : List Char) : (kept chars).Pairwise (· < ·) := List.pairwise_lt_range.filter _

theorem read_keptBefore (chars : List Char) (hi : i ≤ chars.length) :
    read chars (keptBefore chars i) = (chars.take i).filter fun c ↦ !isSeparator c := by
  induction i with
  | zero => rfl
  | succ i ih =>
    obtain ⟨c, hc⟩ : ∃ c, chars[i]? = some c := ⟨_, List.getElem?_eq_getElem hi⟩
    rw [List.take_add_one, hc, List.filter_append, ← ih (Nat.le_of_succ_le hi)]
    by_cases hsep : isSeparator c = true
    · rw [keptBefore_succ_of_not_mem (not_mem_kept hc hsep)]
      simp [hsep]
    · have hkept : i ∈ kept chars := mem_kept.mpr ⟨c, hc, (Bool.not_eq_true _).mp hsep⟩
      rw [keptBefore_succ_of_mem hkept, read, List.filterMap_append, ← read]
      simp [hsep, hc]

theorem read_kept : read chars (kept chars) = chars.filter fun c ↦ !isSeparator c := by
  have hread := read_keptBefore chars le_rfl
  rwa [List.take_length] at hread

theorem Neighbours.exists_eq (h : Neighbours chars i j) :
    ∃ before after, kept chars = before ++ i :: j :: after := by
  obtain ⟨before, rest, hrest⟩ := List.append_of_mem h.left
  have hsorted := kept_sorted chars
  have hj := h.right
  have hbetween := h.between
  rw [hrest] at hsorted hj hbetween
  obtain ⟨-, hrestSorted, hbefore⟩ := List.pairwise_append.mp hsorted
  rw [List.pairwise_cons] at hrestSorted
  have hmem : j ∈ rest := by
    rcases List.mem_append.mp hj with hj | hj
    · exact absurd (hbefore j hj i List.mem_cons_self) h.lt.not_gt
    · rcases List.mem_cons.mp hj with hj | hj
      · exact absurd hj h.lt.ne'
      · exact hj
  rcases rest with - | ⟨k, rest⟩
  · exact absurd hmem List.not_mem_nil
  · rcases List.mem_cons.mp hmem with rfl | hmem
    · exact ⟨before, rest, hrest⟩
    · -- the position behind `i` would lie between the two
      have hik := hrestSorted.1 k List.mem_cons_self
      have hkj := (List.pairwise_cons.mp hrestSorted.2).1 j hmem
      exact absurd (by simp) (hbetween k hik hkj)

theorem Neighbours.joined_iff (h : Neighbours chars i j) :
    joined chars i j = true ↔ ¬(Separated chars i j ∨ isBoundary chars i = true) := by
  rw [joined, Bool.and_eq_true, beq_iff_eq, Bool.not_eq_true', not_or, Bool.not_eq_true]
  refine and_congr_left fun _ ↦ ⟨?_, fun hseparated ↦ ?_⟩
  · rintro rfl ⟨k, hik, hkj, -⟩
    omega
  · by_contra hne
    have hlt : i + 1 < j := lt_of_le_of_ne h.lt hne
    obtain ⟨d, hd, -⟩ := mem_kept.mp h.right
    obtain ⟨c, hc⟩ : ∃ c, chars[i + 1]? = some c :=
      ⟨_, List.getElem?_eq_getElem (hlt.trans (List.getElem?_eq_some_iff.mp hd).1)⟩
    refine hseparated ⟨i + 1, Nat.lt_succ_self i, hlt, c, hc, ?_⟩
    by_contra hsep
    exact h.between (i + 1) (Nat.lt_succ_self i) hlt
      (mem_kept.mpr ⟨c, hc, (Bool.not_eq_true _).mp hsep⟩)

/-! ## One boundary for both -/

theorem isIdentifier_iff {text : String} (hblank : text.toList.any isWhitespace = false)
    (hletter : text.toList.any Char.isAlpha = true) :
    isIdentifier text = true ↔ (∃ c ∈ text.toList, isSeparator c = true) ∨
      ∃ i, isBoundary text.toList i = true := by
  rw [isIdentifier, hblank, hletter, ← hasBoundary_none]
  rfl

theorem kept_of_no_separator (h : ∀ c ∈ chars, isSeparator c = false) :
    kept chars = List.range chars.length := by
  refine List.filter_eq_self.mpr fun i hi ↦ ?_
  have hi := List.getElem?_eq_getElem (List.mem_range.mp hi)
  rw [hi, Option.any_some, h _ (List.mem_of_getElem? hi), Bool.not_false]

theorem Neighbours.exists_run_iff (h : Neighbours chars i j) :
    (∃ run ∈ (kept chars).splitBy (joined chars), i ∈ run ∧ j ∈ run) ↔
      ¬(Separated chars i j ∨ isBoundary chars i = true) := by
  obtain ⟨before, after, hkept⟩ := h.exists_eq
  have hnodup : (kept chars).Nodup := (kept_sorted chars).imp fun h ↦ h.ne
  rw [Khive.exists_run_iff hnodup hkept, h.joined_iff]

/-- Without separators, there is more than one part exactly when there is a boundary. -/
theorem two_le_length_iff (h : ∀ c ∈ chars, isSeparator c = false) (hne : chars ≠ []) :
    2 ≤ ((kept chars).splitBy (joined chars)).length ↔ ∃ i, isBoundary chars i = true := by
  have hrange := kept_of_no_separator h
  have hkept : kept chars ≠ [] := by
    rw [hrange, Ne, List.range_eq_nil, List.length_eq_zero_iff]
    exact hne
  constructor
  · intro hlength
    by_contra hnone
    rw [not_exists] at hnone
    have hchain : (kept chars).IsChain fun i j ↦ joined chars i j = true := by
      rw [hrange, List.isChain_range]
      intro i _
      rw [joined, beq_self_eq_true, Bool.true_and, (Bool.not_eq_true _).mp (hnone i),
        Bool.not_false]
    rw [List.splitBy_of_isChain hkept hchain] at hlength
    exact absurd hlength (by simp)
  · rintro ⟨i, hi⟩
    by_contra hlength
    -- a single part holds the two characters of the boundary
    obtain ⟨run, hrun⟩ : ∃ run, (kept chars).splitBy (joined chars) = [run] := by
      rw [← List.length_eq_one_iff]
      have hpos : 0 < ((kept chars).splitBy (joined chars)).length :=
        List.length_pos_iff.mpr (List.splitBy_ne_nil.mpr hkept)
      omega
    have hall : run = kept chars := by
      rw [← List.flatten_splitBy (joined chars) (kept chars), hrun, List.flatten_singleton]
    have hi' : i + 1 < chars.length := by
      rw [isBoundary, Option.any_eq_true] at hi
      obtain ⟨_, -, hi⟩ := hi
      obtain ⟨_, hc, -⟩ := (Option.any_eq_true _ _).mp hi
      exact (List.getElem?_eq_some_iff.mp hc).1
    have hneighbours : Neighbours chars i (i + 1) := by
      refine ⟨?_, ?_, Nat.lt_succ_self i, fun k hik hki ↦ by omega⟩
      · rw [hrange, List.mem_range]
        omega
      · rw [hrange, List.mem_range]
        exact hi'
    refine hneighbours.exists_run_iff.mp ⟨run, hrun ▸ List.mem_singleton_self run, ?_, ?_⟩
      (Or.inr hi)
    · exact hall ▸ hneighbours.left
    · exact hall ▸ hneighbours.right

/-- The part of the text at these positions. -/
def partAt (text : String) (run : List ℕ) : String := String.ofList (read text.toList run)

theorem partAt_ne_empty {text : String} {run : List ℕ}
    (hrun : run ∈ (kept text.toList).splitBy (joined text.toList)) : partAt text run ≠ "" := by
  intro hempty
  have hread : read text.toList run = [] := String.ofList_eq_empty_iff.mp hempty
  have hne := List.ne_nil_of_mem_splitBy hrun
  have hkept : run.head hne ∈ kept text.toList := by
    rw [← List.flatten_splitBy (joined text.toList) (kept text.toList)]
    exact List.mem_flatten_of_mem hrun (List.head_mem hne)
  obtain ⟨c, hc, -⟩ := mem_kept.mp hkept
  have hmem : c ∈ read text.toList run := List.mem_filterMap.mpr ⟨_, List.head_mem hne, hc⟩
  rw [hread] at hmem
  exact List.not_mem_nil hmem

theorem join_partAt (text : String) (runs : List (List ℕ)) :
    String.join (runs.map (partAt text)) = partAt text runs.flatten := by
  induction runs with
  | nil => rfl
  | cons run runs ih =>
    rw [List.map_cons, String.join_cons, ih, List.flatten_cons, partAt, partAt, partAt, read, read,
      read, List.filterMap_append, String.ofList_append]

theorem partAt_kept (text : String) :
    partAt text (kept text.toList) = String.ofList (text.toList.filter fun c ↦ !isSeparator c) := by
  rw [partAt, read_kept]

/-- **Identifiers**: the splitting scanner never leaves the text. Its parts are not empty, they are
the text without the separators, and two neighbouring characters are parted exactly by a separator
or at a boundary. The detecting scanner finds a word to be an identifier exactly when it has a
separator or more than one part. -/
theorem splitIdentifier_spec (toLowercase : String → String)
    (hlower : ∀ part, part ≠ "" → toLowercase part ≠ "") (text : String) :
    (∀ minPartLen, (splitIdentifier toLowercase text minPartLen).isSome = true) ∧
      (∃ runs : List (List ℕ),
        splitParts text = some (runs.map (partAt text)) ∧
        (∀ minPartLen ≤ 1, splitIdentifier toLowercase text minPartLen =
          some ((runs.map (partAt text)).map toLowercase)) ∧
        (∀ run ∈ runs, partAt text run ≠ "") ∧
        String.join (runs.map (partAt text)) =
          String.ofList (text.toList.filter fun c ↦ !isSeparator c) ∧
        runs.flatten = kept text.toList ∧
        ∀ i j, Neighbours text.toList i j → ((∃ run ∈ runs, i ∈ run ∧ j ∈ run) ↔
          ¬(Separated text.toList i j ∨ isBoundary text.toList i = true))) ∧
      (text.toList.any isWhitespace = false → text.toList.any Char.isAlpha = true →
        (isIdentifier text = true ↔ (∃ c ∈ text.toList, isSeparator c = true) ∨
          ∃ parts, splitIdentifier toLowercase text 1 = some parts ∧ 2 ≤ parts.length)) := by
  have hne : ∀ part ∈ ((kept text.toList).splitBy (joined text.toList)).map (partAt text),
      part ≠ "" := by
    intro part hpart
    obtain ⟨run, hrun, rfl⟩ := List.mem_map.mp hpart
    exact partAt_ne_empty hrun
  have hsplit : ∀ minPartLen ≤ 1, splitIdentifier toLowercase text minPartLen =
      some ((((kept text.toList).splitBy (joined text.toList)).map (partAt text)).map
        toLowercase) :=
    fun minPartLen hmin ↦ splitIdentifier_of_le_one hlower hmin (splitParts_eq text) hne
  refine ⟨fun minPartLen ↦ ?_, ⟨_, splitParts_eq text, hsplit, fun run hrun ↦ partAt_ne_empty hrun,
    by rw [join_partAt, List.flatten_splitBy, partAt_kept], List.flatten_splitBy _ _,
    fun i j h ↦ h.exists_run_iff⟩,
    fun hblank hletter ↦ ?_⟩
  · rw [splitIdentifier, splitParts_eq]
    rfl
  · rw [isIdentifier_iff hblank hletter]
    by_cases hsep : ∃ c ∈ text.toList, isSeparator c = true
    · exact iff_of_true (Or.inl hsep) (Or.inl hsep)
    · rw [or_iff_right hsep, or_iff_right hsep, hsplit 1 le_rfl]
      have hplain : ∀ c ∈ text.toList, isSeparator c = false := fun c hc ↦
        (Bool.not_eq_true _).mp fun htrue ↦ hsep ⟨c, hc, htrue⟩
      -- a word with a letter is not empty
      have htext : text.toList ≠ [] := by
        intro hnil
        rw [hnil] at hletter
        exact Bool.false_ne_true hletter
      rw [← two_le_length_iff hplain htext]
      simp

/-- `str::to_lowercase` on ASCII text. -/
def asciiLowercase (part : String) : String := String.ofList (part.toList.map Char.toLower)

theorem splitIdentifier_spec_sample :
    (∃ runs : List (List ℕ), splitIdentifier asciiLowercase "APIsFoo_v2" 1 =
        some ((runs.map (partAt "APIsFoo_v2")).map asciiLowercase) ∧
      runs.flatten = kept "APIsFoo_v2".toList) ∧
    (isIdentifier "APIsFoo_v2" = true ↔ (∃ c ∈ "APIsFoo_v2".toList, isSeparator c = true) ∨
      ∃ parts, splitIdentifier asciiLowercase "APIsFoo_v2" 1 = some parts ∧ 2 ≤ parts.length) := by
  have hlower : ∀ part, part ≠ "" → asciiLowercase part ≠ "" := by
    intro part hne hempty
    have hchars : part.toList.map Char.toLower = [] := String.ofList_eq_empty_iff.mp hempty
    exact hne (String.toList_eq_nil_iff.mp (List.map_eq_nil_iff.mp hchars))
  obtain ⟨-, ⟨runs, -, hsplit, -, -, hflatten, -⟩, hdetect⟩ :=
    splitIdentifier_spec asciiLowercase hlower "APIsFoo_v2"
  exact ⟨⟨runs, hsplit 1 le_rfl, hflatten⟩, hdetect (by decide +kernel) (by decide +kernel)⟩

/-- A plural stays with its acronym. -/
example : splitIdentifier asciiLowercase "APIsFoo_v2" 1 = some ["apis", "foo", "v", "2"] := by
  decide +kernel

end Identifier

end Khive
