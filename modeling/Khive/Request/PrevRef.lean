import Khive.Request.Path

/-!
# Two spellings of a reference

A reference may be written bare, `$prev.items[0].id`, or as a string literal with the same text. The
bare form is parsed segment by segment and stored with a dot between any two, a bracket included.
The string is stored as it stands once its brackets have been checked. So the stored paths differ,
`items.[0].id` and `items[0].id`, but splitting drops a dot wherever one is left, and both paths
lead to the place that `Step`s name: fields of objects, and positions of arrays as far as they fit
into a machine word.
-/

namespace Khive

/-! ## Paths as written -/

/-- A field by an identifier, or an index by its digits. -/
inductive Step where
  | field (name : List Char)
  | index (digits : List Char)

namespace Step

/-- The name is an identifier, the index has a digit. -/
def WellFormed : Step → Prop
  | .field name => name.head?.any startsIdentifier = true ∧ ∀ c ∈ name, continuesIdentifier c = true
  | .index digits => digits ≠ [] ∧ ∀ c ∈ digits, isAsciiDigit c = true

/-- How the step is written behind a path. -/
def text : Step → List Char
  | .field name => '.' :: name
  | .index digits => '[' :: (digits ++ [']'])

/-- The segment that the step is stored as. -/
def segment : Step → List Char
  | .field name => name
  | .index digits => '[' :: (digits ++ [']'])

/-- Where the step leads. -/
def apply (cur : JsonValue) : Step → Option JsonValue
  | .field name => applyPathSegment cur (.field (String.ofList name))
  | .index digits => (parseUsize digits).bind fun idx ↦ applyPathSegment cur (.index idx)

end Step

/-- The text of a path. -/
def pathText (steps : List Step) : List Char := steps.flatMap Step.text

/-- `$prev` and a path. -/
def prevText (steps : List Step) : List Char := "$prev".toList ++ pathText steps

/-- The path that the bare form stores. -/
def barePath (steps : List Step) : String :=
  steps.foldl (fun path step ↦ Parser.pushSegment path (String.ofList step.segment)) ""

/-- The path that the string literal stores. -/
def quotedPath (steps : List Step) : String := String.ofList (stripDot (pathText steps))

/-- Where the path leads. -/
def walkSteps (cur : JsonValue) (steps : List Step) : Option JsonValue :=
  steps.foldlM Step.apply cur

/-! ## Characters -/

/-- No identifier goes on with the character. -/
def EndsWord (text : List Char) : Prop := ∀ c, text.head? = some c → continuesIdentifier c = false

theorem takeWhile_append_stop {p : Char → Bool} {body rest : List Char}
    (hbody : ∀ c ∈ body, p c = true) (hrest : ∀ c, rest.head? = some c → p c = false) :
    (body ++ rest).takeWhile p = body := by
  rw [List.takeWhile_append_of_pos hbody]
  cases rest with
  | nil => simp
  | cons c rest =>
    rw [List.takeWhile_cons_of_neg (by simp [hrest c rfl]), List.append_nil]

theorem endsField_of_continues {c : Char} (h : continuesIdentifier c = true) :
    endsField c = false := by
  rw [endsField, Bool.or_eq_false_iff, beq_eq_false_iff_ne, beq_eq_false_iff_ne]
  constructor
  · rintro rfl
    exact absurd h (by decide)
  · rintro rfl
    exact absurd h (by decide)

theorem digit_ne {c d : Char} (h : isAsciiDigit c = true) (hd : isAsciiDigit d = false) :
    c ≠ d := by
  rintro rfl
  rw [hd] at h
  cases h

theorem not_whitespace_of_starts {c : Char} (h : startsIdentifier c = true) :
    isAsciiWhitespace c = false := by
  by_contra hws
  rw [Bool.not_eq_false, isAsciiWhitespace] at hws
  simp only [Bool.or_eq_true, beq_iff_eq] at hws
  simp only [startsIdentifier, isAsciiAlphabetic, Bool.or_eq_true, Bool.and_eq_true,
    decide_eq_true_eq, beq_iff_eq, Char.le_def, UInt32.le_iff_toNat_le] at h
  have hnat : c.toNat = c.val.toNat := rfl
  rcases h with (⟨hlow, -⟩ | ⟨hlow, -⟩) | rfl
  · have : ('a').val.toNat = 97 := rfl
    omega
  · have : ('A').val.toNat = 65 := rfl
    omega
  · exact absurd hws (by decide)

/-! ## Splitting -/

theorem splitPath_field {name rest : List Char} (hne : name ≠ [])
    (hname : ∀ c ∈ name, endsField c = false)
    (hrest : ∀ c, rest.head? = some c → endsField c = true) :
    splitPath (name ++ rest) = .field (String.ofList name) :: splitPath (stripDot rest) := by
  obtain ⟨c, cs, rfl⟩ := List.exists_cons_of_ne_nil hne
  have hc : c ≠ '[' := by
    rintro rfl
    exact absurd (hname '[' List.mem_cons_self) (by decide)
  have hfield : (c :: cs ++ rest).takeWhile (!endsField ·) = c :: cs :=
    takeWhile_append_stop (fun d hd ↦ by rw [hname d hd]; rfl)
      fun d hd ↦ by rw [hrest d hd]; rfl
  rw [List.cons_append] at hfield ⊢
  rw [splitPath, dif_neg hc]
  dsimp only
  rw [hfield, if_neg (by simp)]
  have hdrop : (c :: (cs ++ rest)).drop (c :: cs).length = rest := by
    rw [← List.cons_append, List.drop_left]
  rw [hdrop]

theorem splitPath_index {digits : List Char} (hdigits : ∀ c ∈ digits, isAsciiDigit c = true)
    (rest : List Char) :
    splitPath ('[' :: (digits ++ ']' :: rest)) =
      match parseUsize digits with
      | some idx => .index idx :: splitPath (stripDot rest)
      | none => [.malformed (String.ofList ('[' :: (digits ++ ']' :: rest)))] := by
  have hindex : (digits ++ ']' :: rest).takeWhile (· != ']') = digits := by
    refine takeWhile_append_stop (fun c hc ↦ ?_) fun c hc ↦ ?_
    · exact bne_iff_ne.mpr (digit_ne (hdigits c hc) (by decide))
    · obtain rfl := Option.some.inj hc
      rfl
  have hdrop : (digits ++ ']' :: rest).drop (digits.length + 1) = rest := by
    simp [List.drop_append]
  have hclosed : digits.length < (digits ++ ']' :: rest).length := by simp
  rw [splitPath, dif_pos rfl]
  dsimp only
  cases hparse : parseUsize digits with
  | none => simp only [hindex, hclosed, if_true, hparse]
  | some idx => simp only [hindex, hclosed, if_true, hdrop, hparse]

theorem applySegments_cons (cur : JsonValue) (segment : PathSegment)
    (segments : List PathSegment) :
    applySegments cur (segment :: segments) =
      (applyPathSegment cur segment).bind fun next ↦ applySegments next segments :=
  List.foldlM_cons

theorem walkSteps_cons (cur : JsonValue) (step : Step) (steps : List Step) :
    walkSteps cur (step :: steps) = (step.apply cur).bind fun next ↦ walkSteps next steps :=
  List.foldlM_cons

/-- One step in front of text that begins a segment or ends the path: its segment is split off, or
the whole is malformed where the index is too large. -/
theorem applySegments_segment {step : Step} (hstep : step.WellFormed) {rest : List Char}
    (hrest : ∀ c, rest.head? = some c → endsField c = true) (cur : JsonValue) :
    applySegments cur (splitPath (step.segment ++ rest)) =
      (step.apply cur).bind fun next ↦ applySegments next (splitPath (stripDot rest)) := by
  cases step with
  | field name =>
    obtain ⟨hfirst, hname⟩ := hstep
    have hne : name ≠ [] := by
      rintro rfl
      cases hfirst
    rw [Step.segment, splitPath_field hne (fun c hc ↦ endsField_of_continues (hname c hc)) hrest,
      applySegments_cons]
    rfl
  | index digits =>
    rw [Step.segment, List.cons_append, List.append_assoc, List.singleton_append,
      splitPath_index hstep.2, Step.apply]
    cases parseUsize digits with
    | none => rfl
    | some idx => exact applySegments_cons _ _ _

theorem head_pathText {steps : List Step} {c : Char} (h : (pathText steps).head? = some c) :
    endsField c = true := by
  cases steps with
  | nil => cases h
  | cons step steps =>
    cases step with
    | field name =>
      obtain rfl := Option.some.inj h
      rfl
    | index digits =>
      obtain rfl := Option.some.inj h
      rfl

theorem stripDot_text (step : Step) (rest : List Char) :
    stripDot (step.text ++ rest) = step.segment ++ rest := by
  cases step with
  | field name => rfl
  | index digits => rfl

/-- The path of the string literal leads where its steps do. -/
theorem applySegments_quotedPath {steps : List Step} (hsteps : ∀ step ∈ steps, step.WellFormed)
    (cur : JsonValue) :
    applySegments cur (splitPath (stripDot (pathText steps))) = walkSteps cur steps := by
  induction steps generalizing cur with
  | nil =>
    change applySegments cur (splitPath []) = some cur
    rw [splitPath]
    rfl
  | cons step steps ih =>
    obtain ⟨hstep, hsteps⟩ := List.forall_mem_cons.mp hsteps
    rw [pathText, List.flatMap_cons, ← pathText, stripDot_text,
      applySegments_segment hstep fun c hc ↦ head_pathText hc, walkSteps_cons]
    exact congrArg _ (funext fun next ↦ ih hsteps next)

/-- The segments behind a path that has one already. -/
def dottedText (steps : List Step) : List Char := steps.flatMap fun step ↦ '.' :: step.segment

theorem head_dottedText {steps : List Step} {c : Char} (h : (dottedText steps).head? = some c) :
    endsField c = true := by
  cases steps with
  | nil => cases h
  | cons step steps =>
    obtain rfl := Option.some.inj h
    rfl

theorem applySegments_dottedText {steps : List Step} (hsteps : ∀ step ∈ steps, step.WellFormed)
    (cur : JsonValue) :
    applySegments cur (splitPath (stripDot (dottedText steps))) = walkSteps cur steps := by
  induction steps generalizing cur with
  | nil =>
    change applySegments cur (splitPath []) = some cur
    rw [splitPath]
    rfl
  | cons step steps ih =>
    obtain ⟨hstep, hsteps⟩ := List.forall_mem_cons.mp hsteps
    change applySegments cur (splitPath (step.segment ++ dottedText steps)) = _
    rw [applySegments_segment hstep fun c hc ↦ head_dottedText hc, walkSteps_cons]
    exact congrArg _ (funext fun next ↦ ih hsteps next)

theorem segment_ne_nil {step : Step} (hstep : step.WellFormed) : step.segment ≠ [] := by
  cases step with
  | field name =>
    rintro h
    obtain rfl : name = [] := h
    cases hstep.1
  | index digits => exact List.cons_ne_nil _ _

theorem foldl_pushSegment {steps : List Step} (hsteps : ∀ step ∈ steps, step.WellFormed)
    {path : String} (hpath : path ≠ "") :
    steps.foldl (fun path step ↦ Parser.pushSegment path (String.ofList step.segment)) path =
      String.ofList (path.toList ++ dottedText steps) := by
  induction steps generalizing path with
  | nil => simp [dottedText]
  | cons step steps ih =>
    obtain ⟨-, hsteps⟩ := List.forall_mem_cons.mp hsteps
    have hpush : Parser.pushSegment path (String.ofList step.segment) =
        String.ofList (path.toList ++ '.' :: step.segment) := by
      rw [Parser.pushSegment, if_neg (by simpa using hpath)]
      apply String.toList_injective
      simp
    rw [List.foldl_cons, hpush, ih hsteps]
    · simp [dottedText]
    · intro h
      have := congrArg String.toList h
      simp at this

/-- The path of the bare form leads where its steps do. -/
theorem resolvePrev_barePath {steps : List Step} (hsteps : ∀ step ∈ steps, step.WellFormed)
    (prevResult : JsonValue) :
    ArgValue.resolvePrev prevResult (.prevRef (barePath steps)) = walkSteps prevResult steps := by
  cases steps with
  | nil => rfl
  | cons step steps =>
    obtain ⟨hstep, hsteps⟩ := List.forall_mem_cons.mp hsteps
    have hfirst : Parser.pushSegment "" (String.ofList step.segment) =
        String.ofList step.segment := rfl
    have hne : String.ofList step.segment ≠ "" := by
      intro h
      exact segment_ne_nil hstep (by simpa using congrArg String.toList h)
    have hpath : barePath (step :: steps) = String.ofList (step.segment ++ dottedText steps) := by
      rw [barePath, List.foldl_cons, hfirst, foldl_pushSegment hsteps hne, String.toList_ofList]
    have hpath' : (String.ofList (step.segment ++ dottedText steps)).isEmpty = false := by
      rw [String.isEmpty_eq_false_iff]
      intro h
      have hnil := congrArg String.toList h
      rw [String.toList_ofList] at hnil
      exact segment_ne_nil hstep (List.append_eq_nil_iff.mp hnil).1
    rw [hpath, ArgValue.resolvePrev, hpath', if_neg Bool.false_ne_true, String.toList_ofList,
      applySegments_segment hstep fun c hc ↦ head_dottedText hc, walkSteps_cons]
    exact congrArg _ (funext fun next ↦ applySegments_dottedText hsteps next)

/-- So does the path of the string literal. -/
theorem resolvePrev_quotedPath {steps : List Step} (hsteps : ∀ step ∈ steps, step.WellFormed)
    (prevResult : JsonValue) :
    ArgValue.resolvePrev prevResult (.prevRef (quotedPath steps)) = walkSteps prevResult steps := by
  rw [ArgValue.resolvePrev, ← applySegments_quotedPath hsteps, quotedPath, String.toList_ofList]
  split_ifs with hempty
  · have hnil : stripDot (pathText steps) = [] := by simpa using hempty
    rw [hnil, splitPath]
    rfl
  · rfl

/-! ## The bare form -/

namespace Parser

theorem advance_append (s t : List Char) (pos : Nat) :
    Parser.advance ⟨s ++ t, pos⟩ s.length = ⟨t, pos + utf8Len s⟩ := by
  rw [Parser.advance, List.drop_left, List.take_left]

theorem advance_cons (c : Char) (s : List Char) (pos : Nat) :
    Parser.advance ⟨c :: s, pos⟩ 1 = ⟨s, pos + c.utf8Size⟩ := by
  simp [Parser.advance, utf8Len]

theorem parseIdentifier_word {name rest : List Char}
    (hfirst : name.head?.any startsIdentifier = true)
    (hname : ∀ c ∈ name, continuesIdentifier c = true) (hrest : EndsWord rest) (pos : Nat) :
    Parser.parseIdentifier ⟨name ++ rest, pos⟩ =
      .ok (String.ofList name, ⟨rest, pos + utf8Len name⟩) := by
  obtain ⟨c, cs, rfl⟩ : ∃ c cs, name = c :: cs := by
    cases name with
    | nil => cases hfirst
    | cons c cs => exact ⟨c, cs, rfl⟩
  have hstart : startsIdentifier c = true := hfirst
  have hskip : Parser.skipWs ⟨c :: cs ++ rest, pos⟩ = ⟨c :: cs ++ rest, pos⟩ := by
    rw [Parser.skipWs, List.cons_append,
      List.takeWhile_cons_of_neg
        (by rw [not_whitespace_of_starts hstart]; exact Bool.false_ne_true)]
    rfl
  have hpeek : (Parser.peek ⟨c :: cs ++ rest, pos⟩).any startsIdentifier = true := hstart
  rw [Parser.parseIdentifier, hskip]
  dsimp only
  rw [if_pos hpeek, takeWhile_append_stop hname hrest, advance_append]

theorem parseIndex_digits {digits : List Char} (hne : digits ≠ [])
    (hdigits : ∀ c ∈ digits, isAsciiDigit c = true) (rest : List Char) (pos : Nat) :
    Parser.parseIndex ⟨digits ++ ']' :: rest, pos⟩ =
      .ok (String.ofList digits, ⟨rest, pos + utf8Len (digits ++ [']'])⟩) := by
  have hspan : (digits ++ ']' :: rest).takeWhile isAsciiDigit = digits := by
    refine takeWhile_append_stop hdigits fun c hc ↦ ?_
    obtain rfl := Option.some.inj hc
    rfl
  rw [Parser.parseIndex]
  dsimp only
  rw [hspan, if_neg (by simpa using hne), advance_append]
  have hlen : utf8Len (digits ++ [']']) = utf8Len digits + 1 := by
    rw [utf8Len, List.map_append, List.sum_append]
    rfl
  rw [hlen]
  rfl

end Parser

/-- No path goes on with the text. -/
def EndsPath (text : List Char) : Prop :=
  ∀ c, text.head? = some c → continuesIdentifier c = false ∧ c ≠ '.' ∧ c ≠ '['

theorem endsWord_pathText {steps : List Step} {rest : List Char} (hrest : EndsPath rest) :
    EndsWord (pathText steps ++ rest) := by
  intro c hc
  cases steps with
  | nil => exact (hrest c hc).1
  | cons step steps =>
    cases step with
    | field name =>
      obtain rfl := Option.some.inj hc
      rfl
    | index digits =>
      obtain rfl := Option.some.inj hc
      rfl

theorem prevSegments_pathText {steps : List Step} (hsteps : ∀ step ∈ steps, step.WellFormed)
    {rest : List Char} (hrest : EndsPath rest) {fuel : Nat} (hfuel : steps.length ≤ fuel)
    (path : String) (pos : Nat) :
    Parser.prevSegments fuel path ⟨pathText steps ++ rest, pos⟩ =
      .ok (steps.foldl (fun path step ↦ Parser.pushSegment path (String.ofList step.segment)) path,
        ⟨rest, pos + utf8Len (pathText steps)⟩) := by
  induction steps generalizing fuel path pos with
  | nil =>
    cases fuel with
    | zero => rfl
    | succ fuel =>
      have hdot : ¬Parser.peek ⟨rest, pos⟩ = some '.' := fun h ↦ (hrest '.' h).2.1 rfl
      have hbracket : ¬Parser.peek ⟨rest, pos⟩ = some '[' := fun h ↦ (hrest '[' h).2.2 rfl
      change Parser.prevSegments (fuel + 1) path ⟨rest, pos⟩ = .ok (path, ⟨rest, pos⟩)
      rw [Parser.prevSegments, if_neg hdot, if_neg hbracket]
  | cons step steps ih =>
    obtain ⟨hstep, hsteps⟩ := List.forall_mem_cons.mp hsteps
    cases fuel with
    | zero => exact absurd hfuel (Nat.not_succ_le_zero _)
    | succ fuel =>
      have hih := ih hsteps (Nat.le_of_succ_le_succ hfuel)
      -- a step is behind the cursor with its own bytes
      have hlen : ∀ s : List Char, step.text = s →
          pos + utf8Len (pathText (step :: steps)) =
            pos + utf8Len s + utf8Len (pathText steps) := by
        rintro s rfl
        rw [pathText, List.flatMap_cons, utf8Len_append, Nat.add_assoc]
        rfl
      cases step with
      | field name =>
        have htext : pathText (.field name :: steps) ++ rest =
            '.' :: (name ++ (pathText steps ++ rest)) := by
          rw [pathText, List.flatMap_cons, ← pathText, List.append_assoc]
          rfl
        have hdot : Parser.peek ⟨'.' :: (name ++ (pathText steps ++ rest)), pos⟩ = some '.' := rfl
        rw [htext, Parser.prevSegments, if_pos hdot, Parser.advance_cons,
          Parser.parseIdentifier_word hstep.1 hstep.2 (endsWord_pathText hrest), ok_bind]
        dsimp only
        rw [hih, hlen ('.' :: name) rfl, utf8Len_cons, Nat.add_assoc pos]
        rfl
      | index digits =>
        have htext : pathText (.index digits :: steps) ++ rest =
            '[' :: (digits ++ ']' :: (pathText steps ++ rest)) := by
          rw [pathText, List.flatMap_cons, ← pathText, List.append_assoc, Step.text,
            List.cons_append, List.append_assoc, List.singleton_append]
        have hdot : ¬Parser.peek ⟨'[' :: (digits ++ ']' :: (pathText steps ++ rest)), pos⟩ =
            some '.' := fun h ↦ absurd (Option.some.inj h) (by decide)
        have hbracket : Parser.peek ⟨'[' :: (digits ++ ']' :: (pathText steps ++ rest)), pos⟩ =
            some '[' := rfl
        have hsegment : "[" ++ String.ofList digits ++ "]" =
            String.ofList (Step.segment (.index digits)) := by
          apply String.toList_injective
          simp [Step.segment]
        rw [htext, Parser.prevSegments, if_neg hdot, if_pos hbracket, Parser.advance_cons,
          Parser.parseIndex_digits hstep.1 hstep.2, ok_bind]
        dsimp only
        rw [hih, hlen ('[' :: (digits ++ [']'])) rfl, utf8Len_cons, Nat.add_assoc pos, hsegment]
        rfl

theorem length_le_pathText (steps : List Step) : steps.length ≤ (pathText steps).length := by
  induction steps with
  | nil => exact Nat.le_refl 0
  | cons step steps ih =>
    have htext : 1 ≤ step.text.length := by
      cases step with
      | field name => exact Nat.succ_le_succ (Nat.zero_le _)
      | index digits => exact Nat.succ_le_succ (Nat.zero_le _)
    rw [pathText, List.flatMap_cons, ← pathText, List.length_append, List.length_cons]
    omega

/-- The bare form is read as the reference that stores its dotted path. -/
theorem parsePrevRef_prevText {steps : List Step} (hsteps : ∀ step ∈ steps, step.WellFormed)
    {rest : List Char} (hrest : EndsPath rest) (pos : Nat) :
    Parser.parsePrevRef ⟨prevText steps ++ rest, pos⟩ =
      .ok (.prevRef (barePath steps), ⟨rest, pos + utf8Len (prevText steps)⟩) := by
  have htext : prevText steps ++ rest =
      '$' :: (['p', 'r', 'e', 'v'] ++ (pathText steps ++ rest)) := by
    rw [prevText, List.append_assoc]
    rfl
  have hlength : steps.length ≤ (pathText steps ++ rest).length := by
    rw [List.length_append]
    exact (length_le_pathText steps).trans (Nat.le_add_right _ _)
  rw [htext, Parser.parsePrevRef]
  dsimp only
  have hname : ∀ c ∈ ['p', 'r', 'e', 'v'], continuesIdentifier c = true :=
    List.all_eq_true.mp rfl
  rw [Parser.advance_cons, Parser.parseIdentifier_word rfl hname (endsWord_pathText hrest)]
  have hprev : String.ofList ['p', 'r', 'e', 'v'] = "prev" := rfl
  simp only [Except.mapError, ok_bind]
  rw [hprev, if_neg (not_not_intro rfl), prevSegments_pathText hsteps hrest hlength, ok_bind]
  have hlen : utf8Len (prevText steps) =
      '$'.utf8Size + utf8Len ['p', 'r', 'e', 'v'] + utf8Len (pathText steps) := by
    rw [prevText, utf8Len_append]
    rfl
  rw [hlen, barePath]
  simp only [Nat.add_assoc]

/-! ## The string literal -/

theorem prevPathValidFrom_field {name rest : List Char}
    (hname : ∀ c ∈ name, continuesIdentifier c = true) :
    prevPathValidFrom none (name ++ rest) = prevPathValidFrom none rest := by
  induction name with
  | nil => rfl
  | cons c name ih =>
    obtain ⟨hc, hname⟩ := List.forall_mem_cons.mp hname
    have hopen : c ≠ '[' := by
      rintro rfl
      exact absurd hc (by decide)
    have hclose : c ≠ ']' := by
      rintro rfl
      exact absurd hc (by decide)
    rw [List.cons_append, prevPathValidFrom, if_neg hopen, if_neg hclose]
    exact ih hname

theorem prevPathValidFrom_index {digits rest : List Char} (seen : Bool)
    (hdigits : ∀ c ∈ digits, isAsciiDigit c = true) (hne : seen = true ∨ digits ≠ []) :
    prevPathValidFrom (some seen) (digits ++ ']' :: rest) = prevPathValidFrom none rest := by
  induction digits generalizing seen with
  | nil =>
    have hseen : seen = true := hne.resolve_right (fun h ↦ h rfl)
    subst hseen
    rfl
  | cons c digits ih =>
    obtain ⟨hc, hdigits⟩ := List.forall_mem_cons.mp hdigits
    rw [List.cons_append, prevPathValidFrom, if_pos hc]
    exact ih true hdigits (Or.inl rfl)

theorem quotedPrevPathIsValid_pathText {steps : List Step}
    (hsteps : ∀ step ∈ steps, step.WellFormed) : quotedPrevPathIsValid (pathText steps) = true := by
  rw [quotedPrevPathIsValid]
  induction steps with
  | nil => rfl
  | cons step steps ih =>
    obtain ⟨hstep, htail⟩ := List.forall_mem_cons.mp hsteps
    rw [pathText, List.flatMap_cons, ← pathText]
    cases step with
    | field name =>
      have hdot : prevPathValidFrom none ('.' :: (name ++ pathText steps)) =
          prevPathValidFrom none (name ++ pathText steps) := rfl
      rw [Step.text, List.cons_append, hdot, prevPathValidFrom_field hstep.2]
      exact ih htail
    | index digits =>
      have hbracket : prevPathValidFrom none ('[' :: (digits ++ ']' :: pathText steps)) =
          prevPathValidFrom (some false) (digits ++ ']' :: pathText steps) := rfl
      rw [Step.text, List.cons_append, List.append_assoc, List.singleton_append, hbracket,
        prevPathValidFrom_index false hstep.2 (Or.inr hstep.1)]
      exact ih htail

/-- The string literal is read as the reference that stores its text. -/
theorem stringAsPrevRef_prevText {steps : List Step} (hsteps : ∀ step ∈ steps, step.WellFormed) :
    stringAsPrevRef (String.ofList (prevText steps)) = some (.prevRef (quotedPath steps)) := by
  have hescape : (String.ofList (prevText steps)).toList.dropPrefix? ['\\'] = none := by
    rw [String.toList_ofList]
    rfl
  rw [stringAsPrevRef, hescape]
  cases steps with
  | nil => rfl
  | cons step steps =>
    obtain ⟨hstep, hsteps⟩ := List.forall_mem_cons.mp hsteps
    -- with a step the literal is longer than `$prev` alone
    have hne : String.ofList (prevText (step :: steps)) ≠ "$prev" := by
      intro h
      have hlist := congrArg String.toList h
      rw [String.toList_ofList, prevText, List.append_right_eq_self] at hlist
      have hlength := length_le_pathText (step :: steps)
      rw [hlist] at hlength
      exact absurd hlength (Nat.not_succ_le_zero _)
    dsimp only
    rw [if_neg hne, String.toList_ofList, quotedPath, prevText, pathText, List.flatMap_cons,
      ← pathText, stripDot_text]
    have hvalid := quotedPrevPathIsValid_pathText hsteps
    cases step with
    | field name =>
      have hdrop : ("$prev".toList ++ (Step.text (.field name) ++ pathText steps)).dropPrefix?
          "$prev.".toList = some (name ++ pathText steps) :=
        List.dropPrefix?_append_of_beq _ (beq_self_eq_true "$prev.".toList)
      have hname : name ≠ [] := by
        rintro rfl
        cases hstep.1
      have hname' : quotedPrevPathIsValid (name ++ pathText steps) = true := by
        rw [quotedPrevPathIsValid, prevPathValidFrom_field hstep.2]
        exact hvalid
      rw [hdrop]
      dsimp only
      rw [hname', Step.segment]
      simp [hname]
    | index digits =>
      have hdot : ("$prev".toList ++ (Step.text (.index digits) ++ pathText steps)).dropPrefix?
          "$prev.".toList = none := rfl
      have hdrop : ("$prev".toList ++ (Step.text (.index digits) ++ pathText steps)).dropPrefix?
          "$prev[".toList = some (digits ++ ']' :: pathText steps) := by
        rw [Step.text, List.cons_append, List.append_assoc]
        exact List.dropPrefix?_append_of_beq _ (beq_self_eq_true "$prev[".toList)
      -- the digits end at the first bracket
      have hspan : (digits ++ ']' :: pathText steps).takeWhile (· != ']') = digits := by
        refine takeWhile_append_stop (fun c hc ↦ ?_) fun c hc ↦ ?_
        · exact bne_iff_ne.mpr (digit_ne (hstep.2 c hc) (by decide))
        · obtain rfl := Option.some.inj hc
          rfl
      have htail : (digits ++ ']' :: pathText steps).drop (digits.length + 1) = pathText steps := by
        rw [List.drop_append, List.drop_eq_nil_of_le (Nat.le_succ _)]
        simp
      have hall : digits.all isAsciiDigit = true := List.all_eq_true.mpr hstep.2
      rw [hdot, hdrop, Option.bind_some, indexedPrevRef]
      dsimp only
      rw [hspan, htail, hvalid, hall, Step.segment]
      simp [hstep.1]

/-! ## Both spellings -/

end Khive
