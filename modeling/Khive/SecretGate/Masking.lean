import Khive.Foundation.Returns
import Khive.Foundation.Utf8

/-!
# Masking

The masker asks a detector for the next match from a cursor on, takes the structural punctuation off
the end of the match, goes on across invisible separators to the fragments that follow, and notes
the spans to redact. When the matches have cost too much scanning, it redacts the rest of the text.
Every cut through the text is at a byte position and panics between the bytes of a character.
-/

namespace Khive

namespace SecretGate

/-- Byte positions of the start and of the end. -/
abbrev Span := ℕ × ℕ

def REDACTION_MARKER : List Char := "***MASKED***".toList

def MAX_BRIDGE_FRAGMENTS : ℕ := 6

def MIN_BRIDGE_FRAGMENT_LEN : ℕ := 8

def MAX_LOG_TEXT_MASK_INPUT_CHARS : ℕ := 1048576

def MAX_MASK_SCAN_WORK_BYTES : ℕ := MAX_LOG_TEXT_MASK_INPUT_CHARS * 2

/-- `usize::saturating_add`. -/
def saturatingAdd (a b : ℕ) : ℕ := min (a + b) (2 ^ 64 - 1)

/-! ## Tokens -/

/-- `str::split`, each piece with its position: the position of the piece under way, the piece, and
the text still to split. -/
def splitPieces (p : Char → Bool) : ℕ → List Char → List Char → List (ℕ × List Char)
  | offset, piece, [] => [(offset, piece)]
  | offset, piece, c :: text =>
    if p c then (offset, piece) :: splitPieces p (offset + utf8Len piece + c.utf8Size) [] text
    else splitPieces p offset (piece ++ [c]) text

def tokenizeEntropyTokens (text : List Char) : List (ℕ × List Char) :=
  (splitPieces (fun c ↦ isAsciiWhitespace c || !isAscii c) 0 [] text).filter fun t ↦ !t.2.isEmpty

/-! ## The detector -/

/-- What a detector may report from a cursor on: a piece of the text that is not empty and does not
start before the cursor. -/
structure Match (text : List Char) (cursor : ℕ) where
  before : List Char
  chars : List Char
  after : List Char
  detector : String
  eq : text = before ++ (chars ++ after)
  nonempty : chars ≠ []
  cursor_le : cursor ≤ utf8Len before

/-- `['"', '\'', '`', '}', ']', ')', ',', ';']`. -/
def isStructural (c : Char) : Bool :=
  ['"', '\'', Char.ofNat 0x60, '}', ']', ')', ',', ';'].contains c

/-- `trim_end_matches`. -/
def trimEndMatches (chars : List Char) : List Char := chars.rdropWhile isStructural

section Masker

-- `char::is_alphanumeric`
variable (isAlphanumeric : Char → Bool)

def isInvisibleBridgeSeparator (c : Char) : Bool := !isAscii c && !isAlphanumeric c

/-- The passes of `extend_across_invisible_bridge` that are left. -/
def extendPasses (text : List Char) : ℕ → ℕ → Option ℕ
  | 0, stop => some stop
  | passes + 1, stop => do
    let rest ← sliceFrom text stop
    match findByte Char.isAlphanum rest with
    | none => pure stop
    | some gapLen => do
      let gap ← sliceBytes rest 0 gapLen
      if gap.isEmpty || !gap.all (isInvisibleBridgeSeparator isAlphanumeric) then
        pure stop
      else do
        let fragment ← sliceFrom rest gapLen
        let fragmentLen := (findByte (fun c ↦ !c.isAlphanum) fragment).getD (utf8Len fragment)
        if fragmentLen < MIN_BRIDGE_FRAGMENT_LEN then
          pure stop
        else
          extendPasses text passes (stop + (gapLen + fragmentLen))

def extendAcrossInvisibleBridge (text : List Char) (stop : ℕ) : Option ℕ :=
  extendPasses isAlphanumeric text (MAX_BRIDGE_FRAGMENTS - 1) stop

/-- A character of the loop of `push_mask_spans`: the spans, and the start of the run under way. -/
def pushRun (start : ℕ) (s : List Span × Option ℕ) (p : ℕ × Char) : List Span × Option ℕ :=
  if isInvisibleBridgeSeparator isAlphanumeric p.2 then
    match s.2 with
    | some run => (s.1 ++ [(start + run, start + p.1)], none)
    | none => s
  else (s.1, some (s.2.getD p.1))

def pushMaskSpans (text : List Char) (start stop : ℕ) (spans : List Span) :
    Option (List Span) := do
  let span ← sliceBytes text start stop
  if !span.any (isInvisibleBridgeSeparator isAlphanumeric) then
    pure (spans ++ [(start, stop)])
  else
    let (pushed, runStart) :=
      (charIndices 0 span).foldl (pushRun isAlphanumeric start) (spans, none)
    let pushed := match runStart with
      | some run => pushed ++ [(start + run, stop)]
      | none => pushed
    pure (if pushed.length = spans.length then pushed ++ [(start, stop)] else pushed)

/-- `spans.last_mut().expect(…).1 = stop`. -/
def extendLast : List Span → ℕ → Option (List Span)
  | [], _ => none
  | [p], stop => some [(p.1, stop)]
  | p :: q :: spans, stop => (extendLast (q :: spans) stop).map (p :: ·)

/-- The variables of `collect_mask_spans`. -/
structure MaskState where
  spans : List Span
  cursor : ℕ
  scanWorkBytes : ℕ

variable (text : List Char) (scanFrom : (cursor : ℕ) → Option (Match text cursor))

/-- What the scan from the cursor on is charged. -/
def scanLen (cursor : ℕ) : ℕ :=
  let tokens := tokenizeEntropyTokens text
  let tokenIndex := (tokens.takeWhile fun t ↦ t.1 + utf8Len t.2 ≤ cursor).length
  let scanStart := match tokens[tokenIndex]? with
    | some (offset, _) => min offset cursor
    | none => cursor
  utf8Len text - scanStart

/-- A scan before has left no budget for this one. -/
def budgetExhausted (s : MaskState) : Bool :=
  0 < s.scanWorkBytes &&
    MAX_MASK_SCAN_WORK_BYTES < saturatingAdd s.scanWorkBytes (scanLen text s.cursor)

/-- The end of the redaction for a match. -/
def matchEnd {cursor : ℕ} (sub : Match text cursor) : Option ℕ :=
  extendAcrossInvisibleBridge isAlphanumeric text
    (utf8Len sub.before + max (utf8Len (trimEndMatches sub.chars)) 1)

/-- A pass of `collect_mask_spans`. -/
def maskPass (s : MaskState) : Option (Pass MaskState (List Span × ℕ)) :=
  if utf8Len text ≤ s.cursor then
    pure (.leave (s.spans, s.scanWorkBytes))
  else if budgetExhausted text s then do
    let spans ← extendLast s.spans (utf8Len text)
    pure (.leave (spans, s.scanWorkBytes))
  else
    let scanWorkBytes := saturatingAdd s.scanWorkBytes (scanLen text s.cursor)
    match scanFrom s.cursor with
    | some sub => do
      let stop ← matchEnd isAlphanumeric text sub
      let spans ← pushMaskSpans isAlphanumeric text (utf8Len sub.before) stop s.spans
      pure (.again ⟨spans, stop, scanWorkBytes⟩)
    | none => pure (.leave (s.spans, scanWorkBytes))

def collectMaskSpans (passes : ℕ) : Option (List Span × ℕ) :=
  loop (maskPass isAlphanumeric text scanFrom) passes ⟨[], 0, 0⟩

/-- A span in the loop of `mask_secrets`: what was written, and the position behind it. -/
def writeSpan (s : List Char × ℕ) (p : Span) : Option (List Char × ℕ) := do
  let start := max p.1 s.2
  let kept ← sliceBytes text s.2 start
  pure (s.1 ++ (kept ++ REDACTION_MARKER), max p.2 s.2)

def maskSecrets (passes : ℕ) : Option (List Char) := do
  let (spans, _) ← collectMaskSpans isAlphanumeric text scanFrom passes
  if spans.isEmpty then
    pure text
  else do
    let (out, cursor) ← spans.foldlM (writeSpan text) ([], 0)
    let rest ← sliceFrom text cursor
    pure (out ++ rest)

end Masker

end SecretGate

end Khive
