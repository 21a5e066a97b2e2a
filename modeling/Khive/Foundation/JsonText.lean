import Khive.Foundation.Json
import Khive.Foundation.SortedMap

/-!
# Nesting of JSON values and JSON texts

The depth of a value counts the arrays and objects around its innermost part. A text has a
nesting of its own, counted over its brackets and braces outside strings, and the two can differ:
an object keeps the last of several members of one name, so a text may nest deeper than the value
it denotes.

`Spells` describes the bracket structure of JSON texts, together with that count. It leaves open
what an atom or a string literal denotes, so a parser that satisfies it may be more liberal than
JSON is; the depth of a value is bounded by the nesting of its text all the same. A compact
writer, over any way to write strings and numbers, reaches the bound on every value whose objects
are maps.
-/

namespace Khive

namespace Json

variable {ν : Type}

/-! ## Depth -/

mutual

/-- The number of arrays and objects around the innermost part of a value. -/
def depth : Json ν → Nat
  | .array xs => depthItems xs + 1
  | .object ms => depthMembers ms + 1
  | _ => 0

def depthItems : List (Json ν) → Nat
  | [] => 0
  | x :: xs => max (depth x) (depthItems xs)

def depthMembers : List (String × Json ν) → Nat
  | [] => 0
  | m :: ms => max (depth m.2) (depthMembers ms)

end

theorem depthItems_le {xs : List (Json ν)} {n : Nat} :
    depthItems xs ≤ n ↔ ∀ x ∈ xs, x.depth ≤ n := by
  induction xs with
  | nil => simp [depthItems]
  | cons x xs ih => rw [depthItems, max_le_iff, ih, List.forall_mem_cons]

theorem depthMembers_le {ms : List (String × Json ν)} {n : Nat} :
    depthMembers ms ≤ n ↔ ∀ m ∈ ms, m.2.depth ≤ n := by
  induction ms with
  | nil => simp [depthMembers]
  | cons m ms ih => rw [depthMembers, max_le_iff, ih, List.forall_mem_cons]

/-! ## Objects that are maps -/

mutual

/-- Every object in the value lists its members by strictly increasing key. -/
def WellFormed : Json ν → Prop
  | .array xs => WellFormedItems xs
  | .object ms => SortedMap.Sorted ms ∧ WellFormedMembers ms
  | _ => True

def WellFormedItems : List (Json ν) → Prop
  | [] => True
  | x :: xs => WellFormed x ∧ WellFormedItems xs

def WellFormedMembers : List (String × Json ν) → Prop
  | [] => True
  | m :: ms => WellFormed m.2 ∧ WellFormedMembers ms

end

theorem wellFormedItems_iff {xs : List (Json ν)} :
    WellFormedItems xs ↔ ∀ x ∈ xs, x.WellFormed := by
  induction xs with
  | nil => simp [WellFormedItems]
  | cons x xs ih => rw [WellFormedItems, ih, List.forall_mem_cons]

/-! ## Texts -/

/-- JSON whitespace. -/
def isBlank (c : Char) : Bool := c == ' ' || c == '\t' || c == '\n' || c == '\r'

/-- Whether the character opens or closes a string, an array or an object. -/
def isStructural (c : Char) : Bool :=
  c == '"' || c == '[' || c == ']' || c == '{' || c == '}'

/-- What stands between the quotes of a string literal: a backslash takes the next character with
it, and no other quote occurs. -/
inductive StringBody : List Char → Prop
  | nil : StringBody []
  | char {c : Char} {cs : List Char} (hquote : c ≠ '"') (hescape : c ≠ '\\')
      (h : StringBody cs) : StringBody (c :: cs)
  | escape (c : Char) {cs : List Char} (h : StringBody cs) : StringBody ('\\' :: c :: cs)

/-- A run of characters without structure: a number, a word or whitespace. -/
def Plain (s : List Char) : Prop := ∀ c ∈ s, isStructural c = false

theorem plain_of_blank {s : List Char} (hs : ∀ c ∈ s, isBlank c = true) : Plain s := by
  intro c hc
  have hblank := hs c hc
  simp only [isBlank, Bool.or_eq_true, beq_iff_eq] at hblank
  rcases hblank with ((rfl | rfl) | rfl) | rfl <;> rfl

/-- The value is `null`, a Boolean or a number. -/
def IsAtom : Json ν → Prop
  | .null => True
  | .bool _ => True
  | .number _ => True
  | _ => False

/-- What a stretch of JSON text can denote. -/
inductive Phrase (ν : Type) where
  | value (v : Json ν)
  | items (vs : List (Json ν))
  | member (m : String × Json ν)
  | members (ms : List (String × Json ν))

/-- The text spells the phrase, and its brackets nest `n` deep. -/
inductive Spells : Phrase ν → List Char → Nat → Prop
  | atom {v : Json ν} {s : List Char} (hv : v.IsAtom) (hs : Plain s) (hne : s ≠ []) :
      Spells (.value v) s 0
  | string (x : String) {b : List Char} (hb : StringBody b) :
      Spells (.value (.string x)) ('"' :: (b ++ ['"'])) 0
  | array {vs : List (Json ν)} {s : List Char} {n : Nat} (h : Spells (.items vs) s n) :
      Spells (.value (.array vs)) ('[' :: (s ++ [']'])) (n + 1)
  | object {ms : List (String × Json ν)} {s : List Char} {n : Nat}
      (h : Spells (.members ms) s n) :
      Spells (.value (.object (SortedMap.collect ms))) ('{' :: (s ++ ['}'])) (n + 1)
  | spaced {v : Json ν} {before s after : List Char} {n : Nat}
      (hbefore : ∀ c ∈ before, isBlank c = true) (h : Spells (.value v) s n)
      (hafter : ∀ c ∈ after, isBlank c = true) : Spells (.value v) (before ++ (s ++ after)) n
  | noItems {s : List Char} (hs : ∀ c ∈ s, isBlank c = true) : Spells (.items []) s 0
  | lastItem {v : Json ν} {s : List Char} {n : Nat} (h : Spells (.value v) s n) :
      Spells (.items [v]) s n
  | nextItem {v : Json ν} {vs : List (Json ν)} {s t : List Char} {n m : Nat}
      (h : Spells (.value v) s n) (hvs : Spells (.items vs) t m) :
      Spells (.items (v :: vs)) (s ++ ',' :: t) (max n m)
  | member (key : String) {v : Json ν} {before b mid s : List Char} {n : Nat}
      (hbefore : ∀ c ∈ before, isBlank c = true) (hb : StringBody b)
      (hmid : ∀ c ∈ mid, isBlank c = true) (h : Spells (.value v) s n) :
      Spells (.member (key, v)) (before ++ '"' :: (b ++ '"' :: (mid ++ ':' :: s))) n
  | noMembers {s : List Char} (hs : ∀ c ∈ s, isBlank c = true) : Spells (.members []) s 0
  | lastMember {m : String × Json ν} {s : List Char} {n : Nat} (h : Spells (.member m) s n) :
      Spells (.members [m]) s n
  | nextMember {m : String × Json ν} {ms : List (String × Json ν)} {s t : List Char} {n k : Nat}
      (h : Spells (.member m) s n) (hms : Spells (.members ms) t k) :
      Spells (.members (m :: ms)) (s ++ ',' :: t) (max n k)

/-- The depth of what a phrase denotes. -/
def Phrase.depth : Phrase ν → Nat
  | .value v => v.depth
  | .items vs => depthItems vs
  | .member m => m.2.depth
  | .members ms => depthMembers ms

/-- A value is at most as deep as its text. -/
theorem Spells.depth_le {φ : Phrase ν} {s : List Char} {n : Nat} (h : Spells φ s n) :
    φ.depth ≤ n := by
  induction h with
  | @atom v s hv =>
    cases v with
    | null => exact Nat.le_refl 0
    | bool b => exact Nat.le_refl 0
    | number n => exact Nat.le_refl 0
    | string x => exact hv.elim
    | array xs => exact hv.elim
    | object ms => exact hv.elim
  | string => exact Nat.le_refl 0
  | array _ ih => exact Nat.succ_le_succ ih
  | object _ ih =>
    refine Nat.succ_le_succ (depthMembers_le.mpr fun m hm ↦ ?_)
    exact depthMembers_le.mp ih m (SortedMap.mem_of_mem_collect hm)
  | spaced _ _ _ ih => exact ih
  | noItems => exact Nat.le_refl 0
  | lastItem _ ih => exact max_le ih (Nat.zero_le _)
  | nextItem _ _ ih ihs => exact max_le_max ih ihs
  | member _ _ _ _ _ ih => exact ih
  | noMembers => exact Nat.le_refl 0
  | lastMember _ ih => exact max_le ih (Nat.zero_le _)
  | nextMember _ _ ih ihs => exact max_le_max ih ihs

/-- A value that starts with neither a bracket nor a brace nor whitespace is no container. -/
theorem Spells.depth_eq_zero {v : Json ν} {s : List Char} {n : Nat}
    (h : Spells (.value v) s n) (hhead : ∀ c ∈ s.head?, c ≠ '[' ∧ c ≠ '{' ∧ isBlank c = false) :
    v.depth = 0 ∧ s ≠ [] := by
  generalize hφ : Phrase.value v = φ at h
  induction h with
  | atom hv hs hne =>
    obtain rfl := Phrase.value.inj hφ
    refine ⟨?_, hne⟩
    exact Nat.le_zero.mp (Spells.atom hv hs hne).depth_le
  | string x hb =>
    obtain rfl := Phrase.value.inj hφ
    exact ⟨rfl, List.cons_ne_nil _ _⟩
  | array => exact absurd rfl (hhead _ rfl).1
  | object => exact absurd rfl (hhead _ rfl).2.1
  | @spaced w before s after n hbefore h hafter ih =>
    cases before with
    | cons c cs =>
      have hblank := hbefore c List.mem_cons_self
      rw [(hhead c rfl).2.2] at hblank
      exact absurd hblank Bool.false_ne_true
    | nil =>
      rw [List.nil_append] at hhead ⊢
      cases s with
      | nil =>
        -- no value has an empty text
        obtain ⟨-, hne⟩ := ih (fun c hc ↦ by simp at hc) hφ
        exact absurd rfl hne
      | cons c cs =>
        refine ⟨(ih (fun d hd ↦ hhead d ?_) hφ).1, List.cons_ne_nil _ _⟩
        exact hd
  | noItems => cases hφ
  | lastItem => cases hφ
  | nextItem => cases hφ
  | member => cases hφ
  | noMembers => cases hφ
  | lastMember => cases hφ
  | nextMember => cases hφ

/-! ## The compact writer -/

section Write

variable (writeString : String → List Char) (writeNumber : ν → List Char)

mutual

/-- The text of a value, without whitespace. -/
def write : Json ν → List Char
  | .null => ['n', 'u', 'l', 'l']
  | .bool true => ['t', 'r', 'u', 'e']
  | .bool false => ['f', 'a', 'l', 's', 'e']
  | .number n => writeNumber n
  | .string s => writeString s
  | .array xs => '[' :: (writeItems xs ++ [']'])
  | .object ms => '{' :: (writeMembers ms ++ ['}'])

def writeItems : List (Json ν) → List Char
  | [] => []
  | [x] => write x
  | x :: xs => write x ++ ',' :: writeItems xs

def writeMembers : List (String × Json ν) → List Char
  | [] => []
  | [m] => writeString m.1 ++ ':' :: write m.2
  | m :: ms => writeString m.1 ++ ':' :: (write m.2 ++ ',' :: writeMembers ms)

end

variable {writeString writeNumber}

/-- Strings are written as string literals. -/
def WritesStrings (writeString : String → List Char) : Prop :=
  ∀ s, ∃ b, StringBody b ∧ writeString s = '"' :: (b ++ ['"'])

/-- Numbers are written as words. -/
def WritesNumbers (writeNumber : ν → List Char) : Prop :=
  ∀ n, Plain (writeNumber n) ∧ writeNumber n ≠ []

variable (hs : WritesStrings writeString) (hn : WritesNumbers writeNumber)
include hs hn

-- the mutual block uses the two hypotheses through its members
set_option linter.unusedSectionVars false

mutual

/-- The text of a value spells it, and nests exactly as deep. -/
theorem spells_write : ∀ {v : Json ν}, v.WellFormed →
    Spells (.value v) (write writeString writeNumber v) v.depth
  | .null, _ => .atom trivial (by simp [Plain, write, isStructural]) (by simp [write])
  | .bool true, _ => .atom trivial (by simp [Plain, write, isStructural]) (by simp [write])
  | .bool false, _ => .atom trivial (by simp [Plain, write, isStructural]) (by simp [write])
  | .number n, _ => by
    rw [write]
    exact .atom trivial (hn n).1 (hn n).2
  | .string s, _ => by
    obtain ⟨b, hb, heq⟩ := hs s
    rw [write, heq]
    exact .string s hb
  | .array xs, h => by
    rw [write, depth]
    exact .array (spells_writeItems (by rwa [WellFormed] at h))
  | .object ms, h => by
    rw [WellFormed] at h
    rw [write, depth]
    have hspells := Spells.object (spells_writeMembers h.2)
    rwa [SortedMap.collect_of_sorted h.1] at hspells

theorem spells_writeItems : ∀ {xs : List (Json ν)}, WellFormedItems xs →
    Spells (.items xs) (writeItems writeString writeNumber xs) (depthItems xs)
  | [], _ => by
    rw [writeItems]
    exact .noItems (by simp)
  | [x], h => by
    rw [WellFormedItems] at h
    rw [writeItems, depthItems, depthItems, Nat.max_zero]
    exact .lastItem (spells_write h.1)
  | x :: y :: xs, h => by
    rw [WellFormedItems] at h
    rw [writeItems, depthItems]
    · exact .nextItem (spells_write h.1) (spells_writeItems h.2)
    · exact fun h ↦ nomatch h

theorem spells_writeMember {m : String × Json ν} (h : m.2.WellFormed) :
    Spells (.member m) (writeString m.1 ++ ':' :: write writeString writeNumber m.2)
      m.2.depth := by
  obtain ⟨b, hb, heq⟩ := hs m.1
  have hspells : Spells (.member m)
      ([] ++ '"' :: (b ++ '"' :: ([] ++ ':' :: write writeString writeNumber m.2))) m.2.depth :=
    .member m.1 (by simp) hb (by simp) (spells_write h)
  rw [heq]
  simpa using hspells

theorem spells_writeMembers : ∀ {ms : List (String × Json ν)}, WellFormedMembers ms →
    Spells (.members ms) (writeMembers writeString writeNumber ms) (depthMembers ms)
  | [], _ => by
    rw [writeMembers]
    exact .noMembers (by simp)
  | [m], h => by
    rw [WellFormedMembers] at h
    rw [writeMembers, depthMembers, depthMembers, Nat.max_zero]
    exact .lastMember (spells_writeMember h.1)
  | m :: m' :: ms, h => by
    rw [WellFormedMembers] at h
    rw [writeMembers, depthMembers]
    · have hspells := Spells.nextMember (spells_writeMember h.1) (spells_writeMembers h.2)
      rwa [List.append_assoc, List.cons_append] at hspells
    · exact fun h ↦ nomatch h

end

end Write

end Json

end Khive
