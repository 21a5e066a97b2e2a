import Mathlib

/-!
# Walks along a partial function

A partial function sends an element to its successor, if it has one, and so traces one walk from
every element. What may be asked of a walk is what it comes by, and which of the elements with some
property it comes by first: all the others with the property are behind that one.

A loop that follows a walk on a cyclic function has to remember what it has seen, and to stop when
it comes upon something seen. It loses nothing then. What it has seen is closed under the function,
and by `WalksTo.mem_of_closed` a closed set that holds the start holds the whole walk.
-/

namespace Khive

variable {α : Type}

/-! ## Walks -/

/-- The element after `n` steps. -/
def walk (f : α → Option α) : Nat → α → Option α
  | 0, a => some a
  | n + 1, a => (walk f n a).bind f

/-- The walk from `a` comes by `b`. -/
def WalksTo (f : α → Option α) (a b : α) : Prop := ∃ n, walk f n a = some b

section Walk

variable {f : α → Option α}

theorem walk_succ_of_eq {n : Nat} {a b : α} (h : walk f n a = some b) :
    walk f (n + 1) a = f b := by
  rw [walk, h]
  rfl

theorem walk_add {m n : Nat} {a b : α} (h : walk f m a = some b) :
    walk f (m + n) a = walk f n b := by
  induction n with
  | zero => exact h
  | succ n ih => rw [← Nat.add_assoc, walk, walk, ih]

namespace WalksTo

theorem refl (a : α) : WalksTo f a a := ⟨0, rfl⟩

theorem step {a b c : α} (h : WalksTo f a b) (hc : f b = some c) : WalksTo f a c := by
  obtain ⟨n, hn⟩ := h
  exact ⟨n + 1, (walk_succ_of_eq hn).trans hc⟩

/-- A set closed under the function holds all of a walk that starts in it. -/
theorem mem_of_closed {S : α → Prop} (hclosed : ∀ b c, S b → f b = some c → S c) {a b : α}
    (h : WalksTo f a b) (ha : S a) : S b := by
  obtain ⟨n, hn⟩ := h
  induction n generalizing b with
  | zero => exact Option.some.inj hn ▸ ha
  | succ n ih =>
    obtain ⟨c, hc, hb⟩ := Option.bind_eq_some_iff.mp hn
    exact hclosed c b (ih hc) hb

end WalksTo

/-- No element comes back to itself. -/
def Acyclic (f : α → Option α) : Prop := ∀ n a, walk f (n + 1) a ≠ some a

theorem Acyclic.antisymm (hf : Acyclic f) {a b : α} (hab : WalksTo f a b) (hba : WalksTo f b a) :
    a = b := by
  obtain ⟨m, hm⟩ := hab
  obtain ⟨n, hn⟩ := hba
  have hloop : walk f (m + n) a = some a := (walk_add hm).trans hn
  cases m with
  | zero => exact Option.some.inj hm
  | succ m =>
    rw [Nat.add_right_comm] at hloop
    exact absurd hloop (hf (m + n) a)

/-- A rank that falls at every step rules cycles out. -/
theorem Acyclic.of_rank (rank : α → Nat) (h : ∀ a b, f a = some b → rank b < rank a) :
    Acyclic f := by
  have hfall : ∀ n a b, walk f (n + 1) a = some b → rank b < rank a := by
    intro n a
    induction n with
    | zero => exact h a
    | succ n ih =>
      intro b hb
      obtain ⟨c, hc, hcb⟩ := Option.bind_eq_some_iff.mp hb
      exact (h c b hcb).trans (ih c hc)
  exact fun n a heq ↦ lt_irrefl _ (hfall n a a heq)

end Walk

/-! ## First hits -/

/-- The first element of the walk from `a` with the property. -/
def FirstHit (f : α → Option α) (P : α → Prop) (a b : α) : Prop :=
  ∃ n, walk f n a = some b ∧ P b ∧ ∀ m < n, ∀ c, walk f m a = some c → ¬P c

namespace FirstHit

variable {f : α → Option α} {P : α → Prop} {a b : α}

theorem walksTo (h : FirstHit f P a b) : WalksTo f a b := by
  obtain ⟨n, hn, -⟩ := h
  exact ⟨n, hn⟩

theorem prop (h : FirstHit f P a b) : P b := by
  obtain ⟨n, -, hb, -⟩ := h
  exact hb

/-- Every other element of the walk with the property comes after the first. -/
theorem walksTo_of_prop (h : FirstHit f P a b) {c : α} (hc : WalksTo f a c) (hP : P c) :
    WalksTo f b c := by
  obtain ⟨n, hn, -, hfirst⟩ := h
  obtain ⟨m, hm⟩ := hc
  have hle : n ≤ m := by
    by_contra hlt
    exact hfirst m (not_le.mp hlt) c hm hP
  refine ⟨m - n, ?_⟩
  rw [← walk_add hn, Nat.add_sub_cancel' hle]
  exact hm

theorem unique (h : FirstHit f P a b) {c : α} (hc : FirstHit f P a c) : b = c := by
  obtain ⟨n, hn, hb, hfirst⟩ := h
  obtain ⟨m, hm, hc, hfirst'⟩ := hc
  rcases lt_trichotomy n m with hlt | rfl | hlt
  · exact absurd hb (hfirst' n hlt b hn)
  · exact Option.some.inj (hn.symm.trans hm)
  · exact absurd hc (hfirst m hlt c hm)

end FirstHit

end Khive
