import Mathlib

/-!
# Attempts that may fail

An attempt runs on a state and either answers or fails. The state it leaves is there in both cases:
what was written before a failure stays written. `Ends` is what an attempt has to bring about from a
given state, with one condition for an answer and one for a failure, and the rules below take it
apart along the constructs an attempt is written with.
-/

namespace Khive

variable {σ ε α β : Type}

/-- A computation on a state that may fail, with the state it leaves. -/
def Attempt (σ ε α : Type) := σ → Except ε α × σ

namespace Attempt

instance : Monad (Attempt σ ε) where
  pure a := fun s ↦ (.ok a, s)
  bind x f := fun s ↦
    match x s with
    | (.ok a, s') => f a s'
    | (.error e, s') => (.error e, s')

/-- Fail, with nothing written. -/
def fail (e : ε) : Attempt σ ε α := fun s ↦ (.error e, s)

/-- Read something off the state. -/
def read (f : σ → α) : Attempt σ ε α := fun s ↦ (.ok (f s), s)

/-- Write the state. -/
def write (f : σ → σ) : Attempt σ ε Unit := fun s ↦ (.ok (), f s)

/-- A check that does not look at the state. -/
def check (x : Except ε α) : Attempt σ ε α := fun s ↦ (x, s)

/-- Run it and go on with its result, a failure included. -/
def caught (x : Attempt σ ε α) : Attempt σ ε (Except ε α) := fun s ↦ (.ok (x s).1, (x s).2)

/-- The attempt run from `s` leaves a state that meets `Q`, or `E` where it fails. -/
def Ends (x : Attempt σ ε α) (s : σ) (Q : α → σ → Prop) (E : ε → σ → Prop) : Prop :=
  match x s with
  | (.ok a, s') => Q a s'
  | (.error e, s') => E e s'

variable {Q Q' : α → σ → Prop} {E E' : ε → σ → Prop} {s : σ}

@[simp] theorem ends_pure {a : α} : Ends (pure a : Attempt σ ε α) s Q E ↔ Q a s := Iff.rfl

@[simp] theorem ends_bind {x : Attempt σ ε β} {f : β → Attempt σ ε α} :
    Ends (x >>= f) s Q E ↔ Ends x s (fun b s' ↦ Ends (f b) s' Q E) E := by
  simp only [Ends, bind]
  rcases x s with ⟨_ | _, s'⟩ <;> rfl

@[simp] theorem ends_fail {e : ε} : Ends (fail e : Attempt σ ε α) s Q E ↔ E e s := Iff.rfl

@[simp] theorem ends_read {f : σ → α} : Ends (read f : Attempt σ ε α) s Q E ↔ Q (f s) s := Iff.rfl

@[simp] theorem ends_write {f : σ → σ} {Q : Unit → σ → Prop} :
    Ends (write f : Attempt σ ε Unit) s Q E ↔ Q () (f s) := Iff.rfl

theorem ends_check {x : Except ε α} :
    Ends (check x) s Q E ↔ (∀ a, x = .ok a → Q a s) ∧ ∀ e, x = .error e → E e s := by
  cases x <;> simp [Ends, check]

@[simp] theorem ends_caught {x : Attempt σ ε α} {Q : Except ε α → σ → Prop} :
    Ends (caught x) s Q E ↔ Ends x s (fun a ↦ Q (.ok a)) (fun e ↦ Q (.error e)) := by
  simp only [Ends, caught]
  rcases x s with ⟨_ | _, s'⟩ <;> rfl

theorem ends_ite {c : Prop} [Decidable c] {x y : Attempt σ ε α} :
    Ends (if c then x else y) s Q E ↔ (c → Ends x s Q E) ∧ (¬c → Ends y s Q E) := by
  by_cases hc : c <;> simp [hc]

/-- **Consequence.** -/
theorem Ends.mono {x : Attempt σ ε α} (h : Ends x s Q E) (hQ : ∀ a s', Q a s' → Q' a s')
    (hE : ∀ e s', E e s' → E' e s') : Ends x s Q' E' := by
  unfold Ends at h ⊢
  rcases hx : x s with ⟨_ | _, s'⟩
  · rw [hx] at h
    exact hE _ _ h
  · rw [hx] at h
    exact hQ _ _ h

/-- A condition on the pair of result and state, read off an attempt. -/
theorem Ends.result {x : Attempt σ ε α} {R : Except ε α × σ → Prop}
    (h : Ends x s (fun a s' ↦ R (.ok a, s')) (fun e s' ↦ R (.error e, s'))) : R (x s) := by
  unfold Ends at h
  rcases hx : x s with ⟨_ | _, s'⟩ <;> simpa [hx] using h

end Attempt

end Khive
