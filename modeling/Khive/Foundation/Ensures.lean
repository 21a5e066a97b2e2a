import Khive.Foundation.Returns

/-!
# What a computation gives

`Ensures x Q` says that whatever `x` gives satisfies `Q`, and leaves open whether it panics. That it
does not is the business of `Returns`, and the two go together.
-/

namespace Khive

variable {α β σ ρ : Type}

/-- The result of the computation satisfies `Q`, if there is one. -/
def Ensures (x : Option α) (Q : α → Prop) : Prop := ∀ a, x = some a → Q a

theorem ensures_some {a : α} {Q : α → Prop} : Ensures (some a) Q ↔ Q a := by
  constructor
  · intro h
    exact h a rfl
  · intro hQ b hb
    exact Option.some.inj hb ▸ hQ

theorem ensures_pure {a : α} {Q : α → Prop} : Ensures (pure a) Q ↔ Q a := ensures_some

theorem ensures_map {x : Option α} {f : α → β} {Q : β → Prop} :
    Ensures (x.map f) Q ↔ Ensures x fun a ↦ Q (f a) := by
  constructor
  · rintro h a rfl
    exact h (f a) rfl
  · intro h b hb
    obtain ⟨a, ha, rfl⟩ := Option.map_eq_some_iff.mp hb
    exact h a ha

/-- A computation that returns does what it ensures. -/
theorem Returns.and_ensures {x : Option α} {P Q : α → Prop} (h : Returns x P) (hQ : Ensures x Q) :
    Returns x fun a ↦ P a ∧ Q a := by
  obtain ⟨a, rfl, hP⟩ := h
  exact ⟨a, rfl, hP, hQ a rfl⟩

namespace Ensures

variable {x : Option α} {P Q : α → Prop}

theorem self (x : Option α) : Ensures x fun a ↦ x = some a := fun _ ha ↦ ha

theorem trivial (x : Option α) : Ensures x fun _ ↦ True := fun _ _ ↦ True.intro

theorem mono (h : Ensures x P) (hPQ : ∀ a, P a → Q a) : Ensures x Q := fun a ha ↦ hPQ a (h a ha)

theorem bind {f : α → Option β} {R : β → Prop} (h : Ensures x P)
    (hf : ∀ a, P a → Ensures (f a) R) : Ensures (x >>= f) R := by
  intro b hb
  obtain ⟨a, ha, hfa⟩ := Option.bind_eq_some_iff.mp hb
  exact hf a (h a ha) b hfa

/-- A map whose results tell what they were computed from. -/
theorem mapM_key {f : α → Option β} (key : β → α) {l : List α}
    (h : ∀ a ∈ l, Ensures (f a) fun b ↦ key b = a) :
    Ensures (l.mapM f) fun bs ↦ bs.map key = l := by
  induction l with
  | nil => exact ensures_pure.mpr rfl
  | cons a l ih =>
    rw [List.mapM_cons]
    refine (h a List.mem_cons_self).bind fun b hb ↦ ?_
    refine (ih fun c hc ↦ h c (List.mem_cons_of_mem _ hc)).bind fun bs hbs ↦ ?_
    refine ensures_pure.mpr ?_
    rw [List.map_cons, hb, hbs]

/-- A fold, with what every step preserves. -/
theorem foldlM {f : σ → α → Option σ} {Inv : σ → Prop} {l : List α}
    (h : ∀ s, ∀ a ∈ l, Inv s → Ensures (f s a) Inv) {s : σ} (hs : Inv s) :
    Ensures (l.foldlM f s) Inv := by
  induction l generalizing s with
  | nil => exact ensures_pure.mpr hs
  | cons a l ih =>
    rw [List.foldlM_cons]
    refine (h s a List.mem_cons_self hs).bind fun s' hs' ↦ ?_
    exact ih (fun t b hb ↦ h t b (List.mem_cons_of_mem _ hb)) hs'

/-- A fold, with what every step makes of the elements that are left. -/
theorem foldlM_rest {f : σ → α → Option σ} {Inv : List α → σ → Prop} {l : List α}
    (h : ∀ s a rest, Inv (a :: rest) s → Ensures (f s a) (Inv rest)) {s : σ} (hs : Inv l s) :
    Ensures (l.foldlM f s) (Inv []) := by
  induction l generalizing s with
  | nil => exact ensures_pure.mpr hs
  | cons a l ih =>
    rw [List.foldlM_cons]
    exact (h s a l hs).bind fun s' hs' ↦ ih hs'

end Ensures

/-- What a pass has to come to. -/
def Pass.Keeps (Inv : σ → Prop) (Q : ρ → Prop) : Pass σ ρ → Prop
  | .again s => Inv s
  | .leave r => Q r

theorem ensures_loop {body : σ → Option (Pass σ ρ)} {Inv : σ → Prop} {Q : ρ → Prop}
    (h : ∀ s, Inv s → Ensures (body s) (Pass.Keeps Inv Q)) {s : σ} (hs : Inv s) (fuel : ℕ) :
    Ensures (loop body fuel s) Q := by
  induction fuel generalizing s with
  | zero => exact fun r hr ↦ nomatch hr
  | succ fuel ih =>
    rw [loop]
    refine (h s hs).bind fun pass hpass ↦ ?_
    rcases pass with s' | r
    · exact ih hpass
    · exact ensures_pure.mpr hpass

end Khive
