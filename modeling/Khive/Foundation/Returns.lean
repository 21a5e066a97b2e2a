import Mathlib

/-!
# Computations that may panic

A computation in `Option` that gives nothing has panicked: it read past the end of an array, or its
loop was cut off. `Returns x Q` says that `x` does neither and that what it gives satisfies `Q`. The
rules follow the way a computation is put together: sequencing, reading an array, mapping and
folding over a list, and a loop with an invariant and a measure.
-/

namespace Khive

variable {α β σ ρ : Type}

/-- The computation gives a result, and the result satisfies `Q`. -/
def Returns (x : Option α) (Q : α → Prop) : Prop := ∃ a, x = some a ∧ Q a

theorem returns_some {a : α} {Q : α → Prop} : Returns (some a) Q ↔ Q a := by
  constructor
  · rintro ⟨b, hb, hQ⟩
    rwa [Option.some.inj hb]
  · intro hQ
    exact ⟨a, rfl, hQ⟩

theorem returns_pure {a : α} {Q : α → Prop} : Returns (pure a) Q ↔ Q a := returns_some

theorem returns_bind {x : Option α} {f : α → Option β} {Q : β → Prop} :
    Returns (x >>= f) Q ↔ Returns x fun a ↦ Returns (f a) Q := by
  constructor
  · rintro ⟨b, hb, hQ⟩
    obtain ⟨a, ha, hf⟩ := Option.bind_eq_some_iff.mp hb
    exact ⟨a, ha, b, hf, hQ⟩
  · rintro ⟨a, rfl, b, hf, hQ⟩
    exact ⟨b, hf, hQ⟩

theorem returns_map {x : Option α} {f : α → β} {Q : β → Prop} :
    Returns (x.map f) Q ↔ Returns x fun a ↦ Q (f a) := by
  constructor
  · rintro ⟨b, hb, hQ⟩
    obtain ⟨a, ha, rfl⟩ := Option.map_eq_some_iff.mp hb
    exact ⟨a, ha, hQ⟩
  · rintro ⟨a, rfl, hQ⟩
    exact ⟨f a, rfl, hQ⟩

namespace Returns

variable {x : Option α} {P Q : α → Prop}

theorem mono (h : Returns x P) (hPQ : ∀ a, P a → Q a) : Returns x Q := by
  obtain ⟨a, ha, hP⟩ := h
  exact ⟨a, ha, hPQ a hP⟩

/-- What is known of the result of a computation that returns. -/
theorem of_eq (h : Returns x Q) {a : α} (ha : x = some a) : Q a := by
  obtain ⟨b, hb, hQ⟩ := h
  rwa [Option.some.inj (ha.symm.trans hb)]

theorem bind {f : α → Option β} {R : β → Prop} (h : Returns x P)
    (hf : ∀ a, P a → Returns (f a) R) : Returns (x >>= f) R :=
  returns_bind.mpr (h.mono hf)

theorem of_guard {p : Prop} [Decidable p] (h : p) :
    Returns (guard p : Option Unit) fun _ ↦ True := by
  rw [guard, if_pos h]
  exact returns_pure.mpr trivial

/-- Reading an array within its bounds. -/
theorem getElem? {l : List α} {i : ℕ} (hi : i < l.length) : Returns l[i]? fun a ↦ l[i]? = some a :=
  ⟨l[i], List.getElem?_eq_getElem hi, List.getElem?_eq_getElem hi⟩

theorem mapM {f : α → Option β} {R : α → β → Prop} {l : List α}
    (h : ∀ a ∈ l, Returns (f a) (R a)) : Returns (l.mapM f) (List.Forall₂ R l) := by
  induction l with
  | nil => exact returns_pure.mpr .nil
  | cons a l ih =>
    rw [List.mapM_cons]
    refine (h a List.mem_cons_self).bind fun b hb ↦ ?_
    refine (ih fun c hc ↦ h c (List.mem_cons_of_mem _ hc)).bind fun bs hbs ↦ ?_
    exact returns_pure.mpr (.cons hb hbs)

/-- A map whose results tell what they were computed from. -/
theorem mapM_key {f : α → Option β} (key : β → α) {l : List α}
    (h : ∀ a ∈ l, Returns (f a) fun b ↦ key b = a) :
    Returns (l.mapM f) fun bs ↦ bs.map key = l := by
  refine (mapM h).mono fun bs hbs ↦ ?_
  induction hbs with
  | nil => rfl
  | cons hb _ ih =>
    rw [List.map_cons, hb, ih fun a ha ↦ h a (List.mem_cons_of_mem _ ha)]

/-- A fold, with what every step preserves. -/
theorem foldlM {f : σ → α → Option σ} {Inv : σ → Prop} {l : List α}
    (h : ∀ s, ∀ a ∈ l, Inv s → Returns (f s a) Inv) {s : σ} (hs : Inv s) :
    Returns (l.foldlM f s) Inv := by
  induction l generalizing s with
  | nil => exact returns_pure.mpr hs
  | cons a l ih =>
    rw [List.foldlM_cons]
    refine (h s a List.mem_cons_self hs).bind fun s' hs' ↦ ?_
    exact ih (fun t b hb ↦ h t b (List.mem_cons_of_mem _ hb)) hs'

theorem allM {f : α → Option Bool} {l : List α} (h : ∀ a ∈ l, Returns (f a) fun _ ↦ True) :
    Returns (l.allM f) fun _ ↦ True := by
  induction l with
  | nil => exact returns_pure.mpr trivial
  | cons a l ih =>
    rw [List.allM]
    refine (h a List.mem_cons_self).bind fun b _ ↦ ?_
    cases b with
    | false => exact returns_pure.mpr trivial
    | true => exact ih fun c hc ↦ h c (List.mem_cons_of_mem _ hc)

end Returns

/-! ## Reading at each element -/

section Reading

variable {f : α → Option β} {l : List α}

theorem mapM_eq_map {g : α → β} (h : ∀ a ∈ l, f a = some (g a)) : l.mapM f = some (l.map g) := by
  induction l with
  | nil => rfl
  | cons a l ih =>
    rw [List.mapM_cons, h a List.mem_cons_self, ih fun b hb ↦ h b (List.mem_cons_of_mem _ hb)]
    rfl

theorem mapM_eq_filterMap (h : ∀ a ∈ l, ∃ b, f a = some b) : l.mapM f = some (l.filterMap f) := by
  induction l with
  | nil => rfl
  | cons a l ih =>
    obtain ⟨b, hb⟩ := h a List.mem_cons_self
    rw [List.mapM_cons, ih fun c hc ↦ h c (List.mem_cons_of_mem _ hc),
      List.filterMap_cons_some hb, hb]
    rfl

/-- Where each element gives something, what it gives stands in its place. -/
theorem getElem?_filterMap_of_forall (h : ∀ a ∈ l, ∃ b, f a = some b) (i : ℕ) :
    (l.filterMap f)[i]? = l[i]?.bind f := by
  induction l generalizing i with
  | nil => rfl
  | cons a l ih =>
    obtain ⟨b, hb⟩ := h a List.mem_cons_self
    rw [List.filterMap_cons_some hb]
    cases i with
    | zero => exact hb.symm
    | succ i => exact ih (fun c hc ↦ h c (List.mem_cons_of_mem _ hc)) i

end Reading

/-! ## Loops -/

/-- What a pass through the body of a loop comes to. -/
inductive Pass (σ ρ : Type) where
  | again (s : σ)
  | leave (r : ρ)

/-- A loop that is cut off after so many passes. -/
def loop (body : σ → Option (Pass σ ρ)) : ℕ → σ → Option ρ
  | 0, _ => none
  | fuel + 1, s => do
    match ← body s with
    | .again s => loop body fuel s
    | .leave r => pure r

/-- What a pass has to come to. -/
def Pass.Satisfies (Inv : σ → Prop) (measure : σ → ℕ) (Q : ρ → Prop) (bound : ℕ) :
    Pass σ ρ → Prop
  | .again s => Inv s ∧ measure s < bound
  | .leave r => Q r

/-- **The rule for loops**: a pass keeps the invariant and brings the measure down, or it leaves. -/
theorem returns_loop {body : σ → Option (Pass σ ρ)} {Inv : σ → Prop} {measure : σ → ℕ}
    {Q : ρ → Prop} (h : ∀ s, Inv s → Returns (body s) (Pass.Satisfies Inv measure Q (measure s)))
    {fuel : ℕ} {s : σ} (hs : Inv s) (hfuel : measure s < fuel) : Returns (loop body fuel s) Q := by
  induction fuel generalizing s with
  | zero => exact absurd hfuel (Nat.not_lt_zero _)
  | succ fuel ih =>
    rw [loop]
    refine (h s hs).bind fun pass hpass ↦ ?_
    cases pass with
    | again s' =>
      obtain ⟨hs', hless⟩ := hpass
      exact ih hs' (Nat.lt_of_lt_of_le hless (Nat.lt_succ_iff.mp hfuel))
    | leave r => exact returns_pure.mpr hpass

/-- More passes than were needed change nothing. -/
theorem loop_mono {body : σ → Option (Pass σ ρ)} {fuel fuel' : ℕ} {s : σ} {r : ρ}
    (h : loop body fuel s = some r) (hle : fuel ≤ fuel') : loop body fuel' s = some r := by
  induction fuel generalizing s fuel' with
  | zero => cases h
  | succ fuel ih =>
    obtain ⟨fuel', rfl⟩ := Nat.exists_eq_add_of_le' (Nat.le_trans (Nat.succ_pos fuel) hle)
    rw [loop] at h ⊢
    obtain ⟨pass, hpass, h⟩ := Option.bind_eq_some_iff.mp h
    refine Option.bind_eq_some_iff.mpr ⟨pass, hpass, ?_⟩
    cases pass with
    | again s' => exact ih h (Nat.le_of_succ_le_succ hle)
    | leave r' => exact h

/-- What a loop comes to, it also comes to from every state of its run. -/
theorem loop_of_reaches {body : σ → Option (Pass σ ρ)} {fuel : ℕ} {s s' : σ} {r : ρ}
    (hreach : Relation.ReflTransGen (fun s s' ↦ body s = some (.again s')) s s')
    (h : loop body fuel s = some r) : ∃ fuel', loop body fuel' s' = some r := by
  induction hreach with
  | refl => exact ⟨fuel, h⟩
  | tail _ hstep ih =>
    obtain ⟨fuel', hloop⟩ := ih
    rcases fuel' with - | fuel'
    · cases hloop
    · rw [loop, hstep] at hloop
      exact ⟨fuel', hloop⟩

/-- A loop whose passes go through numbered states leaves with what the last one leaves with. -/
theorem loop_of_run {body : σ → Option (Pass σ ρ)} {R : ℕ → σ → Prop} {last : ℕ} {r : ρ}
    (hagain : ∀ n < last, ∀ s, R n s → ∃ s', body s = some (.again s') ∧ R (n + 1) s')
    (hlast : ∀ s, R last s → body s = some (.leave r)) {n : ℕ} {s : σ} (hs : R n s) (hn : n ≤ last)
    {fuel : ℕ} (hfuel : last - n < fuel) : loop body fuel s = some r := by
  induction fuel generalizing n s with
  | zero => exact absurd hfuel (Nat.not_lt_zero _)
  | succ fuel ih =>
    rw [loop]
    rcases hn.lt_or_eq with hlt | rfl
    · obtain ⟨s', hbody, hs'⟩ := hagain n hlt s hs
      rw [hbody]
      exact ih hs' hlt (by omega)
    · rw [hlast s hs]
      rfl

/-- A loop that leaves at once comes to what it leaves with. -/
theorem loop_of_leave {body : σ → Option (Pass σ ρ)} {fuel : ℕ} {s : σ} {r r' : ρ}
    (hleave : body s = some (.leave r')) (h : loop body fuel s = some r) : r = r' := by
  rcases fuel with - | fuel
  · cases h
  · rw [loop, hleave] at h
    exact (Option.some.inj h).symm

section Simulation

variable {τ κ : Type}

/-- Two computations that both fail, or give related results. -/
def Related (Q : α → β → Prop) (x : Option α) (y : Option β) : Prop :=
  (x = none ∧ y = none) ∨ ∃ a b, x = some a ∧ y = some b ∧ Q a b

theorem related_some {Q : α → β → Prop} {a : α} {b : β} (h : Q a b) :
    Related Q (some a) (some b) := .inr ⟨a, b, rfl, rfl, h⟩

theorem related_refl (x : Option α) : Related Eq x x := by
  rcases x with - | a
  · exact .inl ⟨rfl, rfl⟩
  · exact related_some rfl

theorem Related.bind {Q : α → β → Prop} {P : σ → τ → Prop} {x : Option α} {y : Option β}
    {f : α → Option σ} {g : β → Option τ} (h : Related Q x y)
    (hfg : ∀ a b, Q a b → Related P (f a) (g b)) : Related P (x >>= f) (y >>= g) := by
  rcases h with ⟨rfl, rfl⟩ | ⟨a, b, rfl, rfl, hab⟩
  · exact .inl ⟨rfl, rfl⟩
  · exact hfg a b hab

/-- Folds with related steps. -/
theorem Related.foldlM {Q : α → β → Prop} {f : α → σ → Option α} {g : β → σ → Option β}
    (h : ∀ a b x, Q a b → Related Q (f a x) (g b x)) {a : α} {b : β} (hab : Q a b) (l : List σ) :
    Related Q (l.foldlM f a) (l.foldlM g b) := by
  induction l generalizing a b with
  | nil => exact related_some hab
  | cons x l ih =>
    rw [List.foldlM_cons, List.foldlM_cons]
    exact (h a b x hab).bind fun a' b' hab' ↦ ih hab'

/-- Passes that both go on in related states, or both leave with related results. -/
def Pass.Related (R : σ → τ → Prop) (Q : ρ → κ → Prop) : Pass σ ρ → Pass τ κ → Prop
  | .again s, .again t => R s t
  | .leave r, .leave k => Q r k
  | _, _ => False

/-- Loops with related passes come to related results. -/
theorem related_loop {body : σ → Option (Pass σ ρ)} {body' : τ → Option (Pass τ κ)}
    {R : σ → τ → Prop} {Q : ρ → κ → Prop}
    (h : ∀ s t, R s t → Related (Pass.Related R Q) (body s) (body' t)) {s : σ} {t : τ}
    (hst : R s t) (fuel : ℕ) : Related Q (loop body fuel s) (loop body' fuel t) := by
  induction fuel generalizing s t with
  | zero => exact .inl ⟨rfl, rfl⟩
  | succ fuel ih =>
    rw [loop, loop]
    refine (h s t hst).bind fun p q hpq ↦ ?_
    match p, q, hpq with
    | .again s', .again t', hpq => exact ih hpq
    | .leave r, .leave k, hpq => exact related_some hpq

end Simulation

/-- A loop comes to one result. -/
theorem loop_unique {body : σ → Option (Pass σ ρ)} {fuel fuel' : ℕ} {s : σ} {r r' : ρ}
    (h : loop body fuel s = some r) (h' : loop body fuel' s = some r') : r = r' :=
  Option.some.inj ((loop_mono h (Nat.le_max_left fuel fuel')).symm.trans
    (loop_mono h' (Nat.le_max_right fuel fuel')))

end Khive
