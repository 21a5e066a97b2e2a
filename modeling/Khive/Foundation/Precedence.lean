import Mathlib

/-!
# Two infix connectives

A text over two infix connectives, of which one binds tighter, with brackets around any part. The
grammar says how such a text is read: a chain of atoms joined by the tight connective, chains
joined by the loose one, and a bracketed text as an atom. The atoms are valued one by one, from
left to right, so that two that look alike may have different values.

When both connectives are associative and have units, a reader that never looks back finds the
value: it keeps what it has read of the loose level and of the tight level, and sets both aside at
an opening bracket. So a text has one value at most (`Reads.unique`).
-/

namespace Khive

namespace Precedence

/-- The two connectives on the values, with their units. -/
structure Connectives (V : Type) where
  tight : V → V → V
  loose : V → V → V
  all : V
  none : V
  tight_assoc : ∀ u v w, tight (tight u v) w = tight u (tight v w)
  loose_assoc : ∀ u v w, loose (loose u v) w = loose u (loose v w)
  all_tight : ∀ v, tight all v = v
  none_loose : ∀ v, loose none v = v

inductive Token (α : Type) where
  | leaf (a : α)
  | tight
  | loose
  | opening
  | closing
  deriving DecidableEq

inductive Level where
  | atom
  | chain
  | whole

variable {α V : Type}

/-- The text is read at this level; its leaves have these values, and it has this one. -/
inductive Reads (c : Connectives V) : Level → List (Token α) → List V → V → Prop
  | leaf (a : α) (v : V) : Reads c .atom [.leaf a] [v] v
  | group {ts : List (Token α)} {vs : List V} {v : V} (h : Reads c .whole ts vs v) :
      Reads c .atom (.opening :: (ts ++ [.closing])) vs v
  | atom {ts : List (Token α)} {vs : List V} {v : V} (h : Reads c .atom ts vs v) :
      Reads c .chain ts vs v
  | tight {ts us : List (Token α)} {vs ws : List V} {v w : V} (h : Reads c .chain ts vs v)
      (h' : Reads c .atom us ws w) : Reads c .chain (ts ++ .tight :: us) (vs ++ ws) (c.tight v w)
  | chain {ts : List (Token α)} {vs : List V} {v : V} (h : Reads c .chain ts vs v) :
      Reads c .whole ts vs v
  | loose {ts us : List (Token α)} {vs ws : List V} {v w : V} (h : Reads c .whole ts vs v)
      (h' : Reads c .chain us ws w) : Reads c .whole (ts ++ .loose :: us) (vs ++ ws) (c.loose v w)

/-- What a reader has of the level it is at: the chains before, and the chain it is in. -/
structure Frame (V : Type) where
  before : V
  current : V

namespace Frame

variable (c : Connectives V)

def start : Frame V := ⟨c.none, c.all⟩

/-- One more atom. -/
def meet (f : Frame V) (v : V) : Frame V := ⟨f.before, c.tight f.current v⟩

def total (f : Frame V) : V := c.loose f.before f.current

/-- The chain is done. -/
def next (f : Frame V) : Frame V := ⟨f.total c, c.all⟩

end Frame

/-- Read a text with the values of its leaves; the frames set aside wait for their brackets. -/
def read (c : Connectives V) : List (Token α) → List V → Frame V → List (Frame V) → V
  | .leaf _ :: ts, v :: vs, f, fs => read c ts vs (f.meet c v) fs
  | .tight :: ts, vs, f, fs => read c ts vs f fs
  | .loose :: ts, vs, f, fs => read c ts vs (f.next c) fs
  | .opening :: ts, vs, f, fs => read c ts vs (.start c) (f :: fs)
  | .closing :: ts, vs, f, g :: fs => read c ts vs (g.meet c (f.total c)) fs
  | _, _, f, _ => f.total c

namespace Reads

variable {c : Connectives V}

/-- What reading a text at a level does to the frame it is in. -/
def After (c : Connectives V) (f g : Frame V) (v : V) : Level → Prop
  | .atom | .chain => g = f.meet c v
  | .whole => f.current = c.all → g.total c = c.loose f.before v

theorem total_meet {f : Frame V} (hf : f.current = c.all) (v : V) :
    (f.meet c v).total c = c.loose f.before v := by
  rw [Frame.total, Frame.meet, hf, c.all_tight]

/-- **Reading on**: the reader passes over a text of the grammar, and its frame has the value. -/
theorem exists_after {level : Level} {ts : List (Token α)} {vs : List V} {v : V}
    (h : Reads c level ts vs v) (us : List (Token α)) (ws : List V) (f : Frame V)
    (fs : List (Frame V)) :
    ∃ g, read c (ts ++ us) (vs ++ ws) f fs = read c us ws g fs ∧ After c f g v level := by
  induction h generalizing us ws f fs with
  | leaf a v => exact ⟨f.meet c v, rfl, rfl⟩
  | @group ts vs v _ ih =>
    obtain ⟨g, hread, hafter⟩ := ih (.closing :: us) ws (.start c) (f :: fs)
    refine ⟨f.meet c v, ?_, rfl⟩
    have htotal : g.total c = v := (hafter rfl).trans (c.none_loose v)
    rw [List.cons_append, List.append_assoc, List.singleton_append, read, hread, read, htotal]
  | atom _ ih => exact ih us ws f fs
  | @tight ts ts' vs vs' v w _ _ ih ih' =>
    obtain ⟨g, hread, rfl⟩ := ih (.tight :: ts' ++ us) (vs' ++ ws) f fs
    obtain ⟨g, hread', rfl⟩ := ih' us ws (f.meet c v) fs
    refine ⟨(f.meet c v).meet c w, ?_, ?_⟩
    · rw [List.append_assoc, List.append_assoc, hread, List.cons_append, read, hread']
    · simp only [After, Frame.meet, c.tight_assoc]
  | chain _ ih =>
    obtain ⟨g, hread, rfl⟩ := ih us ws f fs
    exact ⟨_, hread, fun hf ↦ total_meet hf _⟩
  | @loose ts ts' vs vs' v w _ _ ih ih' =>
    obtain ⟨g, hread, hafter⟩ := ih (.loose :: ts' ++ us) (vs' ++ ws) f fs
    obtain ⟨g', hread', rfl⟩ := ih' us ws (g.next c) fs
    refine ⟨(g.next c).meet c w, ?_, fun hf ↦ ?_⟩
    · rw [List.append_assoc, List.append_assoc, hread, List.cons_append, read, hread']
    · rw [total_meet rfl, Frame.next, hafter hf, c.loose_assoc]

/-- **One value at most.** -/
theorem unique {ts : List (Token α)} {vs : List V} {v w : V} (h : Reads c .whole ts vs v)
    (h' : Reads c .whole ts vs w) : v = w := by
  have hread : ∀ {u}, Reads c .whole ts vs u → read c ts vs (.start c) [] = u := by
    intro u hu
    obtain ⟨g, hread, hafter⟩ := hu.exists_after [] [] (.start c) []
    rw [List.append_nil, List.append_nil] at hread
    rw [hread, ← c.none_loose u]
    exact hafter rfl
  exact (hread h).symm.trans (hread h')

/-- Chains join to a chain: how they associate makes no difference. -/
theorem tight_chain {ts us : List (Token α)} {vs ws : List V} {v w : V}
    (h : Reads c .chain ts vs v) (h' : Reads c .chain us ws w) :
    Reads c .chain (ts ++ .tight :: us) (vs ++ ws) (c.tight v w) := by
  generalize hlevel : Level.chain = level at h'
  induction h' with
  | leaf | group | chain | loose => cases hlevel
  | atom h' => exact h.tight h'
  | tight _ h' ih =>
    have hjoined := (ih hlevel).tight h'
    rw [c.tight_assoc, List.append_assoc, List.append_assoc, List.cons_append] at hjoined
    exact hjoined

end Reads

end Precedence

end Khive
