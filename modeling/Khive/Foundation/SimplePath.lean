import Mathlib

/-!
# Simple paths from a bag of edges

Edges given in any order may form one path that passes every point once. Then its order is forced:
the start is the one source that is no target, and at every point one edge goes on. So a greedy walk
from there, which takes the first unused edge that fits, gives back the path.
-/

namespace Khive

variable {ε α : Type*} (src tgt : ε → α)

/-- The points of a path, its start first. -/
def pathPoints : List ε → List α
  | [] => []
  | e :: path => src e :: (e :: path).map tgt

/-- All edges in one order, each starting where the one before ends, and no point passed twice. -/
structure IsSimplePath (edges path : List ε) : Prop where
  perm : path.Perm edges
  joined : path.IsChain fun a b ↦ tgt a = src b
  simple : (pathPoints src tgt path).Nodup

section Points

variable {src tgt} {edges path : List ε} {e : ε}

/-- The points of a path are its sources and its last target. -/
theorem pathPoints_eq (hjoined : (e :: path).IsChain fun a b ↦ tgt a = src b) :
    ∃ last, pathPoints src tgt (e :: path) = (e :: path).map src ++ [last] := by
  induction path generalizing e with
  | nil => exact ⟨tgt e, rfl⟩
  | cons f path ih =>
    obtain ⟨hstep, hrest⟩ := List.isChain_cons_cons.mp hjoined
    obtain ⟨last, hlast⟩ := ih hrest
    refine ⟨last, ?_⟩
    rw [pathPoints, List.map_cons, hstep]
    exact congrArg (src e :: ·) hlast

theorem IsSimplePath.nodup_sources (h : IsSimplePath src tgt edges path) :
    (path.map src).Nodup := by
  rcases path with - | ⟨e, path⟩
  · exact List.nodup_nil
  · obtain ⟨last, hpoints⟩ := pathPoints_eq h.joined
    have hsimple := h.simple
    rw [hpoints] at hsimple
    exact (List.nodup_append.mp hsimple).1

theorem IsSimplePath.perm_edges {others : List ε} (h : IsSimplePath src tgt edges path)
    (hperm : edges.Perm others) : IsSimplePath src tgt others path :=
  ⟨h.perm.trans hperm, h.joined, h.simple⟩

end Points

section Walk

variable [DecidableEq α] [DecidableEq ε]

/-- Take the first unused edge that starts at the current point and go on behind it. Returns the
edges in the order they were taken, and those left over. -/
def walkFrom : ℕ → α → List ε → List ε × List ε
  | 0, _, unused => ([], unused)
  | steps + 1, current, unused =>
    match unused.find? fun e ↦ src e = current with
    | none => ([], unused)
    | some e =>
      let (ordered, rest) := walkFrom steps (tgt e) (unused.erase e)
      (e :: ordered, rest)

/-- The sources that are no targets, each once. -/
def startCandidates (edges : List ε) : List α :=
  (edges.map src).dedup.filter fun s ↦ s ∉ edges.map tgt

variable {src tgt} {edges path unused : List ε} {current : α} {steps : ℕ} {e : ε}

theorem walkFrom_perm (steps : ℕ) (current : α) (unused : List ε) :
    ((walkFrom src tgt steps current unused).1 ++
      (walkFrom src tgt steps current unused).2).Perm unused := by
  induction steps generalizing current unused with
  | zero => exact List.Perm.refl _
  | succ steps ih =>
    rw [walkFrom]
    rcases hfind : unused.find? (fun e ↦ decide (src e = current)) with - | e
    · exact List.Perm.refl _
    · exact ((ih _ _).cons e).trans (List.perm_cons_erase (List.mem_of_find?_eq_some hfind)).symm

theorem walkFrom_joined (steps : ℕ) (current : α) (unused : List ε) :
    (walkFrom src tgt steps current unused).1.IsChain (fun a b ↦ tgt a = src b) ∧
      ∀ e ∈ (walkFrom src tgt steps current unused).1.head?, src e = current := by
  induction steps generalizing current unused with
  | zero => exact ⟨List.isChain_nil, by simp [walkFrom]⟩
  | succ steps ih =>
    rw [walkFrom]
    rcases hfind : unused.find? (fun e ↦ decide (src e = current)) with - | e
    · exact ⟨List.isChain_nil, by simp⟩
    · obtain ⟨hchain, hhead⟩ := ih (tgt e) (unused.erase e)
      refine ⟨List.isChain_cons.mpr ⟨fun f hf ↦ (hhead f hf).symm, hchain⟩, ?_⟩
      rintro _ ⟨⟩
      simpa using List.find?_some hfind

/-- The walk along a path, whatever the order the edges are given in. -/
theorem walkFrom_eq (steps : ℕ) (current : α) (hperm : path.Perm unused)
    (hjoined : path.IsChain fun a b ↦ tgt a = src b) (hsources : (path.map src).Nodup)
    (hstart : ∀ e ∈ path.head?, src e = current) (hsteps : path.length ≤ steps) :
    walkFrom src tgt steps current unused = (path, []) := by
  induction path generalizing current unused steps with
  | nil =>
    obtain rfl := hperm.nil_eq.symm
    cases steps <;> rfl
  | cons e path ih =>
    obtain ⟨steps, rfl⟩ : ∃ n, steps = n + 1 := ⟨steps - 1, by simp at hsteps; omega⟩
    obtain rfl := hstart e rfl
    obtain ⟨hnot, hnodup⟩ := List.nodup_cons.mp hsources
    -- no other edge starts here
    have honly : ∀ f ∈ unused, src f = src e → f = e := by
      intro f hf heq
      rcases List.mem_cons.mp (hperm.mem_iff.mpr hf) with rfl | hf
      · rfl
      · exact absurd (heq ▸ List.mem_map_of_mem hf) hnot
    have hfind : unused.find? (fun f ↦ decide (src f = src e)) = some e := by
      rcases hfound : unused.find? (fun f ↦ decide (src f = src e)) with - | f
      · have hnone := List.find?_eq_none.mp hfound e (hperm.mem_iff.mp List.mem_cons_self)
        simp at hnone
      · have hsrc := List.find?_some hfound
        rw [honly f (List.mem_of_find?_eq_some hfound) (by simpa using hsrc)]
    have hrest : path.Perm (unused.erase e) := by
      have herase := hperm.erase e
      rwa [List.erase_cons_head] at herase
    rw [walkFrom, hfind]
    simp only
    rw [ih _ _ hrest hjoined.tail hnodup (fun f hf ↦ ?_) (by simpa using hsteps)]
    rcases path with - | ⟨g, path⟩
    · cases hf
    · obtain rfl := Option.some.inj hf
      exact (List.isChain_cons_cons.mp hjoined).1.symm

omit [DecidableEq ε] in
theorem IsSimplePath.startCandidates_eq (h : IsSimplePath src tgt edges (e :: path)) :
    startCandidates src tgt edges = [src e] := by
  have hsimple := h.simple
  rw [pathPoints] at hsimple
  obtain ⟨last, hpoints⟩ := pathPoints_eq h.joined
  have hmem : ∀ s, s ∈ startCandidates src tgt edges ↔ s ∈ [src e] := by
    intro s
    rw [startCandidates, List.mem_filter, List.mem_dedup, decide_eq_true_eq,
      ← (h.perm.map src).mem_iff, ← (h.perm.map tgt).mem_iff, List.mem_singleton]
    constructor
    · rintro ⟨hsource, htarget⟩
      -- a source is a point, and a point that is no target is the start
      have hpoint : s ∈ pathPoints src tgt (e :: path) := by
        rw [hpoints]
        exact List.mem_append_left _ hsource
      exact (List.mem_cons.mp hpoint).resolve_right htarget
    · rintro rfl
      exact ⟨List.mem_cons_self, (List.nodup_cons.mp hsimple).1⟩
  have hnodup : (startCandidates src tgt edges).Nodup := (List.nodup_dedup _).filter _
  have hperm := (List.perm_ext_iff_of_nodup hnodup (List.nodup_singleton (src e))).mpr hmem
  exact List.perm_singleton.mp hperm

/-- Two orders of the same edges to a simple path are the same. -/
theorem IsSimplePath.unique {others path' : List ε} (h : IsSimplePath src tgt edges path)
    (h' : IsSimplePath src tgt others path') (hperm : edges.Perm others) : path = path' := by
  rcases path with - | ⟨e, path⟩
  · exact ((h.perm.trans hperm).trans h'.perm.symm).nil_eq
  · have h₁ := h.startCandidates_eq
    have hothers := h'.perm_edges hperm.symm
    rcases path' with - | ⟨e', path'⟩
    · exact absurd (h.perm.trans hothers.perm.symm).eq_nil (List.cons_ne_nil _ _)
    · have hstart : src e = src e' := by
        simpa using h₁.symm.trans hothers.startCandidates_eq
      have hwalk := walkFrom_eq edges.length (src e) h.perm h.joined h.nodup_sources
        (by simp) h.perm.length_eq.le
      have hwalk' := walkFrom_eq edges.length (src e) hothers.perm hothers.joined
        hothers.nodup_sources (by simp [hstart]) hothers.perm.length_eq.le
      exact (Prod.mk.inj (hwalk.symm.trans hwalk')).1

end Walk

end Khive
