import Khive.Foundation.Returns

/-!
# Searching with a worklist

A search takes the first element of its queue, stops if it is the goal, drops it if it has been
visited, and otherwise visits it and queues what it leads to, as far as its budget allows. Where the
queue is paid for out of the budget, the search comes to an end; where an element leads to its
successors in a relation, the answer is whether the goal can be reached; and where what is spent is
what the visited elements cost, a refusal says that elements that can be reached cost too much.
Taking the whole queue at once and visiting its elements in order is the same search.
-/

namespace Khive

open Relation

/-- The elements waiting and the elements visited, and what has been spent. -/
structure Worklist (α σ : Type) where
  queue : List α
  visited : Finset α
  spent : σ

namespace Worklist

variable {α σ ε : Type} [DecidableEq α]

/-- What visiting the `n`-th element comes to: a refusal, or what has been spent and the elements it
leads to. -/
abbrev Expand (α σ ε : Type) := ℕ → σ → α → Option (Except ε (σ × List α))

section Search

variable (expand : Expand α σ ε) (goal : α)

/-- Visit one element. -/
def visit (w : Worklist α σ) (current : α) : Option (Pass (Worklist α σ) (Except ε Bool)) :=
  if current = goal then some (.leave (.ok true))
  else if current ∈ w.visited then some (.again w)
  else (expand (w.visited.card + 1) w.spent current).map fun
    | .error e => .leave (.error e)
    | .ok (spent, targets) => .again ⟨w.queue ++ targets, insert current w.visited, spent⟩

/-- Take the first element of the queue. -/
def next (w : Worklist α σ) : Option (Pass (Worklist α σ) (Except ε Bool)) :=
  match w.queue with
  | [] => some (.leave (.ok false))
  | current :: queue => visit expand goal { w with queue := queue } current

/-- Visit the elements of a list in order. -/
def visitAll : List α → Worklist α σ → Option (Pass (Worklist α σ) (Except ε Bool))
  | [], w => some (.again w)
  | current :: rest, w => (visit expand goal w current).bind fun
    | .leave r => some (.leave r)
    | .again w => visitAll rest w

end Search

variable {expand expand' : Expand α σ ε} {goal start : α} {R : α → α → Prop} {budget : σ → ℕ}
  {w w' : Worklist α σ} {current : α} {r : Except ε Bool}

/-- What an element leads to is paid for and is what it leads to in the relation. -/
def Explores (expand : Expand α σ ε) (R : α → α → Prop) (budget : σ → ℕ) : Prop :=
  ∀ n spent current, Returns (expand n spent current) fun result ↦
    ∀ spent' targets, result = .ok (spent', targets) →
      budget spent' + targets.length ≤ budget spent ∧ ∀ v, v ∈ targets ↔ R current v

/-- What is left to do. -/
def left (budget : σ → ℕ) (w : Worklist α σ) : ℕ := w.queue.length + budget w.spent

/-- What a visit comes to. -/
theorem visit_cases (hexpand : Explores expand R budget) (w : Worklist α σ) (current : α) :
    Returns (visit expand goal w current) fun pass ↦
      current = goal ∧ pass = .leave (.ok true) ∨
      current ≠ goal ∧ current ∈ w.visited ∧ pass = .again w ∨
      current ≠ goal ∧ current ∉ w.visited ∧
        ((∃ e, expand (w.visited.card + 1) w.spent current = some (.error e) ∧
            pass = .leave (.error e)) ∨
          ∃ spent targets, expand (w.visited.card + 1) w.spent current = some (.ok (spent, targets)) ∧
            pass = .again ⟨w.queue ++ targets, insert current w.visited, spent⟩ ∧
            budget spent + targets.length ≤ budget w.spent ∧ ∀ v, v ∈ targets ↔ R current v) := by
  rw [visit]
  split_ifs with hgoal hvisited
  · exact returns_some.mpr (Or.inl ⟨hgoal, rfl⟩)
  · exact returns_some.mpr (Or.inr (Or.inl ⟨hgoal, hvisited, rfl⟩))
  · obtain ⟨result, hexpanded, hresult⟩ := hexpand (w.visited.card + 1) w.spent current
    rw [hexpanded, Option.map_some]
    refine returns_some.mpr (Or.inr (Or.inr ⟨hgoal, hvisited, ?_⟩))
    rcases result with e | ⟨spent, targets⟩
    · exact Or.inl ⟨e, rfl, rfl⟩
    · exact Or.inr ⟨spent, targets, rfl, rfl, hresult spent targets rfl⟩

/-! ## The answer -/

/-- Everything that was met can be reached, the goal has not been visited, and what the visited
elements lead to is visited or waits. -/
structure Searching (R : α → α → Prop) (start goal : α) (w : Worklist α σ) : Prop where
  started : start ∈ w.visited ∨ start ∈ w.queue
  missed : goal ∉ w.visited
  reached : ∀ u ∈ w.queue, ReflTransGen R start u
  visited : ∀ u ∈ w.visited, ReflTransGen R start u
  closed : ∀ u ∈ w.visited, ∀ v, R u v → v ∈ w.visited ∨ v ∈ w.queue

omit [DecidableEq α] in
theorem searching_start (spent : σ) (start goal : α) :
    Searching R start goal ⟨[start], ∅, spent⟩ where
  started := Or.inr List.mem_cons_self
  missed := Finset.notMem_empty _
  reached _ hu := List.mem_singleton.mp hu ▸ ReflTransGen.refl
  visited u hu := absurd hu (Finset.notMem_empty u)
  closed u hu := absurd hu (Finset.notMem_empty u)

namespace Searching

variable {queue targets : List α} {spent : σ}

omit [DecidableEq α] in
theorem not_reached (h : Searching R start goal w) (hqueue : w.queue = []) :
    ¬ReflTransGen R start goal := by
  have hclosed : ∀ {u}, ReflTransGen R start u → u ∈ w.visited := by
    intro u hu
    induction hu with
    | refl => exact h.started.resolve_right (hqueue ▸ List.not_mem_nil)
    | tail _ hstep ih => exact (h.closed _ ih _ hstep).resolve_right (hqueue ▸ List.not_mem_nil)
  exact fun hgoal ↦ h.missed (hclosed hgoal)

omit [DecidableEq α] in
/-- An element that has been visited is dropped. -/
theorem drop (h : Searching R start goal w) (hqueue : w.queue = current :: queue)
    (hvisited : current ∈ w.visited) : Searching R start goal { w with queue := queue } := by
  have hdrop : ∀ {v}, v ∈ w.visited ∨ v ∈ w.queue → v ∈ w.visited ∨ v ∈ queue := by
    rintro v (hv | hv)
    · exact Or.inl hv
    · rw [hqueue] at hv
      rcases List.mem_cons.mp hv with rfl | hv
      · exact Or.inl hvisited
      · exact Or.inr hv
  refine ⟨hdrop h.started, h.missed, fun u hu ↦ h.reached u ?_, h.visited, ?_⟩
  · rw [hqueue]
    exact List.mem_cons_of_mem _ hu
  · exact fun u hu v hv ↦ hdrop (h.closed u hu v hv)

/-- An element is visited, and what it leads to waits. -/
theorem grow (h : Searching R start goal w) (hqueue : w.queue = current :: queue)
    (hgoal : current ≠ goal) (htargets : ∀ v, v ∈ targets ↔ R current v) :
    Searching R start goal ⟨queue ++ targets, insert current w.visited, spent⟩ := by
  have hcurrent : ReflTransGen R start current :=
    h.reached current (hqueue ▸ List.mem_cons_self)
  have hkeep : ∀ {v}, v ∈ w.visited ∨ v ∈ w.queue →
      v ∈ insert current w.visited ∨ v ∈ queue ++ targets := by
    rintro v (hv | hv)
    · exact Or.inl (Finset.mem_insert_of_mem hv)
    · rw [hqueue] at hv
      rcases List.mem_cons.mp hv with rfl | hv
      · exact Or.inl (Finset.mem_insert_self _ _)
      · exact Or.inr (List.mem_append_left _ hv)
  refine ⟨hkeep h.started, ?_, ?_, ?_, ?_⟩
  · rw [Finset.mem_insert, not_or]
    exact ⟨hgoal.symm, h.missed⟩
  · intro u hu
    rcases List.mem_append.mp hu with hu | hu
    · exact h.reached u (hqueue ▸ List.mem_cons_of_mem _ hu)
    · exact hcurrent.tail ((htargets u).mp hu)
  · intro u hu
    rcases Finset.mem_insert.mp hu with rfl | hu
    · exact hcurrent
    · exact h.visited u hu
  · -- what the new element leads to waits, and what the others lead to is kept
    intro u hu v hv
    rcases Finset.mem_insert.mp hu with rfl | hu
    · exact Or.inr (List.mem_append_right _ ((htargets v).mpr hv))
    · exact hkeep (h.closed u hu v hv)

end Searching

/-! ## What is spent -/

/-- What has been spent on the visited elements, and what a refusal says of them and the one that
is visited last. -/
structure Accounts (expand : Expand α σ ε) (Paid : Finset α → σ → Prop)
    (Refused : ε → Finset α → Prop) : Prop where
  pays : ∀ {visited spent current spent' targets}, Paid visited spent → current ∉ visited →
    expand (visited.card + 1) spent current = some (.ok (spent', targets)) →
      Paid (insert current visited) spent'
  refuses : ∀ {visited spent current e}, Paid visited spent → current ∉ visited →
    expand (visited.card + 1) spent current = some (.error e) → Refused e (insert current visited)

/-- An answer is the right one, and a refusal is due to elements that can be reached. -/
def Answers (R : α → α → Prop) (Refused : ε → Finset α → Prop) (start goal : α) :
    Except ε Bool → Prop
  | .ok b => b = true ↔ ReflTransGen R start goal
  | .error e => ∃ visited : Finset α, (∀ u ∈ visited, ReflTransGen R start u) ∧ Refused e visited

variable {Paid : Finset α → σ → Prop} {Refused : ε → Finset α → Prop}

/-- **A step** keeps the search going or gives the answer. -/
theorem returns_next (hexpand : Explores expand R budget) (haccounts : Accounts expand Paid Refused)
    (h : Searching R start goal w) (hpaid : Paid w.visited w.spent) :
    Returns (next expand goal w) (Pass.Satisfies
      (fun w ↦ Searching R start goal w ∧ Paid w.visited w.spent) (left budget)
      (Answers R Refused start goal) (left budget w)) := by
  rw [next]
  rcases hqueue : w.queue with - | ⟨current, queue⟩
  · exact returns_some.mpr (iff_of_false Bool.false_ne_true (h.not_reached hqueue))
  · have hcurrent : ReflTransGen R start current :=
      h.reached current (hqueue ▸ List.mem_cons_self)
    refine (visit_cases hexpand _ current).mono ?_
    rintro pass (⟨rfl, rfl⟩ | ⟨-, hvisited, rfl⟩ |
      ⟨hgoal, hnew, ⟨e, hrefused, rfl⟩ | ⟨spent, targets, hspent, rfl, hleft, htargets⟩⟩)
    · exact iff_of_true rfl hcurrent
    · refine ⟨⟨h.drop hqueue hvisited, hpaid⟩, ?_⟩
      rw [left, left, hqueue, List.length_cons]
      dsimp only
      omega
    · refine ⟨insert current w.visited, fun u hu ↦ ?_, haccounts.refuses hpaid hnew hrefused⟩
      rcases Finset.mem_insert.mp hu with rfl | hu
      · exact hcurrent
      · exact h.visited u hu
    · refine ⟨⟨h.grow hqueue hgoal htargets, haccounts.pays hpaid hnew hspent⟩, ?_⟩
      rw [left, left, hqueue, List.length_cons]
      dsimp only at hleft ⊢
      rw [List.length_append]
      omega

/-- **The search** comes to an end within its budget, with an answer or a refusal that is due. -/
theorem returns_search_accounted (hexpand : Explores expand R budget)
    (haccounts : Accounts expand Paid Refused) (start goal : α) {spent : σ} {fuel : ℕ}
    (hpaid : Paid ∅ spent) (hfuel : 1 + budget spent < fuel) :
    Returns (loop (next expand goal) fuel ⟨[start], ∅, spent⟩) (Answers R Refused start goal) :=
  returns_loop (fun _ h ↦ returns_next hexpand haccounts h.1 h.2)
    ⟨searching_start spent start goal, hpaid⟩ hfuel

theorem returns_search (hexpand : Explores expand R budget) (start goal : α) {spent : σ} {fuel : ℕ}
    (hfuel : 1 + budget spent < fuel) :
    Returns (loop (next expand goal) fuel ⟨[start], ∅, spent⟩)
      fun r ↦ ∀ b, r = .ok b → (b = true ↔ ReflTransGen R start goal) := by
  have haccounts : Accounts expand (fun _ _ ↦ True) fun _ _ ↦ True :=
    ⟨fun _ _ _ ↦ trivial, fun _ _ _ ↦ trivial⟩
  refine (returns_search_accounted hexpand haccounts start goal trivial hfuel).mono ?_
  rintro _ hr b rfl
  exact hr

/-! ## The whole queue at once -/

/-- What stands in the queue in front of what a visit appends. -/
theorem visit_append (before : List α) (w : Worklist α σ) (current : α) :
    visit expand goal { w with queue := before ++ w.queue } current =
      (visit expand goal w current).map fun
        | .leave r => .leave r
        | .again w' => .again { w' with queue := before ++ w'.queue } := by
  rw [visit, visit]
  split_ifs
  · rfl
  · rfl
  · rw [Option.map_map]
    refine congrArg (fun f ↦ Option.map f _) (funext fun result ↦ ?_)
    rcases result with e | ⟨spent, targets⟩
    · rfl
    · simp only [Function.comp, List.append_assoc]

/-- Visiting the front of the queue in order is taking its elements one after the other. -/
theorem loop_next_append (frontier : List α) (w : Worklist α σ) (fuel : ℕ) :
    loop (next expand goal) (frontier.length + fuel) { w with queue := frontier ++ w.queue } =
      (visitAll expand goal frontier w).bind fun
        | .leave r => some r
        | .again w => loop (next expand goal) fuel w := by
  induction frontier generalizing w with
  | nil => simp [visitAll]
  | cons current rest ih =>
    rw [List.length_cons, Nat.add_right_comm, loop, next, visitAll]
    change Option.bind (visit expand goal { w with queue := rest ++ w.queue } current) _ = _
    rw [visit_append]
    rcases visit expand goal w current with - | (w' | r)
    · rfl
    · exact ih w'
    · rfl

/-- A visit queues no more than it pays for. -/
theorem returns_visitAll (hexpand : Explores expand R budget) (frontier : List α)
    (w : Worklist α σ) : Returns (visitAll expand goal frontier w)
      fun pass ↦ ∀ w', pass = .again w' → left budget w' ≤ left budget w := by
  induction frontier generalizing w with
  | nil =>
    refine returns_some.mpr fun w' hw' ↦ ?_
    rw [Pass.again.inj hw']
  | cons current rest ih =>
    rw [visitAll]
    refine (visit_cases hexpand w current).bind ?_
    rintro pass (⟨-, rfl⟩ | ⟨-, -, rfl⟩ | ⟨-, -, ⟨e, -, rfl⟩ | ⟨spent, targets, -, rfl, hpaid, -⟩⟩)
    · exact returns_some.mpr fun w' hw' ↦ by cases hw'
    · exact ih w
    · exact returns_some.mpr fun w' hw' ↦ by cases hw'
    · refine (ih _).mono fun pass hpass w' hw' ↦ (hpass w' hw').trans ?_
      rw [left, left]
      dsimp only
      rw [List.length_append]
      omega

/-- The search that takes the whole queue at once. -/
def nextBatch (expand : Expand α σ ε) (goal : α) (w : Worklist α σ) :
    Option (Pass (Worklist α σ) (Except ε Bool)) :=
  if w.queue = [] then some (.leave (.ok false))
  else visitAll expand goal w.queue { w with queue := [] }

theorem returns_nextBatch (hexpand : Explores expand R budget) (w : Worklist α σ) :
    Returns (nextBatch expand goal w) (Pass.Satisfies (fun _ ↦ True) (left budget)
      (fun _ ↦ True) (left budget w)) := by
  rw [nextBatch]
  split_ifs with hqueue
  · exact returns_some.mpr trivial
  · refine (returns_visitAll hexpand w.queue _).mono fun pass hpass ↦ ?_
    rcases pass with w' | r
    · refine ⟨trivial, (hpass w' rfl).trans_lt ?_⟩
      have hpos := List.length_pos_iff.mpr hqueue
      rw [left, left]
      dsimp only [List.length_nil]
      omega
    · trivial

theorem exists_loop_next {fuel : ℕ} (h : loop (nextBatch expand goal) fuel w = some r) :
    ∃ fuel', loop (next expand goal) fuel' w = some r := by
  induction fuel generalizing w with
  | zero => cases h
  | succ fuel ih =>
    rw [loop, nextBatch] at h
    split_ifs at h with hqueue
    · refine ⟨1, ?_⟩
      rw [loop, next, hqueue]
      exact h
    · have hsplit : ∀ fuel, loop (next expand goal) (w.queue.length + fuel) w =
          (visitAll expand goal w.queue { w with queue := [] }).bind fun
            | .leave r => some r
            | .again w => loop (next expand goal) fuel w := by
        intro fuel
        rw [← loop_next_append]
        simp only [List.append_nil]
      obtain ⟨pass, hpass, h⟩ := Option.bind_eq_some_iff.mp h
      rcases pass with w' | r'
      · obtain ⟨fuel', hfuel'⟩ := ih h
        exact ⟨w.queue.length + fuel', by rw [hsplit, hpass]; exact hfuel'⟩
      · exact ⟨w.queue.length + 0, by rw [hsplit, hpass]; exact h⟩

/-- **One search**: taking the queue at once or one by one gives the same result. -/
theorem loop_nextBatch_eq (hexpand : Explores expand R budget) (start goal : α) {spent : σ}
    {fuel : ℕ} (hfuel : 1 + budget spent < fuel) :
    loop (nextBatch expand goal) fuel ⟨[start], ∅, spent⟩ =
      loop (next expand goal) fuel ⟨[start], ∅, spent⟩ := by
  obtain ⟨r, hr, -⟩ := returns_search hexpand start goal hfuel
  obtain ⟨r', hr', -⟩ : Returns (loop (nextBatch expand goal) fuel ⟨[start], ∅, spent⟩)
      fun _ ↦ True :=
    returns_loop (fun w _ ↦ returns_nextBatch hexpand w) trivial hfuel
  obtain ⟨fuel', hfuel'⟩ := exists_loop_next hr'
  rw [hr, hr', loop_unique hr hfuel']

end Worklist

end Khive
