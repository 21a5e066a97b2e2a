import Khive.Charter.Lines

/-!
# The forest of the indents

Which lines are well indented is said by the open indents alone: a line deeper than the last of them
opens one more, and any other line must return to one of them. The blocks report no error exactly
then, and the forest they build is the layout of the lines: a node, what is deeper than it, and the
next node of its level.
-/

namespace Khive.Charter.Lex

/-! ## Open indents -/

/-- Every line that dedents returns to an indent that is still open. -/
def DedentsReturn : List ℕ → List Line → Prop
  | _, [] => True
  | levels, line :: lines =>
    (∀ top ∈ levels.head?, line.indent < top → line.indent ∈ levels) ∧
      DedentsReturn (openAfter levels line.indent) lines

/-- No more than `limit` indents are open at once. -/
def NestsWithin (limit : ℕ) : List ℕ → List Line → Prop
  | _, [] => True
  | levels, line :: lines =>
    (openAfter levels line.indent).length ≤ limit ∧
      NestsWithin limit (openAfter levels line.indent) lines

section Open

variable {levels outer inner : List ℕ} {lines below rest : List Line} {l i limit : ℕ}

theorem checkLevels_eq_ok_iff :
    checkLevels levels lines = .ok () ↔ NestsWithin maxNestingDepth levels lines := by
  induction lines generalizing levels with
  | nil => exact iff_of_true rfl trivial
  | cons line lines ih =>
    rw [checkLevels, NestsWithin, ← ih]
    by_cases h : maxNestingDepth < (openAfter levels line.indent).length
    · rw [if_pos h]
      exact iff_of_false nofun fun hle ↦ not_le.mpr h hle.1
    · rw [if_neg h]
      exact (and_iff_right (not_lt.mp h)).symm

/-- A line deeper than all open indents opens one more. -/
theorem openAfter_of_forall_lt (h : ∀ a ∈ levels, a < i) : openAfter levels i = i :: levels := by
  cases levels with
  | nil => rfl
  | cons a levels =>
    rw [openAfter, List.dropWhile_cons_of_neg]
    simpa using h a List.mem_cons_self

theorem openAfter_self (h : ∀ a ∈ outer, a < l) : openAfter (l :: outer) l = l :: outer := by
  have hdrop := openAfter_of_forall_lt h
  rw [openAfter] at hdrop ⊢
  rwa [List.dropWhile_cons_of_pos (by simp)]

/-- Indents that a line does not reach are closed by it. -/
theorem openAfter_append (h : ∀ a ∈ inner, i ≤ a) :
    openAfter (inner ++ outer) i = openAfter outer i := by
  rw [openAfter, openAfter, List.dropWhile_append_of_pos]
  exact fun a ha ↦ decide_eq_true (h a ha)

/-- Indents below the line stay open. -/
theorem openAfter_append_of_lt (h : l < i) : openAfter (inner ++ l :: outer) i =
    openAfter inner i ++ l :: outer := by
  have hkeep : (l :: outer).dropWhile (fun level ↦ decide (i ≤ level)) = l :: outer :=
    List.dropWhile_cons_of_neg (by simpa using h)
  rw [openAfter, openAfter, List.dropWhile_append, hkeep]
  split_ifs with hempty
  · rw [List.isEmpty_iff.mp hempty]
    rfl
  · rfl

theorem lt_of_mem_openAfter (h : l < i) (hinner : ∀ a ∈ inner, l < a) :
    ∀ a ∈ openAfter inner i, l < a := by
  intro a ha
  rcases List.mem_cons.mp ha with rfl | hmem
  · exact h
  · exact hinner a (List.dropWhile_subset _ hmem)

/-- The lines of a block leave the indents under it open, so what comes behind the block is read as
if the block were not there. -/
theorem dedentsReturn_append (inner : List ℕ) (hinner : ∀ a ∈ inner, l < a)
    (hbelow : ∀ line ∈ below, l < line.indent) (hrest : ∀ line ∈ rest.head?, line.indent ≤ l) :
    DedentsReturn (inner ++ l :: outer) (below ++ rest) ↔
      DedentsReturn (inner ++ l :: outer) below ∧ DedentsReturn (l :: outer) rest := by
  induction below generalizing inner with
  | nil =>
    rw [List.nil_append]
    refine Iff.trans ?_ (and_iff_right trivial).symm
    cases rest with
    | nil => exact iff_of_true trivial trivial
    | cons line rest =>
      have hle : line.indent ≤ l := hrest line rfl
      have hnot : line.indent ∉ inner := fun hmem ↦ absurd (hinner _ hmem) (not_lt.mpr hle)
      rw [DedentsReturn, DedentsReturn, openAfter_append fun a ha ↦ hle.trans (hinner a ha).le]
      refine and_congr_left fun _ ↦ ?_
      cases inner with
      | nil => exact Iff.rfl
      | cons a inner =>
        have hlt : line.indent < a := hle.trans_lt (hinner a List.mem_cons_self)
        -- the line goes back over the inner levels, to one that is open around the block
        rw [List.mem_append, or_iff_right hnot]
        constructor
        · intro h top _ _
          exact h a rfl hlt
        · intro h _ _ _
          rcases hle.eq_or_lt with heq | hlt'
          · exact heq ▸ List.mem_cons_self
          · exact h l rfl hlt'
  | cons line below ih =>
    have hlt := hbelow line List.mem_cons_self
    rw [List.cons_append, DedentsReturn, DedentsReturn, openAfter_append_of_lt hlt,
      ih _ (lt_of_mem_openAfter hlt hinner) fun x hx ↦ hbelow x (List.mem_cons_of_mem line hx),
      and_assoc]

end Open

/-! ## Layouts -/

/-- The layout of lines whose blocks are known: the lines under a node are deeper than it, and the
next node has its level. -/
inductive Layout : ℕ → List Line → List Node → Prop
  | nil (l : ℕ) : Layout l [] []
  | cons {l l' : ℕ} {line : Line} {below others : List Line} {children siblings : List Node}
      (hindent : line.indent = l) (hlt : l < l') (hbelow : Layout l' below children)
      (hothers : Layout l others siblings) :
      Layout l (line :: (below ++ others)) (⟨line, children⟩ :: siblings)

/-- The lines of a forest, each before the lines under it. -/
def preorder : List Node → List Line
  | [] => []
  | ⟨line, children⟩ :: siblings => line :: (preorder children ++ preorder siblings)

/-- The nodes of a forest, each with the lines that follow its own. -/
def located : List Node → List Line → List (Node × List Line)
  | [], _ => []
  | ⟨line, children⟩ :: siblings, after =>
    (⟨line, children⟩, preorder children ++ (preorder siblings ++ after)) ::
      (located children (preorder siblings ++ after) ++ located siblings after)

/-- Siblings have equal indents. -/
def Level (nodes : List Node) : Prop :=
  ∀ a ∈ nodes, ∀ b ∈ nodes, a.line.indent = b.line.indent

namespace Layout

variable {l l' : ℕ} {lines below others : List Line} {nodes children siblings : List Node}

theorem preorder_eq (h : Layout l lines nodes) : preorder nodes = lines := by
  induction h with
  | nil => rw [preorder]
  | cons hindent hlt hbelow hothers ihbelow ihothers => rw [preorder, ihbelow, ihothers]

theorem indent_eq (h : Layout l lines nodes) : ∀ node ∈ nodes, node.line.indent = l := by
  induction h with
  | nil => nofun
  | cons hindent hlt hbelow hothers ihbelow ihothers =>
    exact List.forall_mem_cons.mpr ⟨hindent, ihothers⟩

theorem level (h : Layout l lines nodes) : Level nodes := fun a ha b hb ↦
  (h.indent_eq a ha).trans (h.indent_eq b hb).symm

theorem le_indent (h : Layout l lines nodes) : ∀ line ∈ lines, l ≤ line.indent := by
  induction h with
  | nil => nofun
  | cons hindent hlt hbelow hothers ihbelow ihothers =>
    refine List.forall_mem_cons.mpr ⟨hindent.ge, fun line hmem ↦ ?_⟩
    rcases List.mem_append.mp hmem with hmem | hmem
    · exact hlt.le.trans (ihbelow line hmem)
    · exact ihothers line hmem

theorem head_eq (h : Layout l lines nodes) : ∀ line ∈ lines.head?, line.indent = l := by
  cases h with
  | nil => nofun
  | cons hindent hlt hbelow hothers =>
    intro line hline
    obtain rfl := Option.some.inj hline
    exact hindent

theorem lines_eq_nil (h : Layout l lines []) : lines = [] := by
  cases h
  rfl

/-- Under each node stand the deeper lines that follow it, up to the next line that is not. -/
theorem located_children (h : Layout l lines nodes) {after : List Line}
    (hafter : ∀ line ∈ after.head?, line.indent ≤ l) {node : Node} {following : List Line}
    (hmem : (node, following) ∈ located nodes after) :
    preorder node.children =
        following.takeWhile (fun line ↦ decide (node.line.indent < line.indent)) ∧
      Level node.children := by
  induction h generalizing after with
  | nil =>
    rw [located] at hmem
    cases hmem
  | @cons l l' line below others children siblings hindent hlt hbelow hothers ihbelow ihothers =>
    -- what follows the subtree is no deeper than the node
    have hnext : ∀ x ∈ (others ++ after).head?, x.indent ≤ l := by
      intro x hx
      rw [List.head?_append] at hx
      rcases hothers' : others.head? with _ | y
      · rw [hothers'] at hx
        exact hafter x hx
      · rw [hothers'] at hx
        obtain rfl : y = x := Option.some.inj hx
        exact (hothers.head_eq y hothers').le
    rw [located, hothers.preorder_eq, hbelow.preorder_eq] at hmem
    rcases List.mem_cons.mp hmem with heq | hmem
    · obtain ⟨rfl, rfl⟩ := Prod.mk.inj heq
      refine ⟨?_, hbelow.level⟩
      have hdeeper : ∀ x ∈ below, decide (line.indent < x.indent) = true := fun x hx ↦
        decide_eq_true ((hindent ▸ hlt).trans_le (hbelow.le_indent x hx))
      rw [hbelow.preorder_eq, List.takeWhile_append_of_pos hdeeper]
      cases hrest : others ++ after with
      | nil => simp
      | cons x rest =>
        have hx : ¬line.indent < x.indent := by
          rw [hindent]
          exact not_lt.mpr (hnext x (by rw [hrest]; rfl))
        rw [List.takeWhile_cons_of_neg (by simpa using hx), List.append_nil]
    · rcases List.mem_append.mp hmem with hmem | hmem
      · exact ihbelow (fun x hx ↦ (hnext x hx).trans hlt.le) hmem
      · exact ihothers hafter hmem

end Layout

/-! ## What the blocks build -/

section Reads

variable {parentIndent level : Option ℕ} {nodes init : List Node} {errors : List Diagnostic}
  {lines seg : List Line} {line : Line} {last : Node} {result : Block} {outer : List ℕ} {l : ℕ}

/-- The open indents around a call of `block`: its level if it has one, and those of the calls it
is in, the parent first. -/
structure Surrounds (parentIndent level : Option ℕ) (outer : List ℕ) : Prop where
  parent_eq : parentIndent = outer.head?
  sorted : (level.toList ++ outer).Pairwise fun a b ↦ b < a

namespace Surrounds

theorem lt_level (h : Surrounds parentIndent (some l) outer) : ∀ a ∈ outer, a < l :=
  fun _ ha ↦ List.rel_of_pairwise_cons h.sorted ha

theorem parent_lt (h : Surrounds parentIndent (some l) outer) :
    ∀ parent ∈ parentIndent, parent < l := by
  intro parent hparent
  rw [h.parent_eq] at hparent
  exact h.lt_level parent (List.mem_of_mem_head? hparent)

theorem le_parent (h : Surrounds parentIndent level outer) :
    ∀ a ∈ outer, ∃ parent ∈ parentIndent, a ≤ parent := by
  intro a ha
  have hsorted := (List.pairwise_append.mp h.sorted).2.1
  rw [h.parent_eq]
  cases outer with
  | nil => cases ha
  | cons parent outer =>
    refine ⟨parent, rfl, ?_⟩
    rcases List.mem_cons.mp ha with rfl | ha
    · exact le_rfl
    · exact (List.rel_of_pairwise_cons hsorted ha).le

/-- A line of the block is deeper than all indents around it. -/
theorem lt_indent (h : Surrounds parentIndent level outer)
    (hin : inBlock parentIndent line = true) : ∀ a ∈ outer, a < line.indent := by
  intro a ha
  obtain ⟨parent, hparent, hle⟩ := h.le_parent a ha
  exact hle.trans_lt (inBlock_iff.mp hin parent hparent)

theorem first (h : Surrounds parentIndent none outer) (hin : inBlock parentIndent line = true) :
    Surrounds parentIndent (some line.indent) outer :=
  ⟨h.parent_eq, List.pairwise_cons.mpr ⟨h.lt_indent hin, h.sorted⟩⟩

theorem deeper (h : Surrounds parentIndent (some l) outer) :
    Surrounds (some l) none (l :: outer) := ⟨rfl, h.sorted⟩

end Surrounds

/-- The rest of a block behind the lines deeper than its level. -/
theorem takeWhile_deeper (hlevel : ∀ parent ∈ parentIndent, parent < l) :
    lines.takeWhile (inBlock parentIndent) = lines.takeWhile (inBlock (some l)) ++
      (lines.dropWhile (inBlock (some l))).takeWhile (inBlock parentIndent) :=
  takeWhile_eq_append fun _ hx ↦ inBlock_of_lt hlevel (inBlock_some_iff.mp hx)

theorem head_dropWhile_le {p : Line → Bool} :
    ∀ x ∈ ((lines.dropWhile (inBlock (some l))).takeWhile p).head?, x.indent ≤ l := by
  intro x hx
  have hhead : x ∈ (lines.dropWhile (inBlock (some l))).head? := by
    cases hdrop : lines.dropWhile (inBlock (some l)) with
    | nil =>
      rw [hdrop] at hx
      cases hx
    | cons y rest =>
      rw [hdrop, List.takeWhile_cons] at hx
      split_ifs at hx
      · exact hx
      · cases hx
  have hnot := List.head?_dropWhile_not (inBlock (some l)) lines
  rw [Option.mem_def.mp hhead] at hnot
  exact not_lt.mp fun hlt ↦ by simp [inBlock_some_iff.mpr hlt] at hnot

/-- The lines of a block are read in the indents around it: those deeper than its level in a block
of their own, and the others as if that block were not there. -/
theorem dedentsReturn_deeper (h : Surrounds parentIndent (some l) outer) :
    DedentsReturn (l :: outer) (lines.takeWhile (inBlock parentIndent)) ↔
      DedentsReturn (l :: outer) (lines.takeWhile (inBlock (some l))) ∧
        DedentsReturn (l :: outer)
          ((lines.dropWhile (inBlock (some l))).takeWhile (inBlock parentIndent)) := by
  rw [takeWhile_deeper h.parent_lt]
  exact dedentsReturn_append [] nofun
    (fun x hx ↦ inBlock_some_iff.mp (List.mem_takeWhile_imp hx)) head_dropWhile_le

/-- A call that reports nothing has read lines that return where they dedent. -/
theorem Reads.dedentsReturn (h : Reads parentIndent level nodes errors lines result)
    (hsurrounds : Surrounds parentIndent level outer) (herrors : result.errors = errors) :
    DedentsReturn (level.toList ++ outer) (lines.takeWhile (inBlock parentIndent)) := by
  induction h generalizing outer with
  | done => trivial
  | leave hin =>
    rw [List.takeWhile_cons_of_neg (by simp [hin])]
    trivial
  | first hin hrest ih =>
    rw [List.takeWhile_cons_of_pos hin]
    have hlt := hsurrounds.lt_indent hin
    refine ⟨fun top htop hdedent ↦ ?_, ?_⟩
    · exact absurd (hlt top (List.mem_of_mem_head? htop)) hdedent.not_gt
    · rw [Option.toList_none, List.nil_append, openAfter_of_forall_lt hlt]
      exact ih (hsurrounds.first hin) herrors
  | mismatch hin hlt hrest ih =>
    have hlen := hrest.errors_prefix.length_le
    rw [herrors, List.length_append] at hlen
    exact absurd hlen (Nat.not_succ_le_self _)
  | aligned hin hrest ih =>
    rw [List.takeWhile_cons_of_pos hin]
    refine ⟨fun top _ _ ↦ List.mem_cons_self, ?_⟩
    change DedentsReturn (openAfter (_ :: outer) _) _
    rw [openAfter_self hsurrounds.lt_level]
    exact ih hsurrounds herrors
  | @deeper parentIndent l nodes errors line lines inner result hin hlt hinner hrest ihinner
      ihrest =>
    -- the errors only grow, so the call below has reported nothing and neither has the rest
    have hbefore := hinner.errors_prefix
    have hafter := hrest.errors_prefix
    have hlen := hafter.length_le
    rw [herrors, List.length_append] at hlen
    have heq := (hbefore.eq_of_length_le (Nat.le_of_add_right_le hlen)).symm
    refine (dedentsReturn_deeper hsurrounds).mpr ⟨ihinner hsurrounds.deeper heq, ?_⟩
    rw [← hinner.rest_eq nofun]
    refine ihrest hsurrounds (hafter.eq_of_length_le ?_).symm
    rw [herrors, List.length_append]
    exact hbefore.length_le.trans (Nat.le_add_right _ _)

theorem attach_concat (hlast : last.children = []) (children : List Node) (line : Line) :
    attach (init ++ [last]) children line = (init ++ [⟨last.line, children⟩], []) := by
  rw [attach, List.getLast?_concat, List.dropLast_concat]
  simp [hlast]

/-- What a call makes of the lines of its block: they are laid out, the first of them under the last
node it was given where they are deeper than that, and nothing is reported. -/
def LaysOut (level : Option ℕ) (nodes : List Node) (errors : List Diagnostic) (seg : List Line)
    (result : Block) : Prop :=
  match level with
  | none => nodes = [] → result.errors = errors ∧ ∃ l, Layout l seg result.nodes
  | some l => ∀ init last, nodes = init ++ [last] →
      (last.children = [] ∨ ∀ line ∈ seg.head?, line.indent ≤ l) →
      result.errors = errors ∧ ∃ l' below others children siblings, l < l' ∧
        seg = below ++ others ∧ Layout l' below children ∧ Layout l others siblings ∧
        (last.children ≠ [] → children = []) ∧
        result.nodes = init ++ ⟨last.line, last.children ++ children⟩ :: siblings

/-- Nothing more to read. -/
theorem laysOut_nil : LaysOut level nodes errors [] ⟨nodes, errors, lines⟩ := by
  cases level with
  | none =>
    rintro rfl
    exact ⟨rfl, 0, .nil 0⟩
  | some l =>
    rintro init ⟨last, children⟩ rfl -
    exact ⟨rfl, l + 1, [], [], [], [], l.lt_succ_self, rfl, .nil _, .nil _, fun _ ↦ rfl, by simp⟩

/-- A line of the level of the block is the next node, with what is read after it. -/
theorem LaysOut.node (h : LaysOut (some line.indent) (nodes ++ [⟨line, []⟩]) errors seg result) :
    result.errors = errors ∧
      ∃ siblings, Layout line.indent (line :: seg) siblings ∧
        result.nodes = nodes ++ siblings := by
  obtain ⟨herrors, l', below, others, children, siblings, hlt, rfl, hbelow, hothers, -, hnodes⟩ :=
    h nodes ⟨line, []⟩ rfl (Or.inl rfl)
  exact ⟨herrors, _, .cons rfl hlt hbelow hothers, hnodes⟩

/-- A call whose lines return where they dedent lays them out. -/
theorem Reads.laysOut (h : Reads parentIndent level nodes errors lines result)
    (hsurrounds : Surrounds parentIndent level outer)
    (hreturn : DedentsReturn (level.toList ++ outer) (lines.takeWhile (inBlock parentIndent))) :
    LaysOut level nodes errors (lines.takeWhile (inBlock parentIndent)) result := by
  induction h generalizing outer with
  | done => exact laysOut_nil
  | leave hin =>
    rw [List.takeWhile_cons_of_neg (by simp [hin])]
    exact laysOut_nil
  | first hin hrest ih =>
    rw [List.takeWhile_cons_of_pos hin] at hreturn ⊢
    have hnext := hreturn.2
    rw [Option.toList_none, List.nil_append,
      openAfter_of_forall_lt (hsurrounds.lt_indent hin)] at hnext
    rintro rfl
    obtain ⟨herrors, siblings, hlayout, hnodes⟩ := (ih (hsurrounds.first hin) hnext).node
    rw [List.nil_append] at hnodes
    exact ⟨herrors, _, hnodes ▸ hlayout⟩
  | @mismatch parentIndent l nodes errors line lines result hin hlt hrest ih =>
    -- no indent between the parent and the level is open
    rw [List.takeWhile_cons_of_pos hin] at hreturn
    rcases List.mem_cons.mp (hreturn.1 l rfl hlt) with heq | hmem
    · exact absurd heq hlt.ne
    · have houter : line.indent ∈ outer := hmem
      exact absurd (hsurrounds.lt_indent hin _ houter) (lt_irrefl _)
  | aligned hin hrest ih =>
    rw [List.takeWhile_cons_of_pos hin] at hreturn ⊢
    have hnext : DedentsReturn (openAfter (_ :: outer) _) _ := hreturn.2
    rw [openAfter_self hsurrounds.lt_level] at hnext
    rintro init ⟨last, children⟩ rfl -
    obtain ⟨herrors, siblings, hlayout, hnodes⟩ := (ih hsurrounds hnext).node
    refine ⟨herrors, _, [], _, [], siblings, Nat.lt_succ_self _, rfl, .nil _, hlayout,
      fun _ ↦ rfl, ?_⟩
    rw [hnodes, List.append_nil, List.append_assoc]
    rfl
  | @deeper parentIndent l nodes errors line lines inner result hin hlt hinner hrest ihinner
      ihrest =>
    obtain ⟨hbelow, hothers⟩ := (dedentsReturn_deeper hsurrounds).mp hreturn
    rw [← hinner.rest_eq nofun] at hothers
    rintro init last rfl hready
    have hdeeper : inBlock (some l) line = true := inBlock_some_iff.mpr hlt
    have hlast : last.children = [] := by
      refine hready.resolve_right fun hle ↦ ?_
      rw [List.takeWhile_cons_of_pos hin] at hle
      exact absurd (hle line rfl) (not_le.mpr hlt)
    obtain ⟨hinnerErrors, l', hchildren⟩ := ihinner hsurrounds.deeper hbelow rfl
    rw [attach_concat hlast] at ihrest
    obtain ⟨herrors, l'', below, others, children, siblings, hlt', hseg, hbelow', hsiblings, hempty,
      hnodes⟩ := ihrest hsurrounds hothers init ⟨last.line, inner.nodes⟩ rfl
        (Or.inr (hinner.rest_eq nofun ▸ head_dropWhile_le))
    have hpart : (line :: lines).takeWhile (inBlock (some l)) =
        line :: lines.takeWhile (inBlock (some l)) := List.takeWhile_cons_of_pos hdeeper
    have hlevel : l < l' := by
      have hhead := hchildren.head_eq line (by rw [hpart]; rfl)
      rwa [hhead] at hlt
    have hnonempty : inner.nodes ≠ [] := by
      intro hnil
      rw [hnil] at hchildren
      exact absurd (hpart.symm.trans hchildren.lines_eq_nil) (List.cons_ne_nil _ _)
    -- the node has its children by now, so the rest brings it no more
    obtain rfl := hempty hnonempty
    obtain rfl := hbelow'.lines_eq_nil
    rw [List.nil_append] at hseg
    rw [List.append_nil] at hnodes
    refine ⟨herrors.trans (by rw [List.append_nil, hinnerErrors]), l', _, _, inner.nodes, siblings,
      hlevel, ?_, hchildren, hsiblings, fun hne ↦ absurd hlast hne, ?_⟩
    · rw [takeWhile_deeper hsurrounds.parent_lt, ← hinner.rest_eq nofun, hseg]
    · rw [hnodes, hlast, List.nil_append]

end Reads

/-! ## The depth of the recursion -/

theorem lt_of_mem_dropWhile {levels : List ℕ} {i : ℕ} (h : levels.Pairwise fun a b ↦ b < a) :
    ∀ a ∈ levels.dropWhile (fun level ↦ decide (i ≤ level)), a < i := by
  induction levels with
  | nil => nofun
  | cons b levels ih =>
    by_cases hle : i ≤ b
    · rw [List.dropWhile_cons_of_pos (by simpa using hle)]
      exact ih h.of_cons
    · rw [List.dropWhile_cons_of_neg (by simpa using hle)]
      refine List.forall_mem_cons.mpr ⟨not_le.mp hle, fun a ha ↦ ?_⟩
      exact (List.rel_of_pairwise_cons h ha).trans (not_le.mp hle)

theorem sorted_openAfter {levels : List ℕ} (h : levels.Pairwise fun a b ↦ b < a) (i : ℕ) :
    (openAfter levels i).Pairwise fun a b ↦ b < a :=
  List.pairwise_cons.mpr ⟨lt_of_mem_dropWhile h, h.sublist (List.dropWhile_sublist _)⟩

/-- Counted from the outermost, the levels are not larger than the indents of a stack. -/
def Dominates (levels stack : List ℕ) : Prop :=
  ∃ top bottom, levels = top ++ bottom ∧ List.Forall₂ (· ≤ ·) bottom stack

namespace Dominates

variable {levels stack : List ℕ} {a b i : ℕ}

theorem length_le (h : Dominates levels stack) : stack.length ≤ levels.length := by
  obtain ⟨top, bottom, rfl, hle⟩ := h
  rw [← hle.length_eq, List.length_append]
  exact Nat.le_add_left _ _

theorem tail (h : Dominates levels (a :: stack)) : Dominates levels stack := by
  obtain ⟨top, bottom, rfl, hle⟩ := h
  obtain ⟨x, bottom, hx, hrest, rfl⟩ := List.forall₂_cons_right_iff.mp hle
  exact ⟨top ++ [x], bottom, by simp, hrest⟩

theorem mono (h : Dominates levels (a :: stack)) (hab : a ≤ b) :
    Dominates levels (b :: stack) := by
  obtain ⟨top, bottom, rfl, hle⟩ := h
  obtain ⟨x, bottom, hx, hrest, rfl⟩ := List.forall₂_cons_right_iff.mp hle
  exact ⟨top, x :: bottom, rfl, .cons (hx.trans hab) hrest⟩

/-- A line deeper than a stack is a new level on it. -/
theorem push (h : Dominates levels stack) (hsorted : levels.Pairwise fun a b ↦ b < a)
    (hstack : ∀ a ∈ stack, a < i) : Dominates (openAfter levels i) (i :: stack) := by
  obtain ⟨top, bottom, rfl, hle⟩ := h
  have hbottom : ∀ a ∈ bottom, a < i := by
    intro a ha
    obtain ⟨n, hn, rfl⟩ := List.getElem_of_mem ha
    have hn' : n < stack.length := hle.length_eq ▸ hn
    exact (hle.get hn hn').trans_lt (hstack _ (List.getElem_mem hn'))
  have hopen : openAfter (top ++ bottom) i = openAfter top i ++ bottom := by
    have hkeep := openAfter_of_forall_lt hbottom
    rw [openAfter, List.cons_inj_right] at hkeep
    rw [openAfter, openAfter, List.dropWhile_append, hkeep]
    split_ifs with hempty
    · rw [List.isEmpty_iff.mp hempty]
      rfl
    · rfl
  -- the last of the new levels is the one that comes to stand against the line
  obtain ⟨above, x, hx⟩ := (List.eq_nil_or_concat (openAfter top i)).resolve_left
    (List.cons_ne_nil _ _)
  rw [List.concat_eq_append] at hx
  have hxi : x ≤ i := by
    have hmem : x ∈ openAfter top i := hx ▸ List.mem_concat_self
    rcases List.mem_cons.mp hmem with rfl | hmem
    · exact le_rfl
    · exact (lt_of_mem_dropWhile (List.pairwise_append.mp hsorted).1 x hmem).le
  exact ⟨above, x :: bottom, by rw [hopen, hx, List.append_assoc]; rfl, .cons hxi hle⟩

end Dominates

section Depth

variable {parentIndent level : Option ℕ} {nodes : List Node} {errors : List Diagnostic}
  {lines : List Line} {levels outer : List ℕ} {rounds depth limit : ℕ}

/-- The pass over the levels has them dominate the indents of the calls, and goes on within its
limit. -/
structure Covers (limit : ℕ) (levels : List ℕ) (lines : List Line) (stack : List ℕ) : Prop where
  sorted : levels.Pairwise fun a b ↦ b < a
  within : NestsWithin limit levels lines
  dominates : Dominates levels stack

namespace Covers

variable {line : Line} {stack : List ℕ} {l : ℕ}

theorem around (h : Covers limit levels lines (level.toList ++ outer)) :
    Covers limit levels lines outer := by
  refine ⟨h.sorted, h.within, ?_⟩
  cases level with
  | none => exact h.dominates
  | some l => exact h.dominates.tail

theorem push (h : Covers limit levels (line :: lines) stack) (hlt : ∀ a ∈ stack, a < line.indent) :
    Covers limit (openAfter levels line.indent) lines (line.indent :: stack) :=
  ⟨sorted_openAfter h.sorted _, h.within.2, h.dominates.push h.sorted hlt⟩

theorem length_le (h : Covers limit levels (line :: lines) stack)
    (hlt : ∀ a ∈ stack, a < line.indent) : stack.length + 1 ≤ limit :=
  (h.push hlt).dominates.length_le.trans h.within.1

end Covers

/-- Where the pass stays within its limit the calls do, and they return. -/
theorem exists_block (hsurrounds : Surrounds parentIndent level outer)
    (hcovers : Covers limit levels lines (level.toList ++ outer))
    (hdepth : limit ≤ depth + outer.length + 1)
    (hrounds : 2 * lines.length + level.toList.length + 1 ≤ rounds) :
    ∃ result, block rounds depth lines parentIndent level nodes errors = some result ∧
      ∃ levels', Covers limit levels' result.rest outer := by
  induction rounds generalizing depth lines parentIndent level nodes errors levels outer with
  | zero => exact absurd hrounds (Nat.not_succ_le_zero _)
  | succ rounds ih =>
    cases lines with
    | nil => exact ⟨_, block_nil, levels, hcovers.around⟩
    | cons line lines =>
      rw [List.length_cons] at hrounds
      by_cases hin : inBlock parentIndent line = true
      · have houter := hsurrounds.lt_indent hin
        cases level with
        | none =>
          rw [block_first hin]
          refine ih (hsurrounds.first hin) (hcovers.push houter) hdepth ?_
          simp only [Option.toList_some, List.length_singleton, Option.toList_none,
            List.length_nil] at hrounds ⊢
          omega
        | some l =>
          have hnext := hcovers.around.push houter
          simp only [Option.toList_some, List.length_singleton] at hrounds
          have hrounds' : 2 * lines.length + (some l).toList.length + 1 ≤ rounds := by
            simp only [Option.toList_some, List.length_singleton]
            omega
          rcases lt_trichotomy line.indent l with hlt | rfl | hlt
          · -- the level of the block stays, and the one the pass opens instead is smaller
            rw [block_mismatch hin hlt]
            exact ih hsurrounds ⟨hnext.sorted, hnext.within, hnext.dominates.mono hlt.le⟩ hdepth
              hrounds'
          · rw [block_aligned hin rfl]
            exact ih hsurrounds hnext hdepth hrounds'
          · have hstack : ∀ a ∈ l :: outer, a < line.indent :=
              List.forall_mem_cons.mpr ⟨hlt, houter⟩
            have hlen : (l :: outer).length + 1 ≤ limit := hcovers.length_le hstack
            rw [List.length_cons] at hlen
            obtain ⟨depth, rfl⟩ : ∃ d, depth = d + 1 :=
              Nat.exists_eq_succ_of_ne_zero (by omega)
            -- a deeper line opens a block, for which one level of depth is left
            have hbelow : ∃ inner,
                block rounds depth (line :: lines) (some l) none [] errors = some inner ∧
                  ∃ levels', Covers limit levels' inner.rest (l :: outer) := by
              refine ih hsurrounds.deeper hcovers (by rw [List.length_cons]; omega) ?_
              rw [List.length_cons, Option.toList_none, List.length_nil]
              omega
            obtain ⟨inner, hinner, levels', hcovers'⟩ := hbelow
            -- the inner block takes at least the line that opened it
            have hrest : inner.rest.length ≤ lines.length := by
              rw [(reads_of_block hinner).rest_eq nofun,
                List.dropWhile_cons_of_pos (inBlock_some_iff.mpr hlt)]
              exact (List.dropWhile_sublist _).length_le
            rw [block_deeper hin hlt, hinner]
            refine ih hsurrounds hcovers' hdepth (le_trans ?_ hrounds')
            omega
      · rw [block_break (Bool.eq_false_iff.mpr hin)]
        exact ⟨_, rfl, levels, hcovers.around⟩

end Depth

/-! ## The tree -/

variable {lines : List Line} {nodes : List Node}

theorem takeWhile_inBlock_none : lines.takeWhile (inBlock none) = lines :=
  List.takeWhile_eq_self_iff.mpr fun _ _ ↦ rfl

theorem surrounds_none : Surrounds none none [] := ⟨rfl, List.Pairwise.nil⟩

/-- Where the pass is content the outermost call returns. -/
theorem exists_block_tree (h : NestsWithin maxNestingDepth [] lines) :
    ∃ result,
      block (roundsFor lines) (maxNestingDepth - 1) lines none none [] [] = some result := by
  have hcovers : Covers maxNestingDepth [] lines [] :=
    ⟨List.Pairwise.nil, h, [], [], rfl, List.Forall₂.nil⟩
  obtain ⟨result, hresult, -⟩ := exists_block surrounds_none hcovers le_rfl (Nat.le_succ _)
  exact ⟨result, hresult⟩

/-- The recursion of `block` stays within the nesting limit. -/
theorem exists_tree (lines : List Line) : ∃ outcome, tree lines = some outcome := by
  rw [tree]
  cases hlevels : checkLevels [] lines with
  | error errors => exact ⟨_, rfl⟩
  | ok _ =>
    obtain ⟨result, hresult⟩ := exists_block_tree (checkLevels_eq_ok_iff.mp hlevels)
    exact ⟨_, by rw [hresult]; rfl⟩

/-- What `tree` accepts, and that it is laid out. -/
theorem tree_eq_ok_iff : tree lines = some (.ok nodes) ↔
    NestsWithin maxNestingDepth [] lines ∧
      ∃ result, block (roundsFor lines) (maxNestingDepth - 1) lines none none [] [] = some result ∧
        result.errors = [] ∧ result.nodes = nodes := by
  rw [tree]
  cases hlevels : checkLevels [] lines with
  | error errors =>
    refine iff_of_false nofun fun h ↦ ?_
    cases hlevels.symm.trans (checkLevels_eq_ok_iff.mpr h.1)
  | ok _ =>
    have hnests := checkLevels_eq_ok_iff.mp hlevels
    obtain ⟨result, hresult⟩ := exists_block_tree hnests
    rw [hresult]
    simp only [hnests, Option.bind_eq_bind, Option.bind_some, Option.some.injEq, true_and,
      exists_eq_left']
    by_cases herrors : result.errors = []
    · simp [herrors]
    · simp [herrors]

theorem tree_layout (h : tree lines = some (.ok nodes)) : ∃ l, Layout l lines nodes := by
  obtain ⟨-, result, hresult, herrors, rfl⟩ := tree_eq_ok_iff.mp h
  have hreads := reads_of_block hresult
  have hreturn := hreads.dedentsReturn surrounds_none herrors
  have hlays := hreads.laysOut surrounds_none hreturn
  rw [takeWhile_inBlock_none] at hlays
  exact (hlays rfl).2

theorem exists_tree_eq_ok_iff : (∃ nodes, tree lines = some (.ok nodes)) ↔
    DedentsReturn [] lines ∧ NestsWithin maxNestingDepth [] lines := by
  constructor
  · rintro ⟨nodes, h⟩
    obtain ⟨hnests, result, hresult, herrors, -⟩ := tree_eq_ok_iff.mp h
    have hreturn := (reads_of_block hresult).dedentsReturn surrounds_none herrors
    rw [takeWhile_inBlock_none] at hreturn
    exact ⟨hreturn, hnests⟩
  · rintro ⟨hreturn, hnests⟩
    obtain ⟨result, hresult⟩ := exists_block_tree hnests
    have hlays := (reads_of_block hresult).laysOut surrounds_none
      (by rw [takeWhile_inBlock_none]; exact hreturn)
    exact ⟨_, tree_eq_ok_iff.mpr ⟨hnests, result, hresult, (hlays rfl).1, rfl⟩⟩

/-- The tree keeps every line in its place, and is built within the nesting limit. -/
theorem tree_spec (lines : List Line) :
    (∃ outcome, tree lines = some outcome) ∧
    ((∃ nodes, tree lines = some (.ok nodes)) ↔
      DedentsReturn [] lines ∧ NestsWithin maxNestingDepth [] lines) ∧
    ∀ nodes, tree lines = some (.ok nodes) →
      preorder nodes = lines ∧ Level nodes ∧
      (∀ first ∈ lines.head?, ∀ line ∈ lines, first.indent ≤ line.indent) ∧
      ∀ node following, (node, following) ∈ located nodes [] →
        Level node.children ∧
        preorder node.children =
          following.takeWhile fun line ↦ decide (node.line.indent < line.indent) := by
  refine ⟨exists_tree lines, exists_tree_eq_ok_iff, fun nodes h ↦ ?_⟩
  obtain ⟨l, hlayout⟩ := tree_layout h
  refine ⟨hlayout.preorder_eq, hlayout.level, fun first hfirst line hline ↦ ?_,
    fun node following hmem ↦ ?_⟩
  · rw [hlayout.head_eq first hfirst]
    exact hlayout.le_indent line hline
  · have hafter : ∀ line ∈ ([] : List Line).head?, line.indent ≤ l := by simp
    exact (hlayout.located_children hafter hmem).symm

end Khive.Charter.Lex
