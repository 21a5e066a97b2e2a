import Khive.Foundation.SortedMap

/-!
# Radix trees in an arena

The nodes of a tree are a list and an edge names its child by its number. An edge has a label, and
a node finds it by the first element of that; the labels along a walk spell what the walk leads
through. Two things make a tree an index of a set. It is sound when every node has a name that
extends the name of its parent by the label between them, and the names of entries are in the set.
It is complete when a walk leads to an entry through every member. Nothing asks the edges to be a
tree: writes only add to what the walks lead through, and only new nodes get names.
-/

namespace Khive

variable {α : Type} [LinearOrder α]

structure RadixEdge (α : Type) where
  label : List α
  child : ℕ

structure RadixNode (α : Type) [LinearOrder α] where
  children : OrderedMap α (RadixEdge α)
  entry : Bool

structure RadixTree (α : Type) [LinearOrder α] where
  nodes : List (RadixNode α)

namespace RadixTree

/-! ## Reads and writes -/

def size (tree : RadixTree α) : ℕ := tree.nodes.length

/-- The edge of a node for a first element. -/
def edge (tree : RadixTree α) (n : ℕ) (first : α) : Option (RadixEdge α) :=
  tree.nodes[n]?.bind fun node ↦ node.children.get first

def isEntry (tree : RadixTree α) (n : ℕ) : Bool := (tree.nodes[n]?.map RadixNode.entry).getD false

/-- One more node, with the next number. -/
def addNode (tree : RadixTree α) (node : RadixNode α) : RadixTree α := ⟨tree.nodes ++ [node]⟩

def putEdge (tree : RadixTree α) (n : ℕ) (first : α) (e : RadixEdge α) : RadixTree α :=
  ⟨tree.nodes.modify n fun node ↦ { node with children := node.children.insert first e }⟩

def setEntry (tree : RadixTree α) (n : ℕ) : RadixTree α :=
  ⟨tree.nodes.modify n fun node ↦ { node with entry := true }⟩

section Writes

variable (tree : RadixTree α) (node : RadixNode α) (n m : ℕ) (first c : α) (e : RadixEdge α)

@[simp] theorem size_addNode : (tree.addNode node).size = tree.size + 1 := by simp [size, addNode]

@[simp] theorem size_putEdge : (tree.putEdge n first e).size = tree.size := by simp [size, putEdge]

@[simp] theorem size_setEntry : (tree.setEntry n).size = tree.size := by simp [size, setEntry]

theorem edge_addNode : (tree.addNode node).edge m c =
    if m = tree.size then node.children.get c else tree.edge m c := by
  rw [edge, edge, addNode, size]
  split_ifs with h
  · rw [h, List.getElem?_concat_length]
    rfl
  · rcases lt_or_gt_of_ne h with hlt | hgt
    · rw [List.getElem?_append_left hlt]
    · rw [List.getElem?_eq_none (by simpa using hgt), List.getElem?_eq_none hgt.le]

theorem isEntry_addNode : (tree.addNode node).isEntry m =
    if m = tree.size then node.entry else tree.isEntry m := by
  rw [isEntry, isEntry, addNode, size]
  split_ifs with h
  · rw [h, List.getElem?_concat_length]
    rfl
  · rcases lt_or_gt_of_ne h with hlt | hgt
    · rw [List.getElem?_append_left hlt]
    · rw [List.getElem?_eq_none (by simpa using hgt), List.getElem?_eq_none hgt.le]

theorem edge_putEdge (hn : n < tree.size) : (tree.putEdge n first e).edge m c =
    if m = n ∧ c = first then some e else tree.edge m c := by
  rw [edge, edge, putEdge, List.getElem?_modify]
  by_cases hm : m = n
  · subst hm
    obtain ⟨node, hnode⟩ : ∃ node, tree.nodes[m]? = some node := ⟨_, List.getElem?_eq_getElem hn⟩
    by_cases hc : c = first
    · simp [hnode, hc, OrderedMap.get_insert]
    · simp [hnode, hc, OrderedMap.get_insert]
  · simp [hm, Ne.symm hm]

theorem isEntry_putEdge : (tree.putEdge n first e).isEntry m = tree.isEntry m := by
  rw [isEntry, isEntry, putEdge, List.getElem?_modify]
  cases tree.nodes[m]? with
  | none => rfl
  | some node => by_cases h : n = m <;> simp [h]

theorem edge_setEntry : (tree.setEntry n).edge m c = tree.edge m c := by
  rw [edge, edge, setEntry, List.getElem?_modify]
  cases tree.nodes[m]? with
  | none => rfl
  | some node => by_cases h : n = m <;> simp [h]

theorem isEntry_setEntry (hn : n < tree.size) : (tree.setEntry n).isEntry m =
    (decide (m = n) || tree.isEntry m) := by
  rw [isEntry, isEntry, setEntry, List.getElem?_modify]
  by_cases hm : m = n
  · subst hm
    obtain ⟨node, hnode⟩ : ∃ node, tree.nodes[m]? = some node := ⟨_, List.getElem?_eq_getElem hn⟩
    simp [hnode]
  · simp [hm, Ne.symm hm]

theorem edge_eq_none_of_le (h : tree.size ≤ m) : tree.edge m c = none := by
  rw [edge, List.getElem?_eq_none h]
  rfl

theorem isEntry_eq_false_of_le (h : tree.size ≤ m) : tree.isEntry m = false := by
  rw [isEntry, List.getElem?_eq_none h]
  rfl

end Writes

variable {tree tree' : RadixTree α} {n m k : ℕ} {c : α} {e : RadixEdge α} {s t : List α}

theorem lt_size_of_edge (h : tree.edge n c = some e) : n < tree.size := by
  by_contra hle
  rw [edge_eq_none_of_le tree n c (not_lt.mp hle)] at h
  cases h

theorem lt_size_of_isEntry (h : tree.isEntry n = true) : n < tree.size := by
  by_contra hle
  rw [isEntry_eq_false_of_le tree n (not_lt.mp hle)] at h
  cases h

/-! ## Walks -/

/-- From one node a walk through the labels of edges leads to another. -/
inductive Leads (tree : RadixTree α) : ℕ → List α → ℕ → Prop
  | refl (n : ℕ) : Leads tree n [] n
  | step {n m : ℕ} {c : α} {e : RadixEdge α} {s : List α} (hedge : tree.edge n c = some e)
      (hrest : Leads tree e.child s m) : Leads tree n (e.label ++ s) m

namespace Leads

theorem of_edge (h : tree.edge n c = some e) : Leads tree n e.label e.child := by
  have hstep := step h (refl e.child)
  rwa [List.append_nil] at hstep

theorem trans (h : Leads tree n s m) (h' : Leads tree m t k) : Leads tree n (s ++ t) k := by
  induction h with
  | refl => exact h'
  | step hedge hrest ih =>
    rw [List.append_assoc]
    exact step hedge (ih h')

end Leads

/-- Every walk that was there is there still, and so are the entries. -/
structure Grows (tree tree' : RadixTree α) : Prop where
  leads : ∀ n c e, tree.edge n c = some e → Leads tree' n e.label e.child
  entry : ∀ n, tree.isEntry n = true → tree'.isEntry n = true

theorem Leads.grows (h : Leads tree n s m) (hgrows : Grows tree tree') : Leads tree' n s m := by
  induction h with
  | refl => exact .refl _
  | step hedge hrest ih => exact (hgrows.leads _ _ _ hedge).trans ih

theorem Grows.trans {tree'' : RadixTree α} (h : Grows tree tree') (h' : Grows tree' tree'') :
    Grows tree tree'' :=
  ⟨fun n c e hedge ↦ (h.leads n c e hedge).grows h', fun n hentry ↦ h'.entry n (h.entry n hentry)⟩

theorem Grows.of_edge (hedge : ∀ n c e, tree.edge n c = some e → tree'.edge n c = some e)
    (hentry : ∀ n, tree.isEntry n = true → tree'.isEntry n = true) : Grows tree tree' :=
  ⟨fun n c e h ↦ .of_edge (hedge n c e h), hentry⟩

/-! ## Indexes of a set -/

/-- Every node has a name, and the names of the entries are in the set. -/
structure Names (tree : RadixTree α) (names : ℕ → List α) (members : Set (List α)) : Prop where
  root : names 0 = []
  size_pos : 0 < tree.size
  edge : ∀ n c e, tree.edge n c = some e →
    e.child < tree.size ∧ e.label.head? = some c ∧ names e.child = names n ++ e.label
  entry : ∀ n, tree.isEntry n = true → names n ∈ members

/-- The set is what the tree tells apart. -/
structure Indexes (tree : RadixTree α) (members : Set (List α)) : Prop where
  named : ∃ names, Names tree names members
  complete : ∀ s ∈ members, ∃ m, Leads tree 0 s m ∧ tree.isEntry m = true

/-- A new node gets the name it stands for. -/
def extend (names : ℕ → List α) (n : ℕ) (name : List α) : ℕ → List α := fun m ↦
  if m = n then name else names m

omit [LinearOrder α] in
theorem extend_of_ne {names : ℕ → List α} {name : List α} (h : m ≠ n) :
    extend names n name m = names m := if_neg h

omit [LinearOrder α] in
theorem extend_self {names : ℕ → List α} {name : List α} :
    extend names n name n = name := if_pos rfl

namespace Names

variable {names : ℕ → List α} {members members' : Set (List α)} {front back : List α}

theorem leads (h : Names tree names members) (hleads : Leads tree n s m) :
    names m = names n ++ s := by
  induction hleads with
  | refl => rw [List.append_nil]
  | step hedge hrest ih => rw [ih, (h.edge _ _ _ hedge).2.2, List.append_assoc]

end Names

/-! ## Writes to an index -/

section Growth

variable {names : ℕ → List α} {members members' : Set (List α)} {front back label : List α}
  {first : α}

theorem grows_setEntry (hn : n < tree.size) : Grows tree (tree.setEntry n) := by
  refine .of_edge (fun m c e h ↦ ?_) fun m h ↦ ?_
  · rwa [edge_setEntry]
  · rw [isEntry_setEntry tree n m hn, h, Bool.or_true]

theorem Names.setEntry (h : Names tree names members) (hn : n < tree.size)
    (hsub : members ⊆ members') (hname : names n ∈ members') :
    Names (tree.setEntry n) names members' where
  root := h.root
  size_pos := by rw [size_setEntry]; exact h.size_pos
  edge m c e hedge := by
    rw [edge_setEntry] at hedge
    rw [size_setEntry]
    exact h.edge m c e hedge
  entry m hentry := by
    rw [isEntry_setEntry tree n m hn, Bool.or_eq_true, decide_eq_true_iff] at hentry
    rcases hentry with rfl | hentry
    · exact hname
    · exact hsub (h.entry m hentry)

/-- A new entry under a node that has no edge for it. -/
def addLeaf (tree : RadixTree α) (n : ℕ) (first : α) (label : List α) : RadixTree α :=
  (tree.addNode ⟨.empty, true⟩).putEdge n first ⟨label, tree.size⟩

theorem size_addLeaf : (tree.addLeaf n first label).size = tree.size + 1 := by
  rw [addLeaf, size_putEdge, size_addNode]

theorem edge_addLeaf (hn : n < tree.size) : (tree.addLeaf n first label).edge m c =
    if m = n ∧ c = first then some ⟨label, tree.size⟩ else tree.edge m c := by
  rw [addLeaf, edge_putEdge _ _ _ _ _ _ (by rw [size_addNode]; omega), edge_addNode]
  refine ite_congr rfl (fun _ ↦ rfl) fun _ ↦ ?_
  split_ifs with hm
  · rw [hm, edge_eq_none_of_le tree _ c le_rfl, OrderedMap.get_empty]
  · rfl

theorem isEntry_addLeaf : (tree.addLeaf n first label).isEntry m =
    (decide (m = tree.size) || tree.isEntry m) := by
  rw [addLeaf, isEntry_putEdge, isEntry_addNode]
  by_cases hm : m = tree.size
  · simp [hm]
  · simp [hm]

theorem grows_addLeaf (hn : n < tree.size) (hnone : tree.edge n first = none) :
    Grows tree (tree.addLeaf n first label) := by
  refine .of_edge (fun m c e h ↦ ?_) fun m h ↦ ?_
  · rw [edge_addLeaf hn, if_neg, h]
    rintro ⟨rfl, rfl⟩
    cases hnone.symm.trans h
  · rw [isEntry_addLeaf, h, Bool.or_true]

theorem leads_addLeaf (hn : n < tree.size) :
    Leads (tree.addLeaf n first label) n label tree.size ∧
      (tree.addLeaf n first label).isEntry tree.size = true := by
  constructor
  · have hedge : (tree.addLeaf n first label).edge n first = some ⟨label, tree.size⟩ := by
      rw [edge_addLeaf hn, if_pos ⟨rfl, rfl⟩]
    exact .of_edge hedge
  · rw [isEntry_addLeaf, decide_eq_true rfl, Bool.true_or]

theorem Names.addLeaf (h : Names tree names members) (hn : n < tree.size)
    (hfirst : label.head? = some first) (hsub : members ⊆ members')
    (hname : names n ++ label ∈ members') :
    Names (tree.addLeaf n first label) (extend names tree.size (names n ++ label)) members' where
  root := by rw [extend_of_ne h.size_pos.ne, h.root]
  size_pos := by rw [size_addLeaf]; exact Nat.succ_pos _
  edge m c e hedge := by
    rw [edge_addLeaf hn] at hedge
    rw [size_addLeaf]
    split_ifs at hedge with heq
    · obtain ⟨rfl, rfl⟩ := heq
      obtain rfl := Option.some.inj hedge
      exact ⟨Nat.lt_succ_self _, hfirst, by rw [extend_self, extend_of_ne hn.ne]⟩
    · obtain ⟨hchild, hhead, hnames⟩ := h.edge m c e hedge
      refine ⟨hchild.trans (Nat.lt_succ_self _), hhead, ?_⟩
      rw [extend_of_ne hchild.ne, extend_of_ne (lt_size_of_edge hedge).ne, hnames]
  entry m hentry := by
    rw [isEntry_addLeaf, Bool.or_eq_true, decide_eq_true_iff] at hentry
    rcases hentry with rfl | hentry
    · rwa [extend_self]
    · rw [extend_of_ne (lt_size_of_isEntry hentry).ne]
      exact hsub (h.entry m hentry)

/-- A node in the middle of an edge: it takes over the child with the back of the label. -/
def splitEdge (tree : RadixTree α) (n : ℕ) (first : α) (e : RadixEdge α) (front back : List α)
    (second : α) : RadixTree α :=
  (tree.addNode ⟨OrderedMap.empty.insert second ⟨back, e.child⟩, false⟩).putEdge n first
    ⟨front, tree.size⟩

variable {second : α}

theorem size_splitEdge : (tree.splitEdge n first e front back second).size = tree.size + 1 := by
  rw [splitEdge, size_putEdge, size_addNode]

theorem edge_splitEdge (hn : n < tree.size) :
    (tree.splitEdge n first e front back second).edge m c =
      if m = n ∧ c = first then some ⟨front, tree.size⟩
      else if m = tree.size then (if c = second then some ⟨back, e.child⟩ else none)
      else tree.edge m c := by
  rw [splitEdge, edge_putEdge _ _ _ _ _ _ (by rw [size_addNode]; omega), edge_addNode,
    OrderedMap.get_insert, OrderedMap.get_empty]

theorem isEntry_splitEdge : (tree.splitEdge n first e front back second).isEntry m =
    tree.isEntry m := by
  rw [splitEdge, isEntry_putEdge, isEntry_addNode]
  split_ifs with hm
  · rw [hm, isEntry_eq_false_of_le tree _ le_rfl]
  · rfl

theorem leads_splitEdge (first second : α) (e : RadixEdge α) (front back : List α)
    (hn : n < tree.size) :
    Leads (tree.splitEdge n first e front back second) n front tree.size := by
  have hedge : (tree.splitEdge n first e front back second).edge n first =
      some ⟨front, tree.size⟩ := by rw [edge_splitEdge hn, if_pos ⟨rfl, rfl⟩]
  exact .of_edge hedge

/-- Both halves together lead through the label of the old edge. -/
theorem grows_splitEdge (second : α) (hedge : tree.edge n first = some e)
    (hlabel : e.label = front ++ back) :
    Grows tree (tree.splitEdge n first e front back second) where
  leads m c e' h' := by
    have hn := lt_size_of_edge hedge
    by_cases heq : m = n ∧ c = first
    · obtain ⟨rfl, rfl⟩ := heq
      obtain rfl : e = e' := Option.some.inj (hedge.symm.trans h')
      have hmiddle : (tree.splitEdge m c e front back second).edge tree.size second =
          some ⟨back, e.child⟩ := by
        rw [edge_splitEdge hn, if_neg (fun h ↦ hn.ne' h.1), if_pos rfl, if_pos rfl]
      rw [hlabel]
      exact (leads_splitEdge c second e front back hn).trans (.of_edge hmiddle)
    · apply Leads.of_edge (c := c)
      rw [edge_splitEdge hn, if_neg heq, if_neg (lt_size_of_edge h').ne, h']
  entry m hentry := by rwa [isEntry_splitEdge]

theorem Names.splitEdge (h : Names tree names members) (hedge : tree.edge n first = some e)
    (hlabel : e.label = front ++ back) (hfront : front.head? = some first)
    (hback : back.head? = some second) (hsub : members ⊆ members') :
    Names (tree.splitEdge n first e front back second)
      (extend names tree.size (names n ++ front)) members' where
  root := by rw [extend_of_ne h.size_pos.ne, h.root]
  size_pos := by rw [size_splitEdge]; exact Nat.succ_pos _
  edge m c e' h' := by
    have hn := lt_size_of_edge hedge
    obtain ⟨hchild, -, hnames⟩ := h.edge n first e hedge
    rw [edge_splitEdge hn] at h'
    rw [size_splitEdge]
    split_ifs at h' with heq hm hc
    · obtain ⟨rfl, rfl⟩ := heq
      obtain rfl := Option.some.inj h'
      exact ⟨Nat.lt_succ_self _, hfront, by rw [extend_self, extend_of_ne hn.ne]⟩
    · subst hm hc
      obtain rfl := Option.some.inj h'
      refine ⟨hchild.trans (Nat.lt_succ_self _), hback, ?_⟩
      rw [extend_self, extend_of_ne hchild.ne, hnames, hlabel, List.append_assoc]
    · obtain ⟨hchild', hhead, hnames'⟩ := h.edge m c e' h'
      refine ⟨hchild'.trans (Nat.lt_succ_self _), hhead, ?_⟩
      rw [extend_of_ne hchild'.ne, extend_of_ne (lt_size_of_edge h').ne, hnames']
  entry m hentry := by
    rw [isEntry_splitEdge] at hentry
    rw [extend_of_ne (lt_size_of_isEntry hentry).ne]
    exact hsub (h.entry m hentry)

end Growth

end RadixTree

end Khive
