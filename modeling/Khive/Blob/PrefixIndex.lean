import Khive.Foundation.Bytes
import Khive.Foundation.Radix
import Khive.Foundation.StableSort

/-!
# The prefix index

Declared paths are kept in a radix tree of characters. A query walks down the tree and stops at the
first declared path that the rest of the query does not continue otherwise than by a slash; an
insertion walks down as far as the labels agree and splits the edge where they stop to. The source
measures positions in bytes and cuts only between characters; here they are counted in characters.
-/

namespace Khive.Blob

/-- `PrefixIndex`. -/
abbrev PrefixIndex := RadixTree Char

/-- `common_prefix_bytes`, in characters. -/
def commonPrefix : List Char → List Char → ℕ
  | a :: left, b :: right => if a = b then commonPrefix left right + 1 else 0
  | _, _ => 0

namespace PrefixIndex

/-- `PrefixIndex::default`. -/
def empty : PrefixIndex := ⟨[⟨.empty, false⟩]⟩

/-- The rest of a path goes on with a slash, or is nothing where that is allowed. -/
def endsEntry (includeExact : Bool) (remaining : List Char) : Bool :=
  remaining.head? == some '/' || (includeExact && remaining.isEmpty)

/-- The loop of `first_prefix`, with the rounds left; the outer `none` is a node that is missing or
a round too many. -/
def firstPrefixFrom (index : PrefixIndex) (includeExact : Bool) :
    ℕ → ℕ → List Char → List Char → Option (Option (List Char))
  | 0, _, _, _ => none
  | rounds + 1, node, consumed, remaining =>
    if index.size ≤ node then none
    else if index.isEntry node && endsEntry includeExact remaining then some (some consumed)
    else
      match remaining.head?.bind fun first ↦ index.edge node first with
      | none => some none
      | some edge =>
        let common := commonPrefix remaining edge.label
        if common ≠ edge.label.length then some none
        else
          firstPrefixFrom index includeExact rounds edge.child (consumed ++ remaining.take common)
            (remaining.drop common)

/-- `first_prefix`. -/
def firstPrefix (index : PrefixIndex) (path : List Char) (includeExact : Bool) :
    Option (Option (List Char)) :=
  firstPrefixFrom index includeExact (path.length + 1) 0 [] path

/-- `first_parent`. -/
def firstParent (index : PrefixIndex) (path : List Char) : Option (Option (List Char)) :=
  firstPrefix index path false

/-- The split of an edge in `insert`: the new path ends at the node in the middle or gets a leaf
under it. -/
def split (index : PrefixIndex) (node : ℕ) (first : Char) (edge : RadixEdge Char) (common : ℕ)
    (remaining : List Char) : Option PrefixIndex := do
  let oldSuffix := edge.label.drop common
  let middle := index.size
  let second ← oldSuffix.head?
  let index := index.splitEdge node first edge (edge.label.take common) oldSuffix second
  if common = remaining.length then some (index.setEntry middle)
  else
    let suffix := remaining.drop common
    let third ← suffix.head?
    some (index.addLeaf middle third suffix)

/-- The loop of `insert`, with the rounds left; `none` is a node that is missing, a failed `expect`
or a round too many. -/
def insertFrom (index : PrefixIndex) : ℕ → ℕ → List Char → Option PrefixIndex
  | 0, _, _ => none
  | rounds + 1, node, remaining =>
    if index.size ≤ node then none
    else
      match remaining.head? with
      | none => some (index.setEntry node)
      | some first =>
        match index.edge node first with
        | none => some (index.addLeaf node first remaining)
        | some edge =>
          let common := commonPrefix remaining edge.label
          if common = edge.label.length then
            insertFrom index rounds edge.child (remaining.drop common)
          else split index node first edge common remaining

/-- `insert`. -/
def insert (index : PrefixIndex) (path : List Char) : Option PrefixIndex :=
  insertFrom index (path.length + 1) 0 path

end PrefixIndex

/-- `PathCoverage`. -/
structure PathCoverage where
  prefixes : PrefixIndex

namespace PathCoverage

/-- `PathCoverage::new`: shorter paths come first. -/
def new (paths : List String) : Option PathCoverage :=
  let ordered := sortOn (fun path : String ↦ byteSize path.toList) paths
  (ordered.foldlM (fun prefixes path ↦ PrefixIndex.insert prefixes path.toList)
    PrefixIndex.empty).map PathCoverage.mk

/-- `PathCoverage::covers`. -/
def covers (coverage : PathCoverage) (path : String) : Option Bool :=
  (PrefixIndex.firstPrefix coverage.prefixes path.toList true).map Option.isSome

end PathCoverage

/-! ## Common prefixes -/

section Common

variable {left right : List Char}

theorem take_commonPrefix (left right : List Char) :
    left.take (commonPrefix left right) = right.take (commonPrefix left right) := by
  induction left generalizing right with
  | nil => simp [commonPrefix]
  | cons a left ih =>
    cases right with
    | nil => simp [commonPrefix]
    | cons b right =>
      rw [commonPrefix]
      split_ifs with heq
      · rw [List.take_succ_cons, List.take_succ_cons, heq, ih]
      · rfl

theorem commonPrefix_le_length (left right : List Char) :
    commonPrefix left right ≤ left.length ∧ commonPrefix left right ≤ right.length := by
  induction left generalizing right with
  | nil => simp [commonPrefix]
  | cons a left ih =>
    cases right with
    | nil => simp [commonPrefix]
    | cons b right =>
      rw [commonPrefix]
      split_ifs with heq
      · simpa using ih right
      · simp

/-- What is left of both begins differently, where there is something left of both. -/
theorem head?_drop_commonPrefix_ne {a b : Char}
    (ha : (left.drop (commonPrefix left right)).head? = some a)
    (hb : (right.drop (commonPrefix left right)).head? = some b) : a ≠ b := by
  induction left generalizing right with
  | nil => simp at ha
  | cons x left ih =>
    cases right with
    | nil => simp at hb
    | cons y right =>
      rw [commonPrefix] at ha hb
      split_ifs at ha hb with heq
      · exact ih ha hb
      · obtain rfl : x = a := by simpa using ha
        obtain rfl : y = b := by simpa using hb
        exact heq

theorem commonPrefix_eq_length_iff : commonPrefix left right = right.length ↔ right <+: left := by
  constructor
  · intro h
    have htake := take_commonPrefix left right
    rw [h, List.take_length] at htake
    exact htake ▸ List.take_prefix _ _
  · rintro ⟨rest, rfl⟩
    induction right with
    | nil => simp [commonPrefix]
    | cons b right ih => simp [commonPrefix, ih]

theorem commonPrefix_pos {a : Char} (ha : left.head? = some a) (hb : right.head? = some a) :
    0 < commonPrefix left right := by
  cases left with
  | nil => cases ha
  | cons x left =>
    cases right with
    | nil => cases hb
    | cons y right =>
      obtain rfl := Option.some.inj ha
      obtain rfl := Option.some.inj hb
      simp [commonPrefix]

end Common

/-- The path is in the directory of a declared path, or is declared itself where that is asked. -/
def CoversPath (includeExact : Bool) (declared path : List Char) : Prop :=
  declared ++ ['/'] <+: path ∨ (includeExact = true ∧ path = declared)

namespace PrefixIndex

open RadixTree

variable {index : PrefixIndex} {names : ℕ → List Char} {members : Set (List Char)}
  {includeExact : Bool} {rounds node n : ℕ} {consumed remaining path s : List Char}

theorem endsEntry_iff :
    endsEntry includeExact remaining = true ↔
      CoversPath includeExact consumed (consumed ++ remaining) := by
  rw [endsEntry, CoversPath, Bool.or_eq_true, Bool.and_eq_true, beq_iff_eq, List.isEmpty_iff,
    List.prefix_append_right_inj, List.append_right_eq_self]
  cases remaining with
  | nil => simp
  | cons c remaining => simp [List.cons_prefix_cons, eq_comm]

/-! ## The search -/

/-- From a node the search finds a declared path that covers the whole path, and misses none that a
walk from there leads to. -/
theorem firstPrefixFrom_spec (includeExact : Bool) (h : Names index names members)
    (hname : names node = consumed)
    (hnode : node < index.size) (hrounds : remaining.length < rounds) :
    ∃ found, firstPrefixFrom index includeExact rounds node consumed remaining = some found ∧
      (∀ declared ∈ found,
        declared ∈ members ∧ CoversPath includeExact declared (consumed ++ remaining)) ∧
      (found = none → ∀ s n, Leads index node s n → index.isEntry n = true →
        ¬CoversPath includeExact (consumed ++ s) (consumed ++ remaining)) := by
  induction rounds generalizing node consumed remaining with
  | zero => exact absurd hrounds (Nat.not_lt_zero _)
  | succ rounds ih =>
    rw [firstPrefixFrom, if_neg (not_le.mpr hnode)]
    by_cases hends : (index.isEntry node && endsEntry includeExact remaining) = true
    · rw [if_pos hends]
      rw [Bool.and_eq_true] at hends
      refine ⟨_, rfl, fun declared hdeclared ↦ ?_, nofun⟩
      obtain rfl := Option.some.inj hdeclared
      exact ⟨hname ▸ h.entry node hends.1, endsEntry_iff.mp hends.2⟩
    · rw [if_neg hends]
      -- a path that a walk leads to goes along an edge whose label the rest starts with
      have hwalk : ∀ s n, Leads index node s n → index.isEntry n = true →
          CoversPath includeExact (consumed ++ s) (consumed ++ remaining) →
          ∃ first e t, index.edge node first = some e ∧ remaining.head? = some first ∧
            e.label <+: remaining ∧ s = e.label ++ t ∧ Leads index e.child t n := by
        intro s n hleads hentry hcovers
        cases hleads with
        | refl =>
          rw [List.append_nil] at hcovers
          exact absurd (Bool.and_eq_true_iff.mpr ⟨hentry, endsEntry_iff.mpr hcovers⟩) hends
        | @step _ _ first e t hedge hrest =>
          have hlabel : e.label <+: remaining := by
            rcases hcovers with hstart | ⟨-, heq⟩
            · rw [List.append_assoc, List.prefix_append_right_inj] at hstart
              exact (List.prefix_append _ _).trans ((List.prefix_append _ _).trans hstart)
            · rw [List.append_cancel_left heq]
              exact List.prefix_append _ _
          have hhead : remaining.head? = some first := by
            obtain ⟨rest, rfl⟩ := hlabel
            rw [List.head?_append, (h.edge _ _ _ hedge).2.1]
            rfl
          exact ⟨first, e, t, hedge, hhead, hlabel, rfl, hrest⟩
      cases hnext : remaining.head?.bind fun first ↦ index.edge node first with
      | none =>
        refine ⟨none, rfl, nofun, fun _ s n hleads hentry hcovers ↦ ?_⟩
        obtain ⟨first, e, t, hedge, hhead, -⟩ := hwalk s n hleads hentry hcovers
        rw [hhead, Option.bind_some, hedge] at hnext
        cases hnext
      | some e =>
        obtain ⟨first, hhead, hedge⟩ := Option.bind_eq_some_iff.mp hnext
        obtain ⟨hchild, hfirst, hnames⟩ := h.edge node first e hedge
        have hsame : ∀ first' e', index.edge node first' = some e' →
            remaining.head? = some first' → e' = e := by
          intro first' e' hedge' hhead'
          obtain rfl := Option.some.inj (hhead'.symm.trans hhead)
          exact Option.some.inj (hedge'.symm.trans hedge)
        by_cases hcommon : commonPrefix remaining e.label = e.label.length
        · simp only [hcommon, ne_eq, not_true_eq_false, if_false]
          obtain ⟨rest, rfl⟩ := commonPrefix_eq_length_iff.mp hcommon
          rw [List.take_left, List.drop_left]
          have hpos : 0 < e.label.length := by
            cases hlabel : e.label with
            | nil => simp [hlabel] at hfirst
            | cons a label => exact Nat.succ_pos _
          rw [List.length_append] at hrounds
          rw [hname] at hnames
          obtain ⟨found, hfound, hsome, hnone⟩ :=
            ih hnames hchild (by omega : rest.length < rounds)
          rw [List.append_assoc] at hsome
          refine ⟨found, hfound, hsome, fun hnot s n hleads hentry hcovers ↦ ?_⟩
          obtain ⟨first', e', t, hedge', hhead', -, rfl, hrest⟩ := hwalk s n hleads hentry hcovers
          obtain rfl := hsame first' e' hedge' hhead'
          refine hnone hnot t n hrest hentry ?_
          rwa [List.append_assoc, List.append_assoc]
        · simp only [hcommon, ne_eq, not_false_eq_true, if_true]
          refine ⟨none, rfl, nofun, fun _ s n hleads hentry hcovers ↦ ?_⟩
          obtain ⟨first', e', t, hedge', hhead', hlabel, -⟩ := hwalk s n hleads hentry hcovers
          obtain rfl := hsame first' e' hedge' hhead'
          exact hcommon (commonPrefix_eq_length_iff.mpr hlabel)

/-- The search finds a declared path exactly where one covers the query. -/
theorem firstPrefix_spec (h : Indexes index members) (path : List Char) (includeExact : Bool) :
    ∃ found, firstPrefix index path includeExact = some found ∧
      (∀ declared ∈ found, declared ∈ members ∧ CoversPath includeExact declared path) ∧
      (found = none → ∀ declared ∈ members, ¬CoversPath includeExact declared path) := by
  obtain ⟨⟨names, hnames⟩, hcomplete⟩ := h
  obtain ⟨found, hfound, hsome, hnone⟩ := firstPrefixFrom_spec includeExact hnames hnames.root
    hnames.size_pos (Nat.lt_succ_self path.length)
  refine ⟨found, hfound, hsome, fun hnot declared hmem ↦ ?_⟩
  obtain ⟨n, hleads, hentry⟩ := hcomplete declared hmem
  exact hnone hnot declared n hleads hentry

/-! ## The insertion -/

/-- What an insertion of `path` makes of an index whose nodes have names: the walks and the entries
stay, and a walk from the node on leads to an entry through what remains. -/
structure Inserts (index index' : PrefixIndex) (members' : Set (List Char)) (node : ℕ)
    (remaining : List Char) : Prop where
  grows : Grows index index'
  named : ∃ names, Names index' names members'
  leads : ∃ n, Leads index' node remaining n ∧ index'.isEntry n = true

theorem split_spec {members' : Set (List Char)} {first : Char} {e : RadixEdge Char}
    (h : Names index names members) (hname : names node = consumed)
    (hedge : index.edge node first = some e) (hfirst : remaining.head? = some first)
    (hcommon : commonPrefix remaining e.label ≠ e.label.length)
    (hsub : members ⊆ members') (hpath : consumed ++ remaining ∈ members') :
    ∃ index', split index node first e (commonPrefix remaining e.label) remaining = some index' ∧
      Inserts index index' members' node remaining := by
  have htake := take_commonPrefix remaining e.label
  have hle := commonPrefix_le_length remaining e.label
  have hpos := commonPrefix_pos hfirst (h.edge node first e hedge).2.1
  have hne := @head?_drop_commonPrefix_ne remaining e.label
  have hnode := lt_size_of_edge hedge
  generalize commonPrefix remaining e.label = k at *
  have hfront : (e.label.take k).head? = some first := by
    rw [List.head?_take, if_neg hpos.ne', (h.edge node first e hedge).2.1]
  obtain ⟨second, hback⟩ : ∃ second, (e.label.drop k).head? = some second := by
    rw [List.head?_drop]
    exact ⟨_, List.getElem?_eq_getElem (lt_of_le_of_ne hle.2 hcommon)⟩
  have hlabel : e.label = e.label.take k ++ e.label.drop k := (List.take_append_drop k _).symm
  have hgrows := grows_splitEdge second hedge hlabel
  have hnames := h.splitEdge hedge hlabel hfront hback hsub
  have hmiddle := leads_splitEdge first second e (e.label.take k) (e.label.drop k) hnode
  have hsize : index.size <
      (index.splitEdge node first e (e.label.take k) (e.label.drop k) second).size := by
    rw [size_splitEdge]
    exact Nat.lt_succ_self _
  rw [hname] at hnames
  rw [split]
  simp only [hback, Option.bind_eq_bind, Option.bind_some]
  generalize e.label.take k = front at *
  have hextend : extend names index.size (consumed ++ front) index.size = consumed ++ front :=
    extend_self
  by_cases hend : k = remaining.length
  · -- the path ends in the middle of the edge
    rw [hend, List.take_length] at htake
    subst htake
    rw [if_pos hend]
    refine ⟨_, rfl, hgrows.trans (grows_setEntry hsize),
      ⟨_, hnames.setEntry hsize subset_rfl (by rwa [hextend])⟩, index.size, ?_, ?_⟩
    · exact hmiddle.grows (grows_setEntry hsize)
    · rw [isEntry_setEntry _ _ _ hsize, decide_eq_true rfl, Bool.true_or]
  · obtain ⟨third, hthird⟩ : ∃ third, (remaining.drop k).head? = some third := by
      rw [List.head?_drop]
      exact ⟨_, List.getElem?_eq_getElem (lt_of_le_of_ne hle.1 hend)⟩
    have hremaining : front ++ remaining.drop k = remaining := by
      rw [← htake, List.take_append_drop]
    rw [if_neg hend]
    simp only [hthird, Option.bind_some]
    have hnone : (index.splitEdge node first e front (e.label.drop k) second).edge index.size
        third = none := by
      rw [edge_splitEdge hnode, if_neg (fun heq ↦ hnode.ne' heq.1), if_pos rfl,
        if_neg (hne hthird hback)]
    refine ⟨_, rfl, hgrows.trans (grows_addLeaf hsize hnone),
      ⟨_, hnames.addLeaf hsize hthird subset_rfl ?_⟩, _, ?_, (leads_addLeaf hsize).2⟩
    · rwa [hextend, List.append_assoc, hremaining]
    · convert (hmiddle.grows (grows_addLeaf hsize hnone)).trans (leads_addLeaf hsize).1 using 1
      exact hremaining.symm

/-- An insertion from a node on adds the path to what the index is sound for. -/
theorem insertFrom_spec {members' : Set (List Char)} (h : Names index names members)
    (hname : names node = consumed) (hnode : node < index.size)
    (hrounds : remaining.length < rounds) (hsub : members ⊆ members')
    (hpath : consumed ++ remaining ∈ members') :
    ∃ index', insertFrom index rounds node remaining = some index' ∧
      Inserts index index' members' node remaining := by
  induction rounds generalizing node consumed remaining with
  | zero => exact absurd hrounds (Nat.not_lt_zero _)
  | succ rounds ih =>
    rw [insertFrom, if_neg (not_le.mpr hnode)]
    cases hhead : remaining.head? with
    | none =>
      obtain rfl : remaining = [] := List.head?_eq_none_iff.mp hhead
      rw [List.append_nil] at hpath
      refine ⟨_, rfl, grows_setEntry hnode, ⟨names, h.setEntry hnode hsub (hname ▸ hpath)⟩,
        node, .refl _, ?_⟩
      rw [isEntry_setEntry _ _ _ hnode, decide_eq_true rfl, Bool.true_or]
    | some first =>
      cases hedge : index.edge node first with
      | none =>
        simp only [hedge]
        exact ⟨_, rfl, grows_addLeaf hnode hedge,
          ⟨_, h.addLeaf hnode hhead hsub (hname ▸ hpath)⟩, _, leads_addLeaf hnode⟩
      | some e =>
        simp only [hedge]
        by_cases hcommon : commonPrefix remaining e.label = e.label.length
        · -- the whole label is a prefix of what is left, and the rest goes below the child
          obtain ⟨hchild, hfirst, hnames⟩ := h.edge node first e hedge
          rw [if_pos hcommon, hcommon]
          obtain ⟨rest, rfl⟩ := commonPrefix_eq_length_iff.mp hcommon
          have hpos : 0 < e.label.length := by
            cases hlabel : e.label with
            | nil => simp [hlabel] at hfirst
            | cons a label => exact Nat.succ_pos _
          rw [List.length_append] at hrounds
          rw [hname] at hnames
          rw [← List.append_assoc] at hpath
          rw [List.drop_left]
          obtain ⟨index', hindex', hgrows, hnamed, n, hleads, hentry⟩ :=
            ih hnames hchild (by omega : rest.length < rounds) hpath
          exact ⟨index', hindex', hgrows, hnamed, n,
            (hgrows.leads _ _ _ hedge).trans hleads, hentry⟩
        · -- the path leaves the label within it, where a node is put between
          rw [if_neg hcommon]
          exact split_spec h hname hedge hhead hcommon hsub hpath

/-- An insertion adds the path to the set. -/
theorem insert_spec (h : Indexes index members) (path : List Char) :
    ∃ index', index.insert path = some index' ∧ Indexes index' (Set.insert path members) := by
  obtain ⟨⟨names, hnames⟩, hcomplete⟩ := h
  obtain ⟨index', hindex', hgrows, hnamed, n, hleads, hentry⟩ :=
    insertFrom_spec hnames hnames.root hnames.size_pos (Nat.lt_succ_self path.length)
      (Set.subset_insert path members) (Set.mem_insert path members)
  refine ⟨index', hindex', hnamed, fun s hs ↦ ?_⟩
  rcases hs with rfl | hs
  · exact ⟨n, hleads, hentry⟩
  · obtain ⟨m, hm, hmentry⟩ := hcomplete s hs
    exact ⟨m, hm.grows hgrows, hgrows.entry m hmentry⟩

theorem indexes_empty : Indexes PrefixIndex.empty ∅ := by
  refine ⟨⟨fun _ ↦ [], rfl, Nat.one_pos, fun n c e hedge ↦ ?_, fun n hentry ↦ ?_⟩, nofun⟩
  · obtain rfl : n = 0 := Nat.lt_one_iff.mp (lt_size_of_edge hedge)
    cases hedge
  · obtain rfl : n = 0 := Nat.lt_one_iff.mp (lt_size_of_isEntry hentry)
    cases hentry

end PrefixIndex

namespace PathCoverage

/-- The coverage holds the declared paths, in whatever order they are inserted. -/
theorem foldlM_insert (paths : List String) {index : PrefixIndex} {members : Set (List Char)}
    (h : index.Indexes members) :
    ∃ index', paths.foldlM (fun prefixes path ↦ PrefixIndex.insert prefixes path.toList) index =
      some index' ∧ index'.Indexes (members ∪ {s | ∃ path ∈ paths, path.toList = s}) := by
  induction paths generalizing index members with
  | nil => exact ⟨index, rfl, by simpa using h⟩
  | cons path paths ih =>
    obtain ⟨index', hindex', h'⟩ := PrefixIndex.insert_spec h path.toList
    obtain ⟨index'', hindex'', h''⟩ := ih h'
    refine ⟨index'', by rw [List.foldlM_cons, hindex']; exact hindex'', ?_⟩
    have hset : members ∪ {s | ∃ p ∈ path :: paths, p.toList = s} =
        Set.insert path.toList members ∪ {s | ∃ p ∈ paths, p.toList = s} := by
      ext s
      constructor
      · rintro (hs | ⟨p, hp, rfl⟩)
        · exact Or.inl (Or.inr hs)
        · rcases List.mem_cons.mp hp with rfl | hp
          · exact Or.inl (Or.inl rfl)
          · exact Or.inr ⟨p, hp, rfl⟩
      · rintro ((rfl | hs) | ⟨p, hp, rfl⟩)
        · exact Or.inr ⟨path, List.mem_cons_self, rfl⟩
        · exact Or.inl hs
        · exact Or.inr ⟨p, List.mem_cons_of_mem path hp, rfl⟩
    rwa [hset]

/-- A path is covered when it is declared or is in the directory of a declared path, in whatever
order these are inserted. -/
theorem covers_foldlM_insert (ordered : List String) :
    ∃ index, ordered.foldlM (fun prefixes path ↦ PrefixIndex.insert prefixes path.toList)
        PrefixIndex.empty = some index ∧
      ∀ q, ∃ covered, covers ⟨index⟩ q = some covered ∧
        (covered = true ↔ ∃ p ∈ ordered, q = p ∨ (p ++ "/").toList <+: q.toList) := by
  obtain ⟨index, hindex, h⟩ := foldlM_insert ordered PrefixIndex.indexes_empty
  rw [Set.empty_union] at h
  refine ⟨index, hindex, fun q ↦ ?_⟩
  obtain ⟨found, hfound, hsome, hnone⟩ := PrefixIndex.firstPrefix_spec h q.toList true
  refine ⟨found.isSome, by rw [covers, hfound]; rfl, ?_⟩
  have hcovers : ∀ p : String, CoversPath true p.toList q.toList ↔
      (q = p ∨ (p ++ "/").toList <+: q.toList) := by
    intro p
    rw [CoversPath, String.toList_append, String.toList_inj, or_comm]
    simp
  constructor
  · intro hfoundSome
    obtain ⟨declared, rfl⟩ := Option.isSome_iff_exists.mp hfoundSome
    obtain ⟨⟨p, hp, rfl⟩, hdeclaredCovers⟩ := hsome declared rfl
    exact ⟨p, hp, (hcovers p).mp hdeclaredCovers⟩
  · rintro ⟨p, hp, hpq⟩
    by_contra hnot
    rw [Option.not_isSome_iff_eq_none] at hnot
    exact hnone hnot p.toList ⟨p, hp, rfl⟩ ((hcovers p).mpr hpq)

theorem covers_new (paths : List String) :
    ∃ coverage, PathCoverage.new paths = some coverage ∧ ∀ q, ∃ covered,
      coverage.covers q = some covered ∧
        (covered = true ↔ ∃ p ∈ paths, q = p ∨ (p ++ "/").toList <+: q.toList) := by
  obtain ⟨index, hindex, h⟩ :=
    covers_foldlM_insert (sortOn (fun path : String ↦ byteSize path.toList) paths)
  refine ⟨⟨index⟩, by rw [PathCoverage.new, hindex]; rfl, fun q ↦ ?_⟩
  obtain ⟨covered, hcovered, hiff⟩ := h q
  refine ⟨covered, hcovered, hiff.trans (exists_congr fun p ↦ and_congr_left fun _ ↦ ?_)⟩
  exact (sortOn_perm _ paths).mem_iff

end PathCoverage

end Khive.Blob
