import Khive.Query.SparqlCollect

/-!
# Which conjuncts lowering keeps

A block of triples becomes a query exactly when the triples are consistent, the edges are a simple
path, and only variables on the path have kinds and string constraints. The elements are then that
path, and every other triple is a kind, an entity type, a property or a condition. None of this
depends on the order of the triples, but for which spelling of a repeated string is kept.

A number is compared in a condition, and nothing checks that its variable is on the path. So the
conjuncts are kept exactly where the block is refused anyway or its numbers are on the path
(`lowersFaithfully_iff`).
-/

namespace Khive

namespace Query

namespace Sparql

/-! ## Kinds that share the slot -/

section Kinds

variable {kinds : OrderedMap String String} {entries : List (String × String)}
  {conditions : List Condition} {v kind : String}

/-- The condition that a granular kind becomes. -/
def kindCondition (granular : String × String) : Condition :=
  ⟨granular.1, .field "kind", .eq, .string granular.2⟩

theorem get_placeGranularKind (s : OrderedMap String String × List Condition)
    (granular : String × String) (v : String) : (placeGranularKind s granular).1.get v =
      if v = granular.1 then (s.1.get v).or (some granular.2) else s.1.get v := by
  rw [placeGranularKind]
  rcases hfound : s.1.get granular.1 with - | existing
  · rw [OrderedMap.get_insert]
    split_ifs with h
    · rw [h, hfound, Option.none_or]
    · rfl
  · split_ifs with h
    · rw [h, hfound, Option.some_or]
    · rfl

theorem placeGranularKind_conditions (s : OrderedMap String String × List Condition)
    (granular : String × String) : (placeGranularKind s granular).2 =
      s.2 ++ if (s.1.get granular.1).isSome then [kindCondition granular] else [] := by
  rw [placeGranularKind]
  rcases s.1.get granular.1 with - | existing
  · simp
  · rfl

/-- The kind of a variable is the one there, or else its granular kind. -/
theorem get_foldl_placeGranularKind (hnodup : (entries.map Prod.fst).Nodup) (v : String) :
    (entries.foldl placeGranularKind (kinds, conditions)).1.get v =
      (kinds.get v).or (entries.lookup v) := by
  induction entries generalizing kinds conditions with
  | nil => simp
  | cons e entries ih =>
    obtain ⟨hnot, hnodup⟩ := List.nodup_cons.mp hnodup
    rw [List.foldl_cons, ih hnodup, get_placeGranularKind, List.lookup_cons]
    by_cases h : v = e.1
    · have hnone : entries.lookup v = none := SortedMap.lookup_eq_none_iff.mpr (h ▸ hnot)
      rw [if_pos h, hnone, Option.or_none, h, beq_self_eq_true]
    · rw [if_neg h, beq_false_of_ne h]

/-- A granular kind next to another kind becomes a condition. -/
theorem foldl_placeGranularKind_conditions (hnodup : (entries.map Prod.fst).Nodup) :
    (entries.foldl placeGranularKind (kinds, conditions)).2 =
      conditions ++ (entries.filter fun e ↦ (kinds.get e.1).isSome).map kindCondition := by
  induction entries generalizing kinds conditions with
  | nil => simp
  | cons e entries ih =>
    obtain ⟨hnot, hnodup⟩ := List.nodup_cons.mp hnodup
    -- the kind placed here is of no later entry
    have hrest : (entries.filter fun f ↦
        ((placeGranularKind (kinds, conditions) e).1.get f.1).isSome) =
          entries.filter fun f ↦ (kinds.get f.1).isSome := by
      refine List.filter_congr fun f hf ↦ ?_
      have hne : f.1 ≠ e.1 := fun heq ↦ hnot (heq ▸ List.mem_map_of_mem hf)
      rw [get_placeGranularKind, if_neg hne]
    rw [List.foldl_cons, ih hnodup, hrest, placeGranularKind_conditions, List.append_assoc,
      List.filter_cons]
    split_ifs
    · simp
    · simp

variable {s : Collected}

theorem get_placeKinds (s : Collected) (v : String) :
    (placeKinds s).1.get v = (s.substrateKinds.get v).or (s.granularKinds.get v) :=
  get_foldl_placeGranularKind s.granularKinds.nodup_keys v

theorem placeKinds_conditions (s : Collected) : (placeKinds s).2 = s.conditions ++
    (s.granularKinds.entries.filter fun e ↦ (s.substrateKinds.get e.1).isSome).map kindCondition :=
  foldl_placeGranularKind_conditions s.granularKinds.nodup_keys

/-- Each kind has the slot or a condition. -/
theorem kind_placed {ts : List Triple} (h : Describes ts s) {t : Triple} (ht : t ∈ ts)
    (hkind : t.kind? = some kind) : (placeKinds s).1.get t.subject = some kind ∨
      ((placeKinds s).1.get t.subject).isSome ∧
        kindCondition (t.subject, kind) ∈ (placeKinds s).2 := by
  rw [get_placeKinds, placeKinds_conditions]
  by_cases hlevel : isSubstrate kind = true
  · have hget := (h.substrate t.subject kind).mpr ⟨t, ht, rfl, hkind, hlevel⟩
    exact Or.inl (by rw [hget, Option.some_or])
  · have hget := (h.granular t.subject kind).mpr ⟨t, ht, rfl, hkind, by simpa using hlevel⟩
    rcases hsubstrate : s.substrateKinds.get t.subject with - | substrate
    · exact Or.inl (by rw [hget, Option.none_or])
    · refine Or.inr ⟨by rw [Option.some_or]; rfl, List.mem_append_right _ (List.mem_map_of_mem ?_)⟩
      exact List.mem_filter.mpr ⟨OrderedMap.get_eq_some.mp hget, by simp [hsubstrate]⟩

end Kinds

/-! ## Conditions -/

/-- A tree without a choice: every condition of it has to hold. -/
def IsConjunction : WhereExpr → Prop
  | .and l r => IsConjunction l ∧ IsConjunction r
  | .or _ _ => False
  | .condition _ | .true => True

theorem isConjunction_foldConditions (conditions : List Condition) :
    IsConjunction (foldConditions conditions) := by
  rw [foldConditions]
  apply List.foldlRecOn (motive := IsConjunction)
  · trivial
  · intro acc hacc c _
    rcases acc with ⟨l, r⟩ | ⟨l, r⟩ | d | _
    · exact ⟨hacc, trivial⟩
    · exact hacc.elim
    · exact ⟨trivial, trivial⟩
    · trivial

/-- The fold has every condition, in order. -/
theorem conditions_foldConditions (conditions : List Condition) :
    (foldConditions conditions).conditions = conditions := by
  rw [foldConditions]
  induction conditions using List.reverseRecOn with
  | nil => rfl
  | append_singleton conditions c ih =>
    rw [List.foldl_append, List.foldl_cons, List.foldl_nil]
    generalize conditions.foldl _ WhereExpr.true = acc at ih ⊢
    rcases acc with ⟨l, r⟩ | ⟨l, r⟩ | d | _
    · exact congrArg (· ++ [c]) ih
    · exact congrArg (· ++ [c]) ih
    · exact congrArg (· ++ [c]) ih
    · rw [WhereExpr.conditions] at ih
      rw [← ih]
      rfl

/-! ## The order of the edges -/

section Order

variable {edges path : List RelationEdge}

theorem orderEdges_spec (h : orderEdges edges = .ok path) :
    path ≠ [] ∧ path.Perm edges ∧ path.IsChain fun a b ↦ a.tgt = b.src := by
  rcases edges with - | ⟨first, edges⟩
  · cases h
  rw [orderEdges] at h
  simp only at h
  split_ifs at h with hmany hunused hempty
  obtain rfl := Except.ok.inj h
  refine ⟨hempty, ?_, (walkFrom_joined _ _ _).1⟩
  have hperm := @walkFrom_perm _ _ RelationEdge.src RelationEdge.tgt _ _ (first :: edges).length
    ((startCandidates RelationEdge.src RelationEdge.tgt (first :: edges)).head?.getD first.src)
    (first :: edges)
  rw [not_ne_iff] at hunused
  rwa [hunused, List.append_nil] at hperm

/-- A simple path is found, whatever the order its edges are given in. -/
theorem orderEdges_eq (hpath : path ≠ [])
    (h : IsSimplePath RelationEdge.src RelationEdge.tgt edges path) :
    orderEdges edges = .ok path := by
  rcases edges with - | ⟨first, edges⟩
  · exact absurd h.perm.eq_nil hpath
  rcases path with - | ⟨e, path⟩
  · exact absurd rfl hpath
  have hwalk := walkFrom_eq (first :: edges).length e.src h.perm h.joined h.nodup_sources (by simp)
    h.perm.length_eq.le
  rw [orderEdges]
  simp only [h.startCandidates_eq, List.length_singleton, List.head?_cons, Option.getD_some, hwalk]
  rfl

theorem mem_pathVars (hjoined : path.IsChain fun a b ↦ a.tgt = b.src) {v : String} :
    v ∈ pathVars path ↔ v ∈ pathPoints RelationEdge.src RelationEdge.tgt path := by
  have hvars : v ∈ pathVars path ↔
      v ∈ path.map RelationEdge.src ∨ v ∈ path.map RelationEdge.tgt := by
    rw [pathVars, List.mem_flatMap, List.mem_map, List.mem_map, ← exists_or]
    refine exists_congr fun e ↦ ?_
    rw [List.mem_cons, List.mem_singleton, ← and_or_left, eq_comm (b := e.src),
      eq_comm (b := e.tgt)]
  rw [hvars]
  rcases path with - | ⟨e, path⟩
  · simp [pathPoints]
  obtain ⟨last, hpoints⟩ := pathPoints_eq hjoined
  constructor
  · rintro (hv | hv)
    · rw [hpoints]
      exact List.mem_append_left _ hv
    · exact List.mem_cons_of_mem _ hv
  · intro hv
    rcases List.mem_cons.mp hv with rfl | hv
    · exact Or.inl List.mem_cons_self
    · exact Or.inr hv

/-- A simple path has the variables of its edges. -/
theorem mem_pathVars_edges (h : IsSimplePath RelationEdge.src RelationEdge.tgt edges path)
    {v : String} :
    v ∈ pathVars edges ↔ v ∈ pathPoints RelationEdge.src RelationEdge.tgt path := by
  rw [← mem_pathVars h.joined]
  exact (h.perm.flatMap_right _).mem_iff.symm

end Order

/-! ## The elements -/

section Elements

variable {node : String → NodePattern} {path : List RelationEdge}

/-- The elements behind the first node of a path. -/
def stepsOf (node : String → NodePattern) (path : List RelationEdge) : List PatternElement :=
  path.flatMap fun e ↦ [edgeOf e, .node (node e.tgt)]

/-- A path as a pattern: the nodes of its points, and between them its edges. -/
def patternOf (node : String → NodePattern) : List RelationEdge → List PatternElement
  | [] => []
  | e :: path => .node (node e.src) :: stepsOf node (e :: path)

theorem stepsOf_cons (e : RelationEdge) (path : List RelationEdge) :
    stepsOf node (e :: path) = edgeOf e :: .node (node e.tgt) :: stepsOf node path := rfl

theorem length_stepsOf (path : List RelationEdge) :
    (stepsOf node path).length = 2 * path.length := by
  induction path with
  | nil => rfl
  | cons e path ih =>
    rw [stepsOf_cons, List.length_cons, List.length_cons, ih, List.length_cons]
    omega

theorem alternates_stepsOf (parity : ℕ) (hparity : parity % 2 = 1) (path : List RelationEdge) :
    alternates parity (stepsOf node path) = true := by
  induction path generalizing parity with
  | nil => rfl
  | cons e path ih =>
    have hnext : (parity + 1) % 2 = 0 := by omega
    have hrest := ih (parity + 1 + 1) (by omega)
    rw [stepsOf_cons, edgeOf, alternates, alternates, hparity, hnext, hrest]
    rfl

theorem validatePatternShape_patternOf (path : List RelationEdge) :
    validatePatternShape (patternOf node path) = .ok () := by
  rcases path with - | ⟨e, path⟩
  · rfl
  · have hlength : (patternOf node (e :: path)).length % 2 = 1 := by
      rw [patternOf, List.length_cons, length_stepsOf]
      omega
    have halternates : alternates 0 (patternOf node (e :: path)) = true := by
      rw [patternOf, alternates, alternates_stepsOf 1 rfl]
      rfl
    rw [validatePatternShape, hlength, halternates]
    rfl

/-- The variables are bound once each when no point is passed twice. -/
theorem checkVariables_stepsOf (hvar : ∀ v, (node v).var = some v) (seen : List String)
    (path : List RelationEdge) : checkVariables seen [] (stepsOf node path) = .ok () ↔
      (path.map RelationEdge.tgt).Nodup ∧ ∀ v ∈ path.map RelationEdge.tgt, v ∉ seen := by
  induction path generalizing seen with
  | nil =>
    refine iff_of_true rfl ⟨List.nodup_nil, fun v hv ↦ absurd hv List.not_mem_nil⟩
  | cons e path ih =>
    -- edges are unnamed here and bind nothing
    have hedge : ∀ rest, checkVariables seen [] (edgeOf e :: rest) = checkVariables seen [] rest :=
      fun rest ↦ rfl
    rw [stepsOf_cons, hedge, checkVariables, hvar]
    simp only [List.not_mem_nil, if_false]
    by_cases hseen : e.tgt ∈ seen
    · rw [if_pos hseen]
      refine iff_of_false throw_ne_ok ?_
      rintro ⟨-, hnot⟩
      exact hnot e.tgt List.mem_cons_self hseen
    · rw [if_neg hseen, ih, List.map_cons, List.nodup_cons]
      constructor
      · rintro ⟨hnodup, hnot⟩
        refine ⟨⟨fun hmem ↦ hnot _ hmem List.mem_cons_self, hnodup⟩, ?_⟩
        intro v hv
        rcases List.mem_cons.mp hv with rfl | hv
        · exact hseen
        · exact fun hmem ↦ hnot v hv (List.mem_cons_of_mem _ hmem)
      · rintro ⟨⟨hfresh, hnodup⟩, hnot⟩
        refine ⟨hnodup, fun v hv hmem ↦ ?_⟩
        rcases List.mem_cons.mp hmem with rfl | hmem
        · exact hfresh hv
        · exact hnot v (List.mem_cons_of_mem _ hv) hmem

theorem checkVariables_patternOf (hvar : ∀ v, (node v).var = some v) (path : List RelationEdge) :
    checkVariables [] [] (patternOf node path) = .ok () ↔
      (pathPoints RelationEdge.src RelationEdge.tgt path).Nodup := by
  rcases path with - | ⟨e, path⟩
  · exact iff_of_true rfl List.nodup_nil
  · rw [patternOf, checkVariables, hvar]
    simp only [List.not_mem_nil, if_false]
    rw [checkVariables_stepsOf hvar, pathPoints, List.nodup_cons, and_comm]
    refine and_congr_left fun _ ↦ ?_
    constructor
    · intro h hmem
      exact h _ hmem (List.mem_singleton_self _)
    · intro h v hv hmem
      exact h (List.mem_singleton.mp hmem ▸ hv)

end Elements

/-! ## The nodes -/

/-- The governed field of the properties, when it is a string. -/
def entityTypeOf : Option ConditionValue → Option String
  | some (.string s) => some s
  | _ => none

/-- The node that the collected constraints make of a variable. -/
def nodeFor (s : Collected) (v : String) : NodePattern where
  var := some v
  kind := (placeKinds s).1.get v
  entityType := entityTypeOf (kept s.nodeProps v "entity_type")
  properties := ((propsOf s.nodeProps v).erase "entity_type").entries

/-- The query that is collected, with its edges in order. -/
def queryOf (s : Collected) (path : List RelationEdge) (returnItems : List String)
    (limit : Option UInt64) : GqlQuery where
  elements := patternOf (nodeFor s) path
  whereClause := foldConditions (placeKinds s).2
  returnItems := returnItems.map .whole
  offset := 0
  limit := limit

section Lower

variable {ts ts' : List Triple} {s s' : Collected} {path : List RelationEdge}
  {returnItems : List String} {limit : Option UInt64} {q : GqlQuery}

theorem nodeOf_eq (h : Describes ts s) (v : String) :
    nodeOf (placeKinds s).1 s.nodeProps v = .ok (.node (nodeFor s v)) := by
  rw [nodeOf, extractEntityType, nodeFor, kept]
  rcases hfound : (propsOf s.nodeProps v).get "entity_type" with - | value
  · rfl
  · obtain ⟨_, _, _, value, _, rfl⟩ := h.props.stored v "entity_type" value hfound
    rfl

theorem elementsAfter_eq (h : Describes ts s) (path : List RelationEdge) :
    elementsAfter (placeKinds s).1 s.nodeProps path = .ok (stepsOf (nodeFor s) path) := by
  induction path with
  | nil => rfl
  | cons e path ih =>
    rw [elementsAfter, nodeOf_eq h, ok_bind, ih, ok_bind]
    rfl

/-- Only variables on the path are constrained. -/
structure OnPath (s : Collected) (path : List RelationEdge) : Prop where
  kinds : ∀ v, ((placeKinds s).1.get v).isSome →
    v ∈ pathPoints RelationEdge.src RelationEdge.tgt path
  props : ∀ v, (s.nodeProps.get v).isSome →
    v ∈ pathPoints RelationEdge.src RelationEdge.tgt path

theorem checkConnected_eq_ok {α : Type} {vars : List String} {constrained : OrderedMap String α} :
    checkConnected vars constrained = .ok () ↔ ∀ v, (constrained.get v).isSome → v ∈ vars := by
  rw [checkConnected, forM_eq_ok]
  simp only [OrderedMap.mem_keys]
  refine forall₂_congr fun v _ ↦ ?_
  split_ifs with h
  · exact iff_of_true rfl h
  · exact iff_of_false (fun heq ↦ by cases heq) h

/-- A path whose order is found is simple when its variables are bound once each. -/
theorem orderEdges_and_checkVariables {edges : List RelationEdge} {node : String → NodePattern}
    (hvar : ∀ v, (node v).var = some v) : orderEdges edges = .ok path ∧
      checkVariables [] [] (patternOf node path) = .ok () ↔
        path ≠ [] ∧ IsSimplePath RelationEdge.src RelationEdge.tgt edges path := by
  rw [checkVariables_patternOf hvar]
  constructor
  · rintro ⟨horder, hsimple⟩
    obtain ⟨hne, hperm, hjoined⟩ := orderEdges_spec horder
    exact ⟨hne, hperm, hjoined, hsimple⟩
  · rintro ⟨hne, hpath⟩
    exact ⟨orderEdges_eq hne hpath, hpath.simple⟩

theorem triplesToAst_eq_ok (h : Describes ts s) (hcollect : collect ts = .ok s) :
    triplesToAst ts returnItems limit = .ok q ↔ ∃ path, orderEdges s.edges = .ok path ∧
      OnPath s path ∧ queryOf s path returnItems limit = q := by
  rw [triplesToAst, hcollect, ok_bind]
  change (orderEdges s.edges >>= _) = _ ↔ _
  rw [bind_eq_ok]
  refine exists_congr fun path ↦ and_congr_right fun horder ↦ ?_
  obtain ⟨hne, -, hjoined⟩ := orderEdges_spec horder
  have hconnected : ∀ {α : Type} (constrained : OrderedMap String α),
      checkConnected (pathVars path) constrained = .ok () ↔ ∀ v, (constrained.get v).isSome →
        v ∈ pathPoints RelationEdge.src RelationEdge.tgt path := by
    intro α constrained
    rw [checkConnected_eq_ok]
    exact forall₂_congr fun v _ ↦ mem_pathVars hjoined
  rw [seq_eq_ok, seq_eq_ok, hconnected, hconnected, ← and_assoc]
  refine and_congr ⟨fun hon ↦ ⟨hon.1, hon.2⟩, fun hon ↦ ⟨hon.kinds, hon.props⟩⟩ ?_
  have hplace : s.granularKinds.entries.foldl placeGranularKind
      (s.substrateKinds, s.conditions) = placeKinds s := rfl
  rw [hplace, nodeOf_eq h, ok_bind, elementsAfter_eq h, ok_bind, pure_eq_ok]
  obtain ⟨e, path, rfl⟩ := List.exists_cons_of_ne_nil hne
  rfl

/-- When a block is lowered, and to what. -/
theorem lower_eq_ok : lower ts returnItems limit = .ok q ↔
    ∃ s path, collect ts = .ok s ∧ path ≠ [] ∧
      IsSimplePath RelationEdge.src RelationEdge.tgt s.edges path ∧ OnPath s path ∧
        queryOf s path returnItems limit = q := by
  have hlower : lower ts returnItems limit = .ok q ↔ triplesToAst ts returnItems limit = .ok q ∧
      validatePatternShape q.elements = .ok () ∧ checkVariables [] [] q.elements = .ok () := by
    rw [lower, bind_eq_ok]
    simp only [seq_eq_ok, mapError_eq_ok, pure_eq_ok]
    constructor
    · rintro ⟨_, hast, hshape, hvars, rfl⟩
      exact ⟨hast, hshape, hvars⟩
    · rintro ⟨hast, hshape, hvars⟩
      exact ⟨q, hast, hshape, hvars, rfl⟩
  rw [hlower]
  constructor
  · rintro ⟨hast, -, hvars⟩
    obtain ⟨s, hcollect, -⟩ := bind_eq_ok.mp hast
    obtain ⟨path, horder, hon, rfl⟩ :=
      (triplesToAst_eq_ok (describes_of_collect hcollect) hcollect).mp hast
    obtain ⟨hne, hpath⟩ := (orderEdges_and_checkVariables fun _ ↦ rfl).mp ⟨horder, hvars⟩
    exact ⟨s, path, hcollect, hne, hpath, hon, rfl⟩
  · rintro ⟨s, path, hcollect, hne, hpath, hon, rfl⟩
    have hvar : ∀ v, (nodeFor s v).var = some v := fun _ ↦ rfl
    obtain ⟨horder, hvars⟩ := (orderEdges_and_checkVariables hvar).mpr ⟨hne, hpath⟩
    refine ⟨?_, validatePatternShape_patternOf path, hvars⟩
    exact (triplesToAst_eq_ok (describes_of_collect hcollect) hcollect).mpr
      ⟨path, horder, hon, rfl⟩

end Lower

/-! ## What is kept -/

/-- Where the query keeps a triple: an edge on the path, and a constraint at the node of its subject
or as a condition on it. -/
def Keeps (q : GqlQuery) (path : List RelationEdge) (node : String → NodePattern)
    (t : Triple) : Prop :=
  match t.predicate, t.object with
  | .type, .kind kind =>
    t.subject ∈ pathPoints RelationEdge.src RelationEdge.tgt path ∧
      ((node t.subject).kind = some kind ∨
        ⟨t.subject, .field "kind", .eq, .string kind⟩ ∈ q.whereClause.conditions)
  | .type, _ => False
  | .relation name minHops maxHops, .variable target =>
    ⟨t.subject, target, name, minHops, maxHops⟩ ∈ path
  | .relation name _ _, .stringLiteral value | .relation name _ _, .kind value =>
    t.subject ∈ pathPoints RelationEdge.src RelationEdge.tgt path ∧
      if name = "entity_type" then (node t.subject).entityType = some value
      else ∃ left, (name, .string left) ∈ (node t.subject).properties ∧ Agree name left value
  | .relation name _ _, .numberLiteral value =>
    t.subject ∈ pathPoints RelationEdge.src RelationEdge.tgt path ∧
      ⟨t.subject, .jsonPath [name], .eq, value⟩ ∈ q.whereClause.conditions

/-- The query says what the triples say: it is the simple path of their edges, and keeps all. -/
structure Lowered (ts : List Triple) (q : GqlQuery) (path : List RelationEdge)
    (node : String → NodePattern) : Prop where
  simple : IsSimplePath RelationEdge.src RelationEdge.tgt (ts.filterMap Triple.edge?) path
  nonempty : path ≠ []
  vars : ∀ v, (node v).var = some v
  names : ∀ v, ((node v).properties.map Prod.fst).Nodup
  elements : q.elements = patternOf node path
  conjunction : IsConjunction q.whereClause
  keeps : ∀ t ∈ ts, Keeps q path node t

/-- The two properties constrain the same name to strings that agree. -/
def SameProperty (p p' : String × ConditionValue) : Prop :=
  p.1 = p'.1 ∧ ∃ left right, p.2 = .string left ∧ p'.2 = .string right ∧ Agree p.1 left right

/-- The two nodes constrain the same variable in the same way. -/
structure SameConstraints (n n' : NodePattern) : Prop where
  var : n.var = n'.var
  kind : n.kind = n'.kind
  entityType : n.entityType = n'.entityType
  properties : ∀ p ∈ n.properties, ∃ p' ∈ n'.properties, SameProperty p p'
  properties' : ∀ p' ∈ n'.properties, ∃ p ∈ n.properties, SameProperty p p'

section Kept

variable {ts ts' : List Triple} {s s' : Collected} {path : List RelationEdge} {v name : String}
  {returnItems : List String} {limit : Option UInt64}

theorem isSome_nodeProps_of_kept {value : ConditionValue}
    (h : kept s.nodeProps v name = some value) : (s.nodeProps.get v).isSome := by
  rcases hget : s.nodeProps.get v with - | props
  · rw [kept, propsOf, hget] at h
    cases h
  · rfl

theorem mem_properties_nodeFor {value : ConditionValue} : (name, value) ∈ (nodeFor s v).properties ↔
    name ≠ "entity_type" ∧ kept s.nodeProps v name = some value := by
  rw [nodeFor, ← OrderedMap.get_eq_some, OrderedMap.get_erase, kept]
  split_ifs with h
  · simp [h]
  · simp [h]

theorem property_kept (h : Describes ts s) (hon : OnPath s path) {t : Triple} (ht : t ∈ ts)
    {value : String} (hread : t.property? = some (name, value)) :
    t.subject ∈ pathPoints RelationEdge.src RelationEdge.tgt path ∧
      if name = "entity_type" then (nodeFor s t.subject).entityType = some value
      else ∃ left, (name, .string left) ∈ (nodeFor s t.subject).properties ∧
        Agree name left value := by
  obtain ⟨left, hleft, hagree⟩ := h.props.agrees t ht name value hread
  refine ⟨hon.props t.subject (isSome_nodeProps_of_kept hleft), ?_⟩
  split_ifs with hname
  · rw [agree_iff, if_pos hname] at hagree
    rw [nodeFor, ← hname, hleft, hagree]
    rfl
  · exact ⟨left, mem_properties_nodeFor.mpr ⟨hname, hleft⟩, hagree⟩

theorem keeps_queryOf (h : Describes ts s) (hon : OnPath s path) (hperm : path.Perm s.edges)
    (hnumbers : ∀ t ∈ ts, t.number?.isSome →
      t.subject ∈ pathPoints RelationEdge.src RelationEdge.tgt path)
    {t : Triple} (ht : t ∈ ts) : Keeps (queryOf s path returnItems limit) path (nodeFor s) t := by
  have hwf := h.wellFormed t ht
  have hconditions : (queryOf s path returnItems limit).whereClause.conditions = (placeKinds s).2 :=
    conditions_foldConditions _
  obtain ⟨subject, predicate, object⟩ := t
  rcases predicate with - | ⟨name, minHops, maxHops⟩
  · obtain ⟨kind, rfl⟩ := hwf
    rcases kind_placed h ht rfl with hslot | ⟨hslot, hcondition⟩
    · exact ⟨hon.kinds subject (by rw [hslot]; rfl), Or.inl hslot⟩
    · refine ⟨hon.kinds subject hslot, Or.inr ?_⟩
      rw [hconditions]
      exact hcondition
  · rcases object with target | value | value | value
    · refine hperm.mem_iff.mpr ?_
      rw [h.edges]
      exact List.mem_filterMap.mpr ⟨_, ht, rfl⟩
    · exact property_kept h hon ht rfl
    · exact property_kept h hon ht rfl
    · refine ⟨hnumbers _ ht rfl, ?_⟩
      rw [hconditions, placeKinds_conditions, h.conditions]
      exact List.mem_append_left _ (List.mem_filterMap.mpr ⟨_, ht, rfl⟩)

/-- What is collected is lowered to the query that says it. -/
theorem lowered_queryOf (h : Describes ts s) (hne : path ≠ [])
    (hpath : IsSimplePath RelationEdge.src RelationEdge.tgt s.edges path) (hon : OnPath s path)
    (hnumbers : ∀ t ∈ ts, t.number?.isSome →
      t.subject ∈ pathPoints RelationEdge.src RelationEdge.tgt path) :
    Lowered ts (queryOf s path returnItems limit) path (nodeFor s) where
  simple := h.edges ▸ hpath
  nonempty := hne
  vars _ := rfl
  names _ := OrderedMap.nodup_keys _
  elements := rfl
  conjunction := isConjunction_foldConditions _
  keeps _ ht := keeps_queryOf h hon hpath.perm hnumbers ht

end Kept

/-! ## Another order of the triples -/

section Perm

variable {ts ts' : List Triple} {s s' : Collected} {path : List RelationEdge} {v name : String}

theorem placeKinds_perm (h : Describes ts s) (h' : Describes ts' s') (hperm : ts.Perm ts') :
    (∀ v, (placeKinds s).1.get v = (placeKinds s').1.get v) ∧
      (placeKinds s).2.Perm (placeKinds s').2 := by
  have hsubstrate := h.substrate.unique h'.substrate hperm
  have hgranular := h.granular.unique h'.granular hperm
  constructor
  · intro v
    rw [get_placeKinds, get_placeKinds, hsubstrate, hgranular]
  · rw [placeKinds_conditions, placeKinds_conditions, hsubstrate, hgranular, h.conditions,
      h'.conditions]
    exact (hperm.filterMap _).append_right _

/-- The values that are kept agree, though the first triple of a name may be another. -/
theorem kept_perm (h : Describes ts s) (h' : Describes ts' s') (hperm : ts.Perm ts')
    {value : ConditionValue} (hkept : kept s.nodeProps v name = some value) :
    ∃ left right, value = .string left ∧ kept s'.nodeProps v name = some (.string right) ∧
      Agree name left right := by
  obtain ⟨t, ht, rfl, left, hread, rfl⟩ := h.props.stored v name value hkept
  obtain ⟨right, hright, hagree⟩ := h'.props.agrees t (hperm.mem_iff.mp ht) name left hread
  exact ⟨left, right, rfl, hright, hagree.symm⟩

theorem OnPath.perm (hon : OnPath s path) (h : Describes ts s) (h' : Describes ts' s')
    (hperm : ts.Perm ts') : OnPath s' path := by
  constructor
  · intro v hv
    rw [← (placeKinds_perm h h' hperm).1] at hv
    exact hon.kinds v hv
  · intro v hv
    obtain ⟨t, ht, rfl, hread⟩ := h'.props.keyed v hv
    obtain ⟨⟨name, value⟩, hread⟩ := Option.isSome_iff_exists.mp hread
    obtain ⟨left, hleft, -⟩ := h.props.agrees t (hperm.mem_iff.mpr ht) name value hread
    exact hon.props _ (isSome_nodeProps_of_kept hleft)

theorem entityType_perm (h : Describes ts s) (h' : Describes ts' s') (hperm : ts.Perm ts')
    {value : ConditionValue} (hkept : kept s.nodeProps v "entity_type" = some value) :
    kept s'.nodeProps v "entity_type" = some value := by
  obtain ⟨left, right, rfl, hright, hagree⟩ := kept_perm h h' hperm hkept
  rw [agree_iff, if_pos rfl] at hagree
  rw [hright, hagree]

theorem sameConstraints_nodeFor (h : Describes ts s) (h' : Describes ts' s') (hperm : ts.Perm ts')
    (v : String) : SameConstraints (nodeFor s v) (nodeFor s' v) := by
  refine ⟨rfl, (placeKinds_perm h h' hperm).1 v, congrArg entityTypeOf ?_, ?_, ?_⟩
  · exact Option.ext fun value ↦
      ⟨entityType_perm h h' hperm, entityType_perm h' h hperm.symm⟩
  · rintro ⟨name, value⟩ hmem
    obtain ⟨hname, hkept⟩ := mem_properties_nodeFor.mp hmem
    obtain ⟨left, right, rfl, hright, hagree⟩ := kept_perm h h' hperm hkept
    exact ⟨(name, .string right), mem_properties_nodeFor.mpr ⟨hname, hright⟩, rfl, left, right, rfl,
      rfl, hagree⟩
  · rintro ⟨name, value⟩ hmem
    obtain ⟨hname, hkept⟩ := mem_properties_nodeFor.mp hmem
    obtain ⟨left, right, rfl, hright, hagree⟩ := kept_perm h' h hperm.symm hkept
    exact ⟨(name, .string right), mem_properties_nodeFor.mpr ⟨hname, hright⟩, rfl, right, left, rfl,
      rfl, hagree.symm⟩

/-- In another order the triples are lowered as well. -/
theorem exists_lower_perm (hperm : ts.Perm ts') {returnItems : List String} {limit : Option UInt64}
    {q : GqlQuery} (h : lower ts returnItems limit = .ok q) :
    ∃ q', lower ts' returnItems limit = .ok q' := by
  obtain ⟨s, path, hcollect, hne, hpath, hon, rfl⟩ := lower_eq_ok.mp h
  have hs := describes_of_collect hcollect
  obtain ⟨s', hcollect'⟩ := (hs.consistent.perm hperm).collect_ok
  have hs' := describes_of_collect hcollect'
  have hedges : s.edges.Perm s'.edges := by
    rw [hs.edges, hs'.edges]
    exact hperm.filterMap _
  exact ⟨_, lower_eq_ok.mpr ⟨s', path, hcollect', hne, hpath.perm_edges hedges,
    hon.perm hs hs' hperm, rfl⟩⟩

theorem exists_ok_of_isSome {ε α : Type} {x : Except ε α} (h : x.toOption.isSome = true) :
    ∃ a, x = .ok a := by
  rcases x with e | a
  · cases h
  · exact ⟨a, rfl⟩

end Perm

/-! ## Blocks that are lowered -/

/-- The variables of the relation triples. -/
def edgeVars (ts : List Triple) : List String := pathVars (ts.filterMap Triple.edge?)

/-- What a block of triples has to be to become a query. -/
structure Lowerable (ts : List Triple) : Prop where
  consistent : Consistent ts
  path : ∃ path, path ≠ [] ∧
    IsSimplePath RelationEdge.src RelationEdge.tgt (ts.filterMap Triple.edge?) path
  kinds : ∀ t ∈ ts, t.kind?.isSome → t.subject ∈ edgeVars ts
  properties : ∀ t ∈ ts, t.property?.isSome → t.subject ∈ edgeVars ts

/-- The subject of every number is a variable of a relation triple. -/
def NumbersOnPath (ts : List Triple) : Prop :=
  ∀ t ∈ ts, t.number?.isSome → t.subject ∈ edgeVars ts

section Lowerable

variable {ts ts' : List Triple} {s : Collected} {path : List RelationEdge}
  {returnItems : List String} {limit : Option UInt64}

theorem mem_edgeVars_perm (hperm : ts.Perm ts') {v : String} :
    v ∈ edgeVars ts ↔ v ∈ edgeVars ts' :=
  ((hperm.filterMap _).flatMap_right _).mem_iff

theorem NumbersOnPath.perm (h : NumbersOnPath ts) (hperm : ts.Perm ts') : NumbersOnPath ts' :=
  fun t ht hnumber ↦ (mem_edgeVars_perm hperm).mp (h t (hperm.mem_iff.mpr ht) hnumber)

/-- The kinds that are placed are those of the triples. -/
theorem isSome_placeKinds (h : Describes ts s) {v : String} :
    ((placeKinds s).1.get v).isSome ↔ ∃ t ∈ ts, t.subject = v ∧ t.kind?.isSome := by
  rw [get_placeKinds, Option.isSome_or, Bool.or_eq_true, Option.isSome_iff_exists,
    Option.isSome_iff_exists]
  constructor
  · rintro (⟨kind, hkind⟩ | ⟨kind, hkind⟩)
    · obtain ⟨t, ht, hsubject, hread, -⟩ := (h.substrate v kind).mp hkind
      exact ⟨t, ht, hsubject, hread ▸ rfl⟩
    · obtain ⟨t, ht, hsubject, hread, -⟩ := (h.granular v kind).mp hkind
      exact ⟨t, ht, hsubject, hread ▸ rfl⟩
  · rintro ⟨t, ht, rfl, hread⟩
    obtain ⟨kind, hread⟩ := Option.isSome_iff_exists.mp hread
    by_cases hlevel : isSubstrate kind = true
    · exact .inl ⟨kind, (h.substrate t.subject kind).mpr ⟨t, ht, rfl, hread, hlevel⟩⟩
    · exact .inr ⟨kind, (h.granular t.subject kind).mpr ⟨t, ht, rfl, hread, by simpa using hlevel⟩⟩

theorem isSome_nodeProps (h : Describes ts s) {v : String} :
    (s.nodeProps.get v).isSome ↔ ∃ t ∈ ts, t.subject = v ∧ t.property?.isSome := by
  refine ⟨h.props.keyed v, ?_⟩
  rintro ⟨t, ht, rfl, hread⟩
  obtain ⟨⟨name, value⟩, hread⟩ := Option.isSome_iff_exists.mp hread
  obtain ⟨left, hleft, -⟩ := h.props.agrees t ht name value hread
  exact isSome_nodeProps_of_kept hleft

/-- Only variables on the path are constrained when this is so of the triples. -/
theorem onPath_iff (h : Describes ts s)
    (hpath : IsSimplePath RelationEdge.src RelationEdge.tgt s.edges path) :
    OnPath s path ↔ (∀ t ∈ ts, t.kind?.isSome → t.subject ∈ edgeVars ts) ∧
      ∀ t ∈ ts, t.property?.isSome → t.subject ∈ edgeVars ts := by
  have hvars : ∀ v, v ∈ edgeVars ts ↔ v ∈ pathPoints RelationEdge.src RelationEdge.tgt path := by
    intro v
    rw [edgeVars, ← h.edges]
    exact mem_pathVars_edges hpath
  simp only [hvars]
  constructor
  · intro hon
    exact ⟨fun t ht hread ↦ hon.kinds _ ((isSome_placeKinds h).mpr ⟨t, ht, rfl, hread⟩),
      fun t ht hread ↦ hon.props _ ((isSome_nodeProps h).mpr ⟨t, ht, rfl, hread⟩)⟩
  · rintro ⟨hkinds, hproperties⟩
    constructor
    · intro v hv
      obtain ⟨t, ht, rfl, hread⟩ := (isSome_placeKinds h).mp hv
      exact hkinds t ht hread
    · intro v hv
      obtain ⟨t, ht, rfl, hread⟩ := (isSome_nodeProps h).mp hv
      exact hproperties t ht hread

/-- A block is lowered when it is lowerable, and only then. -/
theorem exists_lower_iff :
    (∃ q, lower ts returnItems limit = .ok q) ↔ Lowerable ts := by
  constructor
  · rintro ⟨q, hq⟩
    obtain ⟨s, path, hcollect, hne, hpath, hon, -⟩ := lower_eq_ok.mp hq
    have hs := describes_of_collect hcollect
    obtain ⟨hkinds, hproperties⟩ := (onPath_iff hs hpath).mp hon
    exact ⟨consistent_iff.mpr ⟨s, hcollect⟩, ⟨path, hne, hs.edges ▸ hpath⟩, hkinds, hproperties⟩
  · intro h
    obtain ⟨s, hcollect⟩ := consistent_iff.mp h.consistent
    obtain ⟨path, hne, hpath⟩ := h.path
    have hs := describes_of_collect hcollect
    rw [← hs.edges] at hpath
    exact ⟨_, lower_eq_ok.mpr ⟨s, path, hcollect, hne, hpath,
      (onPath_iff hs hpath).mpr ⟨h.kinds, h.properties⟩, rfl⟩⟩

end Lowerable

/-! ## Blocks that are lowered faithfully -/

/-- A block that is lowered is a simple path with all its conjuncts, and the order of its triples
decides neither whether it is lowered, nor the path, nor the constraints. -/
structure LowersFaithfully (ts : List Triple) (returnItems : List String) (limit : Option UInt64) :
    Prop where
  keeps : ∀ q, lower ts returnItems limit = .ok q → ∃ path node, Lowered ts q path node
  alike : ∀ ts', ts.Perm ts' → ((∃ q, lower ts returnItems limit = .ok q) ↔
    ∃ q', lower ts' returnItems limit = .ok q')
  same : ∀ ts', ts.Perm ts' → ∀ q q', lower ts returnItems limit = .ok q →
    lower ts' returnItems limit = .ok q' →
      ∃ path node node', Lowered ts q path node ∧ Lowered ts' q' path node' ∧
        (∀ v, SameConstraints (node v) (node' v)) ∧
        q.whereClause.conditions.Perm q'.whereClause.conditions ∧
        q.returnItems = q'.returnItems ∧ q.offset = q'.offset ∧ q.limit = q'.limit

section Faithful

variable {ts ts' : List Triple} {returnItems : List String} {limit : Option UInt64}

/-- A number that is kept is on the path. -/
theorem numbersOnPath_of_lowered {q : GqlQuery} {path : List RelationEdge}
    {node : String → NodePattern} (h : Lowered ts q path node) : NumbersOnPath ts := by
  intro t ht hnumber
  refine (mem_pathVars_edges h.simple).mpr ?_
  have hkept := h.keeps t ht
  obtain ⟨subject, predicate, object⟩ := t
  rcases predicate with - | ⟨name, minHops, maxHops⟩
  · rcases object with target | kind | value | value <;> cases hnumber
  · rcases object with target | kind | value | value
    · cases hnumber
    · cases hnumber
    · cases hnumber
    · exact hkept.1

/-- With its numbers on the path a block that is lowered keeps everything. -/
theorem exists_lowered (hnumbers : NumbersOnPath ts) {q : GqlQuery}
    (hq : lower ts returnItems limit = .ok q) :
    ∃ s path, collect ts = .ok s ∧
      IsSimplePath RelationEdge.src RelationEdge.tgt s.edges path ∧
      queryOf s path returnItems limit = q ∧ Lowered ts q path (nodeFor s) := by
  obtain ⟨s, path, hcollect, hne, hpath, hon, rfl⟩ := lower_eq_ok.mp hq
  have hs := describes_of_collect hcollect
  refine ⟨s, path, hcollect, hpath, rfl, lowered_queryOf hs hne hpath hon fun t ht hnumber ↦ ?_⟩
  rw [← mem_pathVars_edges hpath, hs.edges]
  exact hnumbers t ht hnumber

theorem exists_lowered_perm (hnumbers : NumbersOnPath ts) (hperm : ts.Perm ts') {q q' : GqlQuery}
    (hq : lower ts returnItems limit = .ok q) (hq' : lower ts' returnItems limit = .ok q') :
    ∃ path node node', Lowered ts q path node ∧ Lowered ts' q' path node' ∧
      (∀ v, SameConstraints (node v) (node' v)) ∧
      q.whereClause.conditions.Perm q'.whereClause.conditions ∧
      q.returnItems = q'.returnItems ∧ q.offset = q'.offset ∧ q.limit = q'.limit := by
  obtain ⟨s, path, hcollect, hpath, rfl, hlowered⟩ := exists_lowered hnumbers hq
  obtain ⟨s', path', hcollect', hpath', rfl, hlowered'⟩ :=
    exists_lowered (hnumbers.perm hperm) hq'
  have hs := describes_of_collect hcollect
  have hs' := describes_of_collect hcollect'
  have hedges : s.edges.Perm s'.edges := by
    rw [hs.edges, hs'.edges]
    exact hperm.filterMap _
  obtain rfl := hpath.unique hpath' hedges
  refine ⟨path, nodeFor s, nodeFor s', hlowered, hlowered', sameConstraints_nodeFor hs hs' hperm,
    ?_, rfl, rfl, rfl⟩
  change (foldConditions _).conditions.Perm (foldConditions _).conditions
  rw [conditions_foldConditions, conditions_foldConditions]
  exact (placeKinds_perm hs hs' hperm).2

/-- **Every conjunct is kept and the order does not matter** exactly when the block is no query
anyway, or has its numbers on the path. -/
theorem lowersFaithfully_iff (ts : List Triple) (returnItems : List String)
    (limit : Option UInt64) :
    LowersFaithfully ts returnItems limit ↔ (Lowerable ts → NumbersOnPath ts) := by
  constructor
  · intro h hlowerable
    have hlower : ∃ q, lower ts returnItems limit = .ok q := exists_lower_iff.mpr hlowerable
    obtain ⟨q, hq⟩ := hlower
    obtain ⟨path, node, hlowered⟩ := h.keeps q hq
    exact numbersOnPath_of_lowered hlowered
  · intro h
    have hnumbers : ∀ q, lower ts returnItems limit = .ok q → NumbersOnPath ts :=
      fun q hq ↦ h (exists_lower_iff.mp ⟨q, hq⟩)
    refine ⟨fun q hq ↦ ?_, fun ts' hperm ↦ ?_, fun ts' hperm q q' hq hq' ↦ ?_⟩
    · obtain ⟨s, path, -, -, -, hlowered⟩ := exists_lowered (hnumbers q hq) hq
      exact ⟨path, nodeFor s, hlowered⟩
    · constructor
      · rintro ⟨q, hq⟩
        exact exists_lower_perm hperm hq
      · rintro ⟨q, hq⟩
        exact exists_lower_perm hperm.symm hq
    · exact exists_lowered_perm (hnumbers q hq) hperm hq hq'

/-- The edges of a chain given backwards, with a kind next to its substrate and a number. -/
example : (lower [⟨"b", .relation "extends" 1 1, .variable "c"⟩, ⟨"a", .type, .kind "entity"⟩,
    ⟨"a", .type, .kind "concept"⟩, ⟨"c", .relation "score" 1 1, .numberLiteral (.integer 5)⟩,
    ⟨"a", .relation "enables" 1 2, .variable "b"⟩] ["a"] none).toOption.isSome = true := by
  decide +kernel

/-- `?a :extends ?b . ?z :score 5`. -/
def looseNumber : List Triple :=
  [⟨"a", .relation "extends" 1 1, .variable "b"⟩,
    ⟨"z", .relation "score" 1 1, .numberLiteral (.integer 5)⟩]

/-- It is lowered, although no node of the query is `?z`. -/
theorem not_lowersFaithfully_looseNumber :
    (∃ q, lower looseNumber ["a"] none = .ok q) ∧ ¬LowersFaithfully looseNumber ["a"] none := by
  have hsome : (lower looseNumber ["a"] none).toOption.isSome = true := by decide +kernel
  obtain ⟨q, hq⟩ := exists_ok_of_isSome hsome
  refine ⟨⟨q, hq⟩, fun h ↦ ?_⟩
  obtain ⟨path, node, hlowered⟩ := h.keeps q hq
  have hmem := numbersOnPath_of_lowered hlowered
    ⟨"z", .relation "score" 1 1, .numberLiteral (.integer 5)⟩ (List.mem_cons_of_mem _
      List.mem_cons_self) rfl
  have hnot : "z" ∉ edgeVars looseNumber := by decide
  exact hnot hmem

end Faithful

end Sparql

end Query

end Khive
