import Khive.Query.Placement

/-!
# Parameters and text of a compiled query

Every placeholder of a compiled statement stands for the value that its predicate was built from,
every parameter is used, and no value is part of the text: besides keywords and generated names the
text has the compiler's own columns, texts and paths, the keys of properties, and the names of the
variables that are returned.
-/

namespace Khive

namespace Query

open Sql (Expr Operand Value Placement Binder push pushOperand pushPlaceholder oneOf Item Member Source FromItem
  Select OrderTerm Placeholder RecursiveTable WithClause Statement Leaf Vocabulary Bound leavesOf
  run_bind_eq_ok run_pure_eq_ok run_lift_eq_ok run_guard_eq_ok)

/-! ## The vocabulary -/

/-- The columns that the compiler knows. -/
def columnNames : List String :=
  nodeColumns ++ observationTargetColumns ++ eventColumns ++ edgeColumns ++ traverseColumns ++
    ["deleted_at", "substrate_kind", "metadata", "event_id", "entity_id", "role", "position"]

/-- The string literals that the compiler writes. -/
def fixedTexts : List String :=
  ["entity", "note", "event", "edge", "message", "inbound", "outbound", "text", "null", "",
    "candidate", "selected", "target", "signal", ",", "%,", ",%"]

/-- The routing of a message. -/
def fixedPaths : List String := ["$.direction", "$.to_actor", "$.from_actor"]

def PatternElement.keys : PatternElement → List String
  | node n => n.properties.map Prod.fst
  | edge _ => []

def PropertyRef.keys : PropertyRef → List String
  | field _ => []
  | jsonPath path => [".".intercalate path]

/-- The keys of properties: those of the pattern, and the paths of the conditions. -/
def GqlQuery.keys (q : GqlQuery) : List String :=
  q.elements.flatMap PatternElement.keys ++
    q.whereClause.conditions.flatMap fun c ↦ c.property.keys

/-- What the name of a result column ends in. -/
def suffixes : List String := columnNames ++ ["source", "target"]

/-- The words of a statement that come from the query are keys and variables. -/
def vocabulary (q : GqlQuery) : Vocabulary where
  columns name := columnNames.contains name = true
  texts s := fixedTexts.contains s = true
  paths s := fixedPaths.contains s = true ∨ ∃ key ∈ q.keys, s = "$." ++ key
  outputs name := name ∈ ["_depth", "_total_weight"] ∨
    ∃ item ∈ q.returnItems, ∃ suffix ∈ suffixes, name = item.var ++ "_" ++ suffix

/-- Text that the compiler brings. -/
def isFixed : Leaf → Bool
  | .column _ name => columnNames.contains name
  | .text s => fixedTexts.contains s
  | .path s => fixedPaths.contains s
  | .param _ _ | .output _ => false

variable {q : GqlQuery} {opts : CompileOptions} {p p' : List Value} {source : String}

theorem fits_of_isFixed {leaf : Leaf} (h : isFixed leaf = true) : leaf.Fits (vocabulary q) p := by
  cases leaf with
  | column | text => exact h
  | path => exact .inl h
  | param | output => exact absurd h Bool.false_ne_true

theorem fits_of_all {leaves : List Leaf} (h : leaves.all isFixed = true) :
    ∀ leaf ∈ leaves, leaf.Fits (vocabulary q) p :=
  fun leaf hleaf ↦ fits_of_isFixed (List.all_eq_true.mp h leaf hleaf)

/-! ## The mailbox -/

/-- The actor is the parameter that the filters name. -/
def MailboxFits (p : List Value) (mailbox : Option MailboxLowering) : Prop :=
  ∀ m ∈ mailbox, 1 ≤ m.actorParameter ∧ p[m.actorParameter - 1]? = some m.actor

theorem MailboxFits.mono {mailbox : Option MailboxLowering} (h : MailboxFits p mailbox)
    (hgrows : p <+: p') : MailboxFits p' mailbox := by
  obtain ⟨suffix, rfl⟩ := hgrows
  intro m hm
  obtain ⟨hindex, hvalue⟩ := h m hm
  have hlt : m.actorParameter - 1 < p.length := (List.getElem?_eq_some_iff.mp hvalue).1
  exact ⟨hindex, by rw [List.getElem?_append_left hlt, hvalue]⟩

namespace MailboxLowering

/-- The filters consist of fixed text and the actor. -/
theorem leaves_noteVisible (m : MailboxLowering) (source : String) :
    ∀ leaf ∈ (m.noteVisible source).leaves,
      isFixed leaf = true ∨ leaf = .param m.actorParameter m.actor := by
  obtain ⟨index, actor, legacy⟩ := m
  cases legacy
  all_goals
    simp only [noteVisible, routed, textIsActor, absent, notText, extract, jsonType, Expr.leaves,
      List.forall_mem_append, List.forall_mem_cons, if_true, Bool.false_eq_true, if_false]
    and_intros
    all_goals first | exact .inl rfl | exact .inr rfl | simp

theorem leaves_edgeFilter (m : MailboxLowering) (source : String) :
    ∀ leaf ∈ (m.edgeFilter source).leaves,
      isFixed leaf = true ∨ leaf = .param m.actorParameter m.actor := by
  have hvisible := m.leaves_noteVisible "mailbox_note"
  simp only [edgeFilter, endpointVisible, hidesEndpoint, Expr.leaves, List.forall_mem_append,
    List.forall_mem_cons]
  and_intros
  all_goals first | exact .inl rfl | exact hvisible | simp

/-- The actor is in every filter of notes. -/
theorem actor_mem_noteVisible (m : MailboxLowering) (source : String) :
    .param m.actorParameter m.actor ∈ (m.noteVisible source).leaves := by
  obtain ⟨index, actor, legacy⟩ := m
  cases legacy <;> simp [noteVisible, routed, textIsActor, Expr.leaves]

end MailboxLowering

section Mailbox

variable {mailbox : Option MailboxLowering}

theorem fits_filter (hm : MailboxFits p mailbox) {filter : MailboxLowering → Expr}
    (hfilter : ∀ m : MailboxLowering, ∀ leaf ∈ (filter m).leaves,
      isFixed leaf = true ∨ leaf = .param m.actorParameter m.actor) :
    ∀ leaf ∈ leavesOf (mailbox.map filter).toList, leaf.Fits (vocabulary q) p := by
  cases mailbox with
  | none => simp
  | some m =>
    simp only [Option.map_some, Option.toList_some, Sql.leavesOf_cons, Sql.leavesOf_nil,
      List.append_nil]
    intro leaf hleaf
    rcases hfilter m leaf hleaf with hfixed | rfl
    · exact fits_of_isFixed hfixed
    · exact hm m rfl

/-- A union whose own columns are known has the words of its filters besides. -/
theorem fits_union {members : List Member}
    (hitems : ∀ m ∈ members, (m.items.flatMap (Item.leaves m.table)).all isFixed = true)
    (hfilter : ∀ m ∈ members, ∀ leaf ∈ leavesOf m.filter.toList, leaf.Fits (vocabulary q) p) :
    ∀ leaf ∈ members.flatMap Member.leaves, leaf.Fits (vocabulary q) p := by
  intro leaf hleaf
  obtain ⟨m, hm, hleaf⟩ := List.mem_flatMap.mp hleaf
  rcases List.mem_append.mp hleaf with hleaf | hleaf
  · exact fits_of_all (hitems m hm) leaf hleaf
  · exact hfilter m hm leaf hleaf

theorem fits_primaryNodes (hm : MailboxFits p mailbox) :
    ∀ leaf ∈ (primaryNodes mailbox).flatMap Member.leaves, leaf.Fits (vocabulary q) p := by
  apply fits_union
  · simp only [primaryNodes, List.forall_mem_cons]
    exact ⟨rfl, rfl, rfl, rfl, by simp⟩
  · simp only [primaryNodes, List.forall_mem_cons]
    exact ⟨by simp, fits_filter hm fun m ↦ m.leaves_noteVisible _, by simp,
      fits_filter hm fun m ↦ m.leaves_edgeFilter _, by simp⟩

theorem fits_observationTargets (hm : MailboxFits p mailbox) :
    ∀ leaf ∈ (observationTargets mailbox).flatMap Member.leaves, leaf.Fits (vocabulary q) p := by
  apply fits_union
  · simp only [observationTargets, List.forall_mem_cons]
    exact ⟨rfl, rfl, by simp⟩
  · simp only [observationTargets, List.forall_mem_cons]
    exact ⟨by simp, fits_filter hm fun m ↦ m.leaves_noteVisible _, by simp⟩

theorem fits_edgeSource (hm : MailboxFits p mailbox) :
    ∀ leaf ∈ (edgeSource mailbox).leaves, leaf.Fits (vocabulary q) p := by
  cases mailbox with
  | none => simp [edgeSource, Source.leaves]
  | some m =>
    intro leaf hleaf
    rcases m.leaves_edgeFilter "graph_edges" leaf hleaf with hfixed | rfl
    · exact fits_of_isFixed hfixed
    · exact hm m rfl

/-- The actor is in the unions. -/
theorem actor_mem_primaryNodes {m : MailboxLowering} :
    .param m.actorParameter m.actor ∈ (primaryNodes (some m)).flatMap Member.leaves := by
  have hmem := m.actor_mem_noteVisible "notes"
  simp [primaryNodes, Member.leaves, MailboxLowering.noteFilter, hmem]

theorem actor_mem_observationTargets {m : MailboxLowering} :
    .param m.actorParameter m.actor ∈ (observationTargets (some m)).flatMap Member.leaves := by
  have hmem := m.actor_mem_noteVisible "notes"
  simp [observationTargets, Member.leaves, MailboxLowering.noteFilter, hmem]

end Mailbox

/-! ## Elements of the pattern -/

theorem fits_column {name : String} (h : columnNames.contains name = true) :
    ∀ leaf ∈ (Expr.column source name).leaves, leaf.Fits (vocabulary q) p := by
  intro leaf hleaf
  obtain rfl := List.mem_singleton.mp hleaf
  exact h

/-- A column restricted to some values. -/
theorem bound_oneOf {name : String} {values : List Value} {es : List Expr}
    (hname : columnNames.contains name = true)
    (h : (oneOf (.column source name) values : Compile (List Expr)).run p = .ok (es, p')) :
    Bound (vocabulary q) p (leavesOf es) p' :=
  .oneOf (fun _ ↦ fits_column hname) h

theorem bound_namespaceFilter {es : List Expr}
    (h : (namespaceFilter opts source).run p = .ok (es, p')) :
    Bound (vocabulary q) p (leavesOf es) p' :=
  bound_oneOf rfl h

theorem bound_columnEquals {name s : String} {e : Expr} (hname : columnNames.contains name = true)
    (h : (columnEquals source name s).run p = .ok (e, p')) :
    Bound (vocabulary q) p e.leaves p' := by
  obtain ⟨param, p₁, hparam, h⟩ := run_bind_eq_ok.mp h
  obtain ⟨rfl, rfl⟩ := run_pure_eq_ok.mp h
  exact (Bound.push hparam).text (fits_column hname)

theorem bound_kindFilterPredicate {kind : String} {e : Expr}
    (h : (kindFilterPredicate source kind).run p = .ok (e, p')) :
    Bound (vocabulary q) p e.leaves p' := by
  unfold kindFilterPredicate at h
  split at h
  · exact bound_columnEquals rfl h
  · exact bound_columnEquals rfl h

theorem bound_observationKindFilterPredicate {kind : String} {e : Expr}
    (h : (observationKindFilterPredicate source kind).run p = .ok (e, p')) :
    Bound (vocabulary q) p e.leaves p' := by
  unfold observationKindFilterPredicate at h
  split at h
  · exact bound_columnEquals rfl h
  · exact bound_columnEquals rfl h

@[simp] theorem leaves_collate (nocase : Bool) (e : Expr) : (collate nocase e).leaves = e.leaves := by
  cases nocase <;> rfl

theorem bound_compilePropertyEquality {key : String} {value : ConditionValue}
    {textColumn : Option String} {e : Expr} (hkey : key ∈ q.keys)
    (hcolumn : ∀ name ∈ textColumn, columnNames.contains name = true)
    (h : (compilePropertyEquality source key value textColumn).run p = .ok (e, p')) :
    Bound (vocabulary q) p e.leaves p' := by
  obtain ⟨v, p₁, hv, h⟩ := run_bind_eq_ok.mp h
  obtain ⟨-, rfl⟩ := run_lift_eq_ok.mp hv
  obtain ⟨param, p₂, hparam, h⟩ := run_bind_eq_ok.mp h
  obtain ⟨rfl, rfl⟩ := run_pure_eq_ok.mp h
  cases textColumn with
  | some name =>
    simp only [Expr.leaves, leaves_collate]
    exact (Bound.push hparam).text (fits_column (hcolumn name rfl))
  | none =>
    simp only [Expr.leaves, leaves_collate]
    refine (Bound.push hparam).text ?_
    simp only [List.forall_mem_cons, List.not_mem_nil, false_implies, implies_true, and_true]
    exact ⟨.inr ⟨key, hkey, rfl⟩, rfl⟩

theorem mem_sortedProperties {np : NodePattern} {property : String × ConditionValue}
    (h : property ∈ np.sortedProperties) : property.1 ∈ np.properties.map Prod.fst :=
  List.mem_map_of_mem ((List.perm_insertionSort _ _).mem_iff.mp h)

theorem bound_nodeConditions {kindFilter : String → Compile Expr} {textColumns : List String}
    {np : NodePattern} {es : List Expr} (hkeys : ∀ key ∈ np.properties.map Prod.fst, key ∈ q.keys)
    (hcolumns : textColumns.all columnNames.contains = true)
    (hkind : ∀ kind p e p', (kindFilter kind).run p = .ok (e, p') →
      Bound (vocabulary q) p e.leaves p')
    (h : (nodeConditions opts source kindFilter textColumns np).run p = .ok (es, p')) :
    Bound (vocabulary q) p (leavesOf es) p' := by
  obtain ⟨scope, p₁, hscope, h⟩ := run_bind_eq_ok.mp h
  obtain ⟨kinds, p₂, hkinds, h⟩ := run_bind_eq_ok.mp h
  obtain ⟨types, p₃, htypes, h⟩ := run_bind_eq_ok.mp h
  obtain ⟨properties, p₄, hproperties, h⟩ := run_bind_eq_ok.mp h
  obtain ⟨rfl, rfl⟩ := run_pure_eq_ok.mp h
  have hbscope : Bound (vocabulary q) p (leavesOf scope) p₁ := bound_namespaceFilter hscope
  have hbkinds : Bound (vocabulary q) p₁ (leavesOf kinds) p₂ :=
    .mapM (fun kind _ p e p' _ ↦ hkind kind p e p') hkinds
  have hbtypes : Bound (vocabulary q) p₂ (leavesOf types) p₃ :=
    .mapM (fun _ _ _ _ _ _ ↦ bound_columnEquals rfl) htypes
  have hbproperties : Bound (vocabulary q) p₃ (leavesOf properties) p₄ := by
    refine .mapM (fun property hproperty _ _ _ _ he ↦ ?_) hproperties
    refine bound_compilePropertyEquality (hkeys _ (mem_sortedProperties hproperty)) ?_ he
    -- the columns that may stand for a property are given
    intro name hname
    split at hname
    · obtain rfl : property.1 = name := by simpa using hname
      exact List.all_eq_true.mp hcolumns _ ‹_›
    · simp at hname
  simp only [Sql.leavesOf_cons, Sql.leavesOf_append]
  exact (((hbscope.trans hbkinds).trans hbtypes).trans hbproperties).text
    (by simp only [Expr.leaves]; exact fits_of_all rfl)

theorem bound_eventConditions {np : NodePattern} {es : List Expr}
    (h : (eventConditions opts source np).run p = .ok (es, p')) :
    Bound (vocabulary q) p (leavesOf es) p' := by
  obtain ⟨scope, p₁, hscope, h⟩ := run_bind_eq_ok.mp h
  obtain ⟨kinds, p₂, hkinds, h⟩ := run_bind_eq_ok.mp h
  obtain ⟨-, h⟩ := run_guard_eq_ok.mp h
  obtain ⟨-, h⟩ := run_guard_eq_ok.mp h
  obtain ⟨rfl, rfl⟩ := run_pure_eq_ok.mp h
  have hbkinds : Bound (vocabulary q) p₁ (leavesOf kinds) p₂ :=
    .mapM (fun _ _ _ _ _ _ ↦ bound_columnEquals rfl) hkinds
  rw [Sql.leavesOf_append]
  exact (bound_namespaceFilter hscope).trans hbkinds

theorem bound_roleConditions {role : NodeRole} {np : NodePattern} {es : List Expr}
    (hkeys : ∀ key ∈ np.properties.map Prod.fst, key ∈ q.keys)
    (h : (role.conditions opts source np).run p = .ok (es, p')) :
    Bound (vocabulary q) p (leavesOf es) p' := by
  cases role with
  | eventSource => exact bound_eventConditions h
  | observationTarget =>
    exact bound_nodeConditions hkeys rfl
      (fun _ _ _ _ ↦ bound_observationKindFilterPredicate) h
  | primary => exact bound_nodeConditions hkeys rfl (fun _ _ _ _ ↦ bound_kindFilterPredicate) h

def Fragment.leaves (f : Fragment) : List Leaf :=
  f.sources.flatMap FromItem.leaves ++ leavesOf f.conditions ++ f.order.flatMap OrderTerm.leaves

section Fragments

variable {mailbox : Option MailboxLowering} {f : Fragment}

theorem fits_firstSource {role : NodeRole} (hm : MailboxFits p mailbox) :
    ∀ leaf ∈ (role.first mailbox source).flatMap FromItem.leaves, leaf.Fits (vocabulary q) p := by
  cases role with
  | eventSource | observationTarget => exact fits_of_all rfl
  | primary => simpa [NodeRole.first, FromItem.leaves, Source.leaves] using fits_primaryNodes hm

theorem bound_lowerNode {role : NodeRole} {index : Nat} {np : NodePattern}
    (hm : MailboxFits p mailbox) (hkeys : ∀ key ∈ np.properties.map Prod.fst, key ∈ q.keys)
    (h : (lowerNode opts mailbox role index np).run p = .ok (f, p')) :
    Bound (vocabulary q) p f.leaves p' := by
  obtain ⟨conditions, hconditions, rfl⟩ := lowerNode_eq_ok.mp h
  have hbound := bound_roleConditions (q := q) hkeys hconditions
  refine (hbound.text ?_).textBehind ?_
  · by_cases hindex : index = 0
    · simpa only [nodeFragment, hindex, if_true] using fits_firstSource (hm.mono hbound.grows)
    · simp [nodeFragment, hindex]
  · cases role with
    | eventSource | observationTarget | primary => exact fits_of_all rfl

theorem fits_edgeJoin {direction : EdgeDirection} {prev : String} {name : String}
    (hname : columnNames.contains name = true) :
    ∀ leaf ∈ (edgeJoin direction source (.column prev name)).leaves, leaf.Fits (vocabulary q) p := by
  have hprev : ∀ leaf ∈ (Expr.column prev name).leaves, leaf.Fits (vocabulary q) p :=
    fits_column hname
  cases direction with
  | out => exact List.forall_mem_append.mpr ⟨fits_of_all rfl, hprev⟩
  | into => exact List.forall_mem_append.mpr ⟨fits_of_all rfl, hprev⟩
  | both =>
    refine List.forall_mem_append.mpr ⟨?_, ?_⟩
    · exact List.forall_mem_append.mpr ⟨fits_of_all rfl, hprev⟩
    · exact List.forall_mem_append.mpr ⟨fits_of_all rfl, hprev⟩

theorem fits_edgeNext {direction : EdgeDirection} {prev : String} {name : String}
    (hname : columnNames.contains name = true) :
    ∀ leaf ∈ (edgeNext direction source (.column prev name)).leaves, leaf.Fits (vocabulary q) p := by
  have hprev : ∀ leaf ∈ (Expr.column prev name).leaves, leaf.Fits (vocabulary q) p :=
    fits_column hname
  cases direction with
  | out | into => exact fits_of_all rfl
  | both =>
    refine List.forall_mem_append.mpr ⟨List.forall_mem_append.mpr ⟨?_, fits_of_all rfl⟩,
      fits_of_all rfl⟩
    exact List.forall_mem_append.mpr ⟨fits_of_all rfl, hprev⟩

theorem bound_syntheticFragment {next prev : String} {ep : EdgePattern} {roles : List Expr}
    (hm : MailboxFits p' mailbox) (h : Bound (vocabulary q) p (leavesOf roles) p') :
    Bound (vocabulary q) p (syntheticFragment mailbox source prev next ep roles).leaves p' := by
  have hconditions : Bound (vocabulary q) p (leavesOf (roles ++ [roleMatrix source])) p' := by
    rw [Sql.leavesOf_append]
    exact h.textBehind (fits_of_all rfl)
  refine (hconditions.text ?_).textBehind (fits_of_all rfl)
  simp only [syntheticFragment, List.flatMap_cons, List.flatMap_nil, FromItem.leaves, Source.leaves,
    List.forall_mem_append]
  exact ⟨⟨by simp, fits_of_all rfl⟩, ⟨fits_observationTargets hm, fits_of_all rfl⟩, by simp⟩

theorem bound_canonicalFragment {next prev : String} {ep : EdgePattern} {conditions : List Expr}
    (hm : MailboxFits p' mailbox) (h : Bound (vocabulary q) p (leavesOf conditions) p') :
    Bound (vocabulary q) p (canonicalFragment mailbox source prev next ep conditions).leaves p' := by
  refine (h.text ?_).textBehind (fits_of_all rfl)
  simp only [canonicalFragment, List.flatMap_cons, List.flatMap_nil, FromItem.leaves, Source.leaves,
    Sql.leavesOf_cons, Sql.leavesOf_nil, List.forall_mem_append, Expr.leaves]
  exact ⟨⟨fits_edgeSource hm, fits_edgeJoin rfl, fits_of_all rfl, by simp⟩,
    ⟨fits_primaryNodes hm, ⟨fits_of_all rfl, fits_edgeNext rfl⟩, by simp⟩, by simp⟩

theorem bound_lowerEdge {index next : Nat} {ep : EdgePattern} (hm : MailboxFits p mailbox)
    (h : (lowerEdge opts mailbox index next ep).run p = .ok (f, p')) :
    Bound (vocabulary q) p f.leaves p' := by
  cases hep : ep.hasSynthetic with
  | true =>
    obtain ⟨roles, hroles, rfl⟩ := lowerEdge_synthetic hep h
    have hbound : Bound (vocabulary q) p (leavesOf roles) p' := bound_oneOf rfl hroles
    exact bound_syntheticFragment (hm.mono hbound.grows) hbound
  | false =>
    obtain ⟨scope, relations, p₁, hscope, hrelations, rfl⟩ := lowerEdge_canonical hep h
    have hbound : Bound (vocabulary q) p (leavesOf (scope ++ relations)) p' := by
      rw [Sql.leavesOf_append]
      exact (bound_namespaceFilter hscope).trans (bound_oneOf rfl hrelations)
    exact bound_canonicalFragment (hm.mono hbound.grows) hbound

theorem bound_lowerChain {elements : List PatternElement} (helements : Alternating elements)
    {before : Bool} {index : Nat} {fs : List Fragment} (hm : MailboxFits p mailbox)
    (hkeys : ∀ key ∈ elements.flatMap PatternElement.keys, key ∈ q.keys)
    (h : (lowerChain opts mailbox before index elements).run p = .ok (fs, p')) :
    Bound (vocabulary q) p (fs.flatMap Fragment.leaves) p' := by
  induction helements generalizing before index p fs with
  | single n =>
    obtain ⟨node, p₁, hnode, h⟩ := run_bind_eq_ok.mp h
    obtain ⟨rfl, rfl⟩ := run_pure_eq_ok.mp h
    rw [List.flatMap_cons, List.forall_mem_append] at hkeys
    simpa using bound_lowerNode hm hkeys.1 hnode
  | cons n e _ ih =>
    obtain ⟨node, p₁, hnode, h⟩ := run_bind_eq_ok.mp h
    obtain ⟨edge, p₂, hedge, h⟩ := run_bind_eq_ok.mp h
    obtain ⟨fs, p₃, hfs, h⟩ := run_bind_eq_ok.mp h
    obtain ⟨rfl, rfl⟩ := run_pure_eq_ok.mp h
    rw [List.flatMap_cons, List.flatMap_cons, List.forall_mem_append, List.forall_mem_append] at hkeys
    have hbnode := bound_lowerNode hm hkeys.1 hnode
    have hm₁ := hm.mono hbnode.grows
    have hbedge : Bound (vocabulary q) p₁ edge.leaves p₂ := bound_lowerEdge hm₁ hedge
    have hbrest := ih (hm₁.mono hbedge.grows) hkeys.2.2 hfs
    exact hbnode.trans (hbedge.trans hbrest)

end Fragments

/-! ## Conditions -/

section Conditions

variable {tables : CharTables} {column e : Expr} {c : Condition}

theorem columnNames_of_whereColumns {kind : VarKind} {name : String}
    (h : name ∈ kind.wherePropertyColumns.1) : columnNames.contains name = true := by
  have hall : kind.wherePropertyColumns.1.all columnNames.contains = true := by
    cases kind <;> rfl
  exact List.all_eq_true.mp hall name h

theorem fits_wherePropertyExpression {property : PropertyRef} {kind : VarKind}
    (hkeys : ∀ key ∈ property.keys, key ∈ q.keys)
    (h : wherePropertyExpression tables property kind source = .ok e) :
    ∀ p, ∀ leaf ∈ e.leaves, leaf.Fits (vocabulary q) p := by
  intro p
  unfold wherePropertyExpression at h
  cases property with
  | field field =>
    simp only at h
    split at h
    · obtain rfl := pure_eq_ok.mp h
      exact fits_column (columnNames_of_whereColumns ‹_›)
    · split at h
      · exact absurd h throw_ne_ok
      · exact absurd h throw_ne_ok
  | jsonPath path =>
    simp only at h
    split at h
    · exact absurd h throw_ne_ok
    split at h
    · exact absurd h throw_ne_ok
    split at h
    · exact absurd h throw_ne_ok
    · obtain rfl := pure_eq_ok.mp h
      simp only [Expr.leaves, List.forall_mem_cons, List.not_mem_nil, false_implies, implies_true,
        and_true]
      exact ⟨.inr ⟨_, hkeys _ List.mem_cons_self, rfl⟩, rfl⟩

variable (hcolumn : ∀ p, ∀ leaf ∈ column.leaves, leaf.Fits (vocabulary q) p)
include hcolumn

theorem bound_literalPredicate {before : String}
    (h : (literalPredicate column c before).run p = .ok (e, p')) :
    Bound (vocabulary q) p e.leaves p' := by
  unfold literalPredicate at h
  split at h
  · obtain ⟨param, p₁, hparam, h⟩ := run_bind_eq_ok.mp h
    obtain ⟨rfl, rfl⟩ := run_pure_eq_ok.mp h
    exact (Bound.push hparam).text (hcolumn p₁)
  · exact absurd h Sql.run_throw_ne_ok

theorem bound_inPredicate (h : (inPredicate column c).run p = .ok (e, p')) :
    Bound (vocabulary q) p e.leaves p' := by
  unfold inPredicate at h
  split at h
  · obtain ⟨rfl, rfl⟩ := run_pure_eq_ok.mp h
    exact .nil
  · obtain ⟨items, p₁, hitems, h⟩ := run_bind_eq_ok.mp h
    obtain ⟨rfl, rfl⟩ := run_pure_eq_ok.mp h
    have hbound : Bound (vocabulary q) p (items.flatMap fun o ↦ [o.leaf]) p₁ := by
      refine .mapM (fun value _ p₂ o p₃ _ ho ↦ ?_) hitems
      obtain ⟨v, p₄, hv, ho⟩ := run_bind_eq_ok.mp ho
      obtain ⟨-, rfl⟩ := run_lift_eq_ok.mp hv
      exact .pushOperand ho
    rw [← List.map_eq_flatMap] at hbound
    simp only [Expr.leaves, leaves_collate]
    exact hbound.text (hcolumn p₁)
  · exact absurd h Sql.run_throw_ne_ok

theorem bound_comparisonPredicate {op : Sql.Comparison}
    (h : (comparisonPredicate op column c).run p = .ok (e, p')) :
    Bound (vocabulary q) p e.leaves p' := by
  obtain ⟨v, p₁, hv, h⟩ := run_bind_eq_ok.mp h
  obtain ⟨-, rfl⟩ := run_lift_eq_ok.mp hv
  obtain ⟨param, p₂, hparam, h⟩ := run_bind_eq_ok.mp h
  obtain ⟨rfl, rfl⟩ := run_pure_eq_ok.mp h
  simp only [Expr.leaves, leaves_collate]
  exact (Bound.push hparam).text (hcolumn p₂)

theorem bound_nullPredicate {message : String} {predicate : Expr}
    (hpredicate : predicate.leaves = column.leaves)
    (h : (nullPredicate predicate c message).run p = .ok (e, p')) :
    Bound (vocabulary q) p e.leaves p' := by
  unfold nullPredicate at h
  split at h
  · obtain ⟨rfl, rfl⟩ := run_pure_eq_ok.mp h
    exact .still (hpredicate ▸ hcolumn p)
  · exact absurd h Sql.run_throw_ne_ok

theorem bound_compileConditionPredicate
    (h : (compileConditionPredicate column c).run p = .ok (e, p')) :
    Bound (vocabulary q) p e.leaves p' := by
  unfold compileConditionPredicate at h
  split at h
  case h_1 | h_2 => exact bound_literalPredicate hcolumn h
  case h_3 => exact bound_inPredicate hcolumn h
  case h_4 | h_5 => exact bound_nullPredicate hcolumn (by rfl) h
  case h_12 =>
    obtain ⟨v, p₁, hv, h⟩ := run_bind_eq_ok.mp h
    obtain ⟨-, rfl⟩ := run_lift_eq_ok.mp hv
    obtain ⟨param, p₂, hparam, h⟩ := run_bind_eq_ok.mp h
    obtain ⟨rfl, rfl⟩ := run_pure_eq_ok.mp h
    simp only [Expr.leaves, leaves_collate]
    exact (Bound.push hparam).text (hcolumn p₂)
  all_goals exact bound_comparisonPredicate hcolumn h

end Conditions

section Where

variable {tables : CharTables}

theorem bound_compileSingleCondition {vars : Variables} {c : Condition} {e : Expr}
    (hkeys : ∀ key ∈ c.property.keys, key ∈ q.keys)
    (h : (compileSingleCondition tables vars c).run p = .ok (e, p')) :
    Bound (vocabulary q) p e.leaves p' := by
  unfold compileSingleCondition at h
  split at h
  · exact absurd h Sql.run_throw_ne_ok
  · obtain ⟨column, p₁, hlift, h⟩ := run_bind_eq_ok.mp h
    obtain ⟨hcolumn, rfl⟩ := run_lift_eq_ok.mp hlift
    exact bound_compileConditionPredicate (fits_wherePropertyExpression hkeys hcolumn) h

theorem bound_combine {join : Expr → Expr → Expr} {l r : Option Expr} {p₁ : List Value}
    (hjoin : ∀ l r, (join l r).leaves = l.leaves ++ r.leaves)
    (hl : Bound (vocabulary q) p (leavesOf l.toList) p₁)
    (hr : Bound (vocabulary q) p₁ (leavesOf r.toList) p') :
    Bound (vocabulary q) p (leavesOf (combine join l r).toList) p' := by
  have hboth := hl.trans hr
  cases l with
  | none => cases r <;> simpa [combine] using hboth
  | some l =>
    cases r with
    | none => simpa [combine] using hboth
    | some r => simpa [combine, hjoin] using hboth

theorem bound_compileWhereExpr {vars : Variables} {w : WhereExpr} {e : Option Expr}
    (hkeys : ∀ c ∈ w.conditions, ∀ key ∈ c.property.keys, key ∈ q.keys)
    (h : (compileWhereExpr tables vars w).run p = .ok (e, p')) :
    Bound (vocabulary q) p (leavesOf e.toList) p' := by
  induction w generalizing p p' e with
  | true =>
    obtain ⟨rfl, rfl⟩ := run_pure_eq_ok.mp h
    exact .nil
  | condition c =>
    obtain ⟨e, p₁, he, h⟩ := run_bind_eq_ok.mp h
    obtain ⟨rfl, rfl⟩ := run_pure_eq_ok.mp h
    simpa using bound_compileSingleCondition (hkeys c List.mem_cons_self) he
  | and l r ihl ihr =>
    obtain ⟨el, p₁, hl, h⟩ := run_bind_eq_ok.mp h
    obtain ⟨er, p₂, hr, h⟩ := run_bind_eq_ok.mp h
    obtain ⟨rfl, rfl⟩ := run_pure_eq_ok.mp h
    rw [WhereExpr.conditions, List.forall_mem_append] at hkeys
    exact bound_combine (fun _ _ ↦ rfl) (ihl hkeys.1 hl) (ihr hkeys.2 hr)
  | or l r ihl ihr =>
    obtain ⟨el, p₁, hl, h⟩ := run_bind_eq_ok.mp h
    obtain ⟨er, p₂, hr, h⟩ := run_bind_eq_ok.mp h
    obtain ⟨rfl, rfl⟩ := run_pure_eq_ok.mp h
    rw [WhereExpr.conditions, List.forall_mem_append] at hkeys
    exact bound_combine (fun _ _ ↦ rfl) (ihl hkeys.1 hl) (ihr hkeys.2 hr)

end Where

/-! ## What is returned -/

theorem columnNames_of_propertyToColumn {prop column : String} {kind : VarKind}
    (h : propertyToColumn prop kind = .ok column) :
    column = prop ∧ columnNames.contains prop = true := by
  simp only [propertyToColumn] at h
  have hall : kind.propertyColumns.1.all columnNames.contains = true := by
    cases kind <;> rfl
  split at h
  · exact ⟨(pure_eq_ok.mp h).symm, List.all_eq_true.mp hall _ ‹_›⟩
  · exact absurd h throw_ne_ok

theorem mem_suffixes_of_contains {name : String} (h : columnNames.contains name = true) :
    name ∈ suffixes :=
  List.mem_append_left _ (List.contains_iff_mem.mp h)

/-- The columns are known, and their names come from the item. -/
structure ColumnsOf (item : ReturnItem) (columns : List (String × Expr)) : Prop where
  leaves : (leavesOf (columns.map Prod.snd)).all isFixed = true
  names : ∀ column ∈ columns, ∃ suffix ∈ suffixes, column.1 = item.var ++ "_" ++ suffix

theorem columnsOf_property {var prop column : String} (hcolumn : columnNames.contains column = true)
    (hprop : prop ∈ suffixes) :
    ColumnsOf (.property var prop) [(var ++ "_" ++ prop, .column source column)] where
  leaves := by simp [Expr.leaves, isFixed, List.contains_iff_mem.mp hcolumn]
  names := by simpa using ⟨prop, hprop, rfl⟩

theorem columnsOf_whole {var : String} {columns : List (String × String)}
    (hcolumns : columns.all (fun column ↦ columnNames.contains column.1 &&
      suffixes.contains column.2) = true) :
    ColumnsOf (.whole var) (columns.map fun (column, suffix) ↦
      (var ++ "_" ++ suffix, .column source column)) where
  leaves := by
    simp only [leavesOf, List.map_map, List.flatMap_map, List.all_flatMap]
    refine List.all_eq_true.mpr fun column hcolumn ↦ ?_
    have hboth := List.all_eq_true.mp hcolumns column hcolumn
    rw [Bool.and_eq_true] at hboth
    simpa [Expr.leaves, isFixed] using hboth.1
  names := by
    intro column hcolumn
    obtain ⟨⟨name, suffix⟩, hmem, rfl⟩ := List.mem_map.mp hcolumn
    have hboth := List.all_eq_true.mp hcolumns _ hmem
    rw [Bool.and_eq_true] at hboth
    exact ⟨suffix, List.contains_iff_mem.mp hboth.2, rfl⟩

theorem columnsOf_returnColumns {vars : Variables} {item : ReturnItem}
    {columns : List (String × Expr)} (h : returnColumns vars item = .ok columns) :
    ColumnsOf item columns := by
  unfold returnColumns at h
  split at h
  · exact absurd h throw_ne_ok
  split at h
  · obtain ⟨column, hcolumn, h⟩ := bind_eq_ok.mp h
    obtain rfl := pure_eq_ok.mp h
    obtain ⟨rfl, hknown⟩ := columnNames_of_propertyToColumn hcolumn
    exact columnsOf_property hknown (mem_suffixes_of_contains hknown)
  · rename_i kind _ _ _
    obtain rfl := pure_eq_ok.mp h
    exact columnsOf_whole (by cases kind <;> rfl)

theorem columnsOf_variableLengthColumns {vars : Variables} {start : Option String}
    {item : ReturnItem} {columns : List (String × Expr)} {isStart : Bool}
    (h : variableLengthColumns vars start item = .ok (columns, isStart)) :
    ColumnsOf item columns := by
  unfold variableLengthColumns at h
  split at h
  case h_1 | h_2 | h_3 => exact absurd h throw_ne_ok
  case h_4 =>
    split at h
    · obtain ⟨column, hcolumn, h⟩ := bind_eq_ok.mp h
      obtain ⟨rfl, -⟩ := Prod.mk.inj (pure_eq_ok.mp h)
      obtain ⟨rfl, hknown⟩ := columnNames_of_propertyToColumn hcolumn
      exact columnsOf_property hknown (mem_suffixes_of_contains hknown)
    · obtain ⟨rfl, -⟩ := Prod.mk.inj (pure_eq_ok.mp h)
      exact columnsOf_whole rfl
  case h_5 =>
    split at h
    · split at h
      · rename_i prop _ column suffix hfind
        obtain ⟨rfl, -⟩ := Prod.mk.inj (pure_eq_ok.mp h)
        have hall : viaColumns.all (fun column ↦ columnNames.contains column.1 &&
            suffixes.contains column.2) = true := rfl
        have hboth := List.all_eq_true.mp hall _ (List.mem_of_find?_eq_some hfind)
        rw [Bool.and_eq_true] at hboth
        obtain rfl : suffix = _ := by simpa using List.find?_some hfind
        exact columnsOf_property hboth.1 (List.contains_iff_mem.mp hboth.2)
      · exact absurd h throw_ne_ok
    · obtain ⟨rfl, -⟩ := Prod.mk.inj (pure_eq_ok.mp h)
      exact columnsOf_whole rfl

/-- The columns of all items, with their names. -/
theorem fits_columns (columns : List (List (String × Expr)))
    (h : ∀ list ∈ columns, ∃ item ∈ q.returnItems, ColumnsOf item list) :
    (∀ leaf ∈ leavesOf (columns.flatten.map Prod.snd), leaf.Fits (vocabulary q) p) ∧
      ∀ column ∈ columns.flatten, (Leaf.output column.1).Fits (vocabulary q) p := by
  constructor
  · intro leaf hleaf
    obtain ⟨e, he, hleaf⟩ := List.mem_flatMap.mp hleaf
    obtain ⟨column, hcolumn, rfl⟩ := List.mem_map.mp he
    obtain ⟨list, hlist, hcolumn⟩ := List.mem_flatten.mp hcolumn
    obtain ⟨item, -, hitem⟩ := h list hlist
    exact fits_of_all hitem.leaves leaf
      (List.mem_flatMap.mpr ⟨_, List.mem_map_of_mem hcolumn, hleaf⟩)
  · intro column hcolumn
    obtain ⟨list, hlist, hcolumn⟩ := List.mem_flatten.mp hcolumn
    obtain ⟨item, hitem, hcolumns⟩ := h list hlist
    exact .inr ⟨item, hitem, hcolumns.names column hcolumn⟩

theorem bound_boundInteger {n : UInt64} {message : String} {placeholder : Placeholder}
    (h : (boundInteger n message).run p = .ok (placeholder, p')) :
    Bound (vocabulary q) p [placeholder.leaf] p' := by
  unfold boundInteger at h
  split at h
  · exact .pushPlaceholder h
  · exact absurd h Sql.run_throw_ne_ok

theorem bound_bindPage {v : GqlQuery} {offset limit : Placeholder} {check : Option TruncationCheck}
    (h : (bindPage v opts).run p = .ok ((offset, limit, check), p')) :
    Bound (vocabulary q) p [limit.leaf, offset.leaf] p' := by
  obtain ⟨offset', p₁, hoffset, h⟩ := run_bind_eq_ok.mp h
  obtain ⟨limit', p₂, hlimit, h⟩ := run_bind_eq_ok.mp h
  obtain ⟨heq, rfl⟩ := run_pure_eq_ok.mp h
  simp only [Prod.mk.injEq] at heq
  obtain ⟨rfl, rfl, -⟩ := heq
  exact ((bound_boundInteger hoffset).trans (bound_boundInteger hlimit)).congr
    (by simp [or_comm])

/-! ## Statements -/

/-- The actor of the mailbox. -/
def actorLeaves (mailbox : Option MailboxLowering) : List Leaf :=
  mailbox.toList.map fun m ↦ .param m.actorParameter m.actor

theorem bound_bindMailbox {scope : Option QueryMailboxScope} {mailbox : Option MailboxLowering}
    (h : (bindMailbox scope).run p = .ok (mailbox, p')) :
    Bound (vocabulary q) p (actorLeaves mailbox) p' ∧ MailboxFits p' mailbox := by
  cases scope with
  | none =>
    obtain ⟨rfl, rfl⟩ := run_pure_eq_ok.mp h
    exact ⟨.nil, by simp [MailboxFits]⟩
  | some scope =>
    obtain ⟨rfl, rfl⟩ := Prod.mk.inj (Except.ok.inj h)
    refine ⟨.single _, ?_⟩
    intro m hm
    obtain rfl := Option.some.inj hm
    simp

/-- The first source, or the target of the first edge, reads notes. -/
theorem actor_mem_lowerChain {mailbox : Option MailboxLowering} {elements : List PatternElement}
    {fs : List Fragment} (helements : Alternating elements)
    (h : (lowerChain opts mailbox false 0 elements).run p = .ok (fs, p')) :
    ∀ leaf ∈ actorLeaves mailbox, leaf ∈ (fs.flatMap Fragment.sources).flatMap FromItem.leaves := by
  cases mailbox with
  | none => simp [actorLeaves]
  | some m =>
    simp only [actorLeaves, Option.toList_some, List.map_cons, List.map_nil, List.mem_singleton,
      forall_eq]
    have hprimary := actor_mem_primaryNodes (m := m)
    have htargets := actor_mem_observationTargets (m := m)
    rw [List.mem_flatMap]
    cases helements with
    | single n =>
      obtain ⟨node, p₁, hnode, h⟩ := run_bind_eq_ok.mp h
      obtain ⟨rfl, rfl⟩ := run_pure_eq_ok.mp h
      obtain ⟨conditions, -, rfl⟩ := lowerNode_eq_ok.mp hnode
      exact ⟨_, List.mem_flatMap.mpr ⟨_, List.mem_cons_self, List.mem_cons_self⟩,
        List.mem_append_left _ hprimary⟩
    | @cons n e rest hrest =>
      obtain ⟨node, p₁, hnode, h⟩ := run_bind_eq_ok.mp h
      obtain ⟨edge, p₂, hedge, h⟩ := run_bind_eq_ok.mp h
      obtain ⟨fs, p₃, -, h⟩ := run_bind_eq_ok.mp h
      obtain ⟨rfl, rfl⟩ := run_pure_eq_ok.mp h
      cases he : e.hasSynthetic with
      | true =>
        -- an observation: the events that come first have no actor, but its targets may be notes
        obtain ⟨roles, -, rfl⟩ := lowerEdge_synthetic he hedge
        exact ⟨_, List.mem_flatMap.mpr ⟨_, List.mem_cons_of_mem _ List.mem_cons_self,
          List.mem_cons_of_mem _ List.mem_cons_self⟩, List.mem_append_left _ htargets⟩
      | false =>
        have hrole : chainRole false (.edge e :: rest) = .primary := by
          rw [chainRole, he]
          rfl
        rw [hrole] at hnode
        obtain ⟨conditions, -, rfl⟩ := lowerNode_eq_ok.mp hnode
        exact ⟨_, List.mem_flatMap.mpr ⟨_, List.mem_cons_self, List.mem_cons_self⟩,
          List.mem_append_left _ hprimary⟩

/-- The leaves of the parts, collected by kind. -/
theorem mem_leaves_fragments {fs : List Fragment} {leaf : Leaf} :
    leaf ∈ fs.flatMap Fragment.leaves ↔
      leaf ∈ (fs.flatMap Fragment.sources).flatMap FromItem.leaves ∨
      leaf ∈ leavesOf (fs.flatMap Fragment.conditions) ∨
      leaf ∈ (fs.flatMap Fragment.order).flatMap OrderTerm.leaves := by
  simp only [Fragment.leaves, leavesOf, List.flatMap_assoc, List.mem_flatMap, List.mem_append,
    and_or_left, exists_or, or_assoc]

/-- The two queries have the same keys and return the same. -/
structure SameWords (q v : GqlQuery) : Prop where
  elementKeys : ∀ key ∈ v.elements.flatMap PatternElement.keys, key ∈ q.keys
  conditionKeys : ∀ c ∈ v.whereClause.conditions, ∀ key ∈ c.property.keys, key ∈ q.keys
  returnItems : v.returnItems = q.returnItems

theorem Validated.sameWords {v : GqlQuery} (h : Validated q v) : SameWords q v where
  elementKeys key hkey := by
    obtain ⟨element, helement, hkey⟩ := List.mem_flatMap.mp hkey
    obtain ⟨old, hold, hsame⟩ := exists_of_mem_forall₂ h.elements helement
    refine List.mem_append_left _ (List.mem_flatMap.mpr ⟨old, hold, ?_⟩)
    cases hsame with
    | node n => exact hkey
    | edge e relations => exact hkey
  conditionKeys c hc key hkey := by
    obtain ⟨old, hold, hsame⟩ := exists_of_mem_forall₂ h.conditions hc
    exact List.mem_append_right _ (List.mem_flatMap.mpr ⟨old, hold, hsame.property ▸ hkey⟩)
  returnItems := h.returnItems

theorem FixedRun.bound {tables : CharTables} {v : GqlQuery} {scope : Option QueryMailboxScope}
    {sql : Statement} (run : FixedRun tables v opts scope sql p) (hwords : SameWords q v)
    (helements : Alternating v.elements) : Bound (vocabulary q) [] sql.leaves p := by
  obtain ⟨hactor, hm⟩ := bound_bindMailbox (q := q) run.bindMailbox
  have hfragments := bound_lowerChain helements hm hwords.elementKeys run.elements
  have hcondition := bound_compileWhereExpr hwords.conditionKeys run.whereClause
  have hpage := bound_bindPage (q := q) run.bindPage
  -- the actor is in a source, since the pattern is a chain
  have hactorMem := actor_mem_lowerChain helements run.elements
  have hitems := fits_columns (q := q) (p := p) run.items fun list hlist ↦ by
    obtain ⟨item, hitem, hlist⟩ := exists_of_mem_mapM run.returnItems hlist
    exact ⟨item, hwords.returnItems ▸ hitem, columnsOf_returnColumns hlist⟩
  rw [run.statement]
  refine (((hactor.trans hfragments).trans hcondition).trans hpage).weaken ?_ ?_
  · intro leaf hleaf
    simp only [List.mem_append, mem_leaves_fragments] at hleaf
    simp only [fixedStatement, Statement.leaves, Select.leaves, Sql.leavesOf_append, List.mem_append]
    have hactorLeaf := hactorMem leaf
    tauto
  · intro leaf hleaf
    simp only [fixedStatement, Statement.leaves, Select.leaves, Sql.leavesOf_append, List.mem_append,
      Option.map_none, Option.getD_none, List.not_mem_nil, false_or, List.mem_map] at hleaf
    simp only [List.mem_append, mem_leaves_fragments]
    rcases hleaf with ((((hleaf | hleaf) | hleaf) | ⟨column, hcolumn, rfl⟩) | hleaf) | hleaf
    · exact .inr (hitems.1 leaf hleaf)
    · tauto
    · tauto
    · exact .inr (hitems.2 column hcolumn)
    · tauto
    · tauto

/-! ## Paths -/

section Endpoints

variable {tables : CharTables} {start stop : Option String}

theorem bound_compileVarLenCondition {c : Condition} {e : Expr × Bool}
    (hkeys : ∀ key ∈ c.property.keys, key ∈ q.keys)
    (h : (compileVarLenCondition tables start stop c).run p = .ok (e, p')) :
    Bound (vocabulary q) p e.1.leaves p' := by
  unfold compileVarLenCondition at h
  split at h
  · obtain ⟨column, p₁, hlift, h⟩ := run_bind_eq_ok.mp h
    obtain ⟨hcolumn, rfl⟩ := run_lift_eq_ok.mp hlift
    obtain ⟨e, p₂, he, h⟩ := run_bind_eq_ok.mp h
    obtain ⟨rfl, rfl⟩ := run_pure_eq_ok.mp h
    exact bound_compileConditionPredicate (fits_wherePropertyExpression hkeys hcolumn) he
  split at h
  · obtain ⟨column, p₁, hlift, h⟩ := run_bind_eq_ok.mp h
    obtain ⟨hcolumn, rfl⟩ := run_lift_eq_ok.mp hlift
    obtain ⟨e, p₂, he, h⟩ := run_bind_eq_ok.mp h
    obtain ⟨rfl, rfl⟩ := run_pure_eq_ok.mp h
    exact bound_compileConditionPredicate (fits_wherePropertyExpression hkeys hcolumn) he
  · exact absurd h Sql.run_throw_ne_ok

/-- Leaves of a part that may be missing. -/
def endpointLeaves (e : Option (Expr × Bool)) : List Leaf := leavesOf (e.map Prod.fst).toList

theorem bound_combineEndpoint {join : Expr → Expr → Expr} {l r : Option (Expr × Bool)}
    {p₁ : List Value} (hjoin : ∀ l r, (join l r).leaves = l.leaves ++ r.leaves)
    (hl : Bound (vocabulary q) p (endpointLeaves l) p₁)
    (hr : Bound (vocabulary q) p₁ (endpointLeaves r) p') :
    Bound (vocabulary q) p (endpointLeaves (combineEndpoint join l r)) p' := by
  have hboth := hl.trans hr
  cases l with
  | none => cases r <;> simpa [combineEndpoint, endpointLeaves] using hboth
  | some l =>
    cases r with
    | none => simpa [combineEndpoint, endpointLeaves] using hboth
    | some r => simpa [combineEndpoint, endpointLeaves, hjoin] using hboth

theorem bound_compileVariableLengthWhereToSql {w : WhereExpr} {e : Option (Expr × Bool)}
    (hkeys : ∀ c ∈ w.conditions, ∀ key ∈ c.property.keys, key ∈ q.keys)
    (h : (compileVariableLengthWhereToSql tables start stop w).run p = .ok (e, p')) :
    Bound (vocabulary q) p (endpointLeaves e) p' := by
  induction w generalizing p p' e with
  | true =>
    obtain ⟨rfl, rfl⟩ := run_pure_eq_ok.mp h
    exact .nil
  | condition c =>
    obtain ⟨e, p₁, he, h⟩ := run_bind_eq_ok.mp h
    obtain ⟨rfl, rfl⟩ := run_pure_eq_ok.mp h
    simpa [endpointLeaves] using bound_compileVarLenCondition (hkeys c List.mem_cons_self) he
  | and l r ihl ihr | or l r ihl ihr =>
    obtain ⟨el, p₁, hl, h⟩ := run_bind_eq_ok.mp h
    obtain ⟨er, p₂, hr, h⟩ := run_bind_eq_ok.mp h
    obtain ⟨rfl, rfl⟩ := run_pure_eq_ok.mp h
    rw [WhereExpr.conditions, List.forall_mem_append] at hkeys
    exact bound_combineEndpoint (fun _ _ ↦ rfl) (ihl hkeys.1 hl) (ihr hkeys.2 hr)

def Routed.leaves (r : Routed) : List Leaf := leavesOf r.start ++ leavesOf r.stop

theorem leaves_routedOf (e : Option (Expr × Bool)) : (Routed.of e).leaves = endpointLeaves e := by
  obtain _ | ⟨e, _ | _⟩ := e <;> simp [Routed.of, Routed.leaves, endpointLeaves]

theorem bound_compileVariableLengthWhere {w : WhereExpr} {r : Routed}
    (hkeys : ∀ c ∈ w.conditions, ∀ key ∈ c.property.keys, key ∈ q.keys)
    (h : (compileVariableLengthWhere tables start stop w).run p = .ok (r, p')) :
    Bound (vocabulary q) p r.leaves p' := by
  induction w generalizing p p' r with
  | true =>
    obtain ⟨rfl, rfl⟩ := run_pure_eq_ok.mp h
    exact .nil
  | condition c =>
    obtain ⟨e, p₁, he, h⟩ := run_bind_eq_ok.mp h
    obtain ⟨rfl, rfl⟩ := run_pure_eq_ok.mp h
    rw [leaves_routedOf]
    simpa [endpointLeaves] using bound_compileVarLenCondition (hkeys c List.mem_cons_self) he
  | and l r ihl ihr =>
    obtain ⟨rl, p₁, hl, h⟩ := run_bind_eq_ok.mp h
    obtain ⟨rr, p₂, hr, h⟩ := run_bind_eq_ok.mp h
    obtain ⟨rfl, rfl⟩ := run_pure_eq_ok.mp h
    rw [WhereExpr.conditions, List.forall_mem_append] at hkeys
    refine ((ihl hkeys.1 hl).trans (ihr hkeys.2 hr)).congr fun leaf ↦ ?_
    simp only [Routed.leaves, Sql.leavesOf_append, List.mem_append]
    tauto
  | or l r ihl ihr =>
    obtain ⟨el, p₁, hl, h⟩ := run_bind_eq_ok.mp h
    obtain ⟨er, p₂, hr, h⟩ := run_bind_eq_ok.mp h
    obtain ⟨rfl, rfl⟩ := run_pure_eq_ok.mp h
    rw [WhereExpr.conditions, List.forall_mem_append] at hkeys
    rw [leaves_routedOf]
    exact bound_combineEndpoint (fun _ _ ↦ rfl)
      (bound_compileVariableLengthWhereToSql hkeys.1 hl)
      (bound_compileVariableLengthWhereToSql hkeys.2 hr)

end Endpoints

section Traverse

variable {mailbox : Option MailboxLowering} {direction : EdgeDirection} {filters : PathFilters}

/-- The filters on the edge and the node behind it. -/
def PathFilters.stepLeaves (filters : PathFilters) : List Leaf :=
  leavesOf filters.edgeScope ++ leavesOf filters.relations ++ leavesOf filters.nextScope

theorem mem_leaves_pathStep {kind : Sql.JoinKind} {prev : Expr} {leaf : Leaf}
    (h : leaf ∈ filters.stepLeaves) :
    leaf ∈ (pathStep mailbox direction filters kind prev).flatMap FromItem.leaves := by
  simp only [PathFilters.stepLeaves, List.mem_append] at h
  simp only [pathStep, List.flatMap_cons, List.flatMap_nil, FromItem.leaves, Sql.leavesOf_append,
    List.mem_append]
  tauto

theorem leaves_pathStep {kind : Sql.JoinKind} {name : String} (hm : MailboxFits p mailbox)
    (hname : columnNames.contains name = true) :
    ∀ leaf ∈ (pathStep mailbox direction filters kind (.column source name)).flatMap
      FromItem.leaves, leaf ∈ filters.stepLeaves ∨ leaf.Fits (vocabulary q) p := by
  intro leaf h
  simp only [pathStep, List.flatMap_cons, List.flatMap_nil, FromItem.leaves, Sql.leavesOf_append,
    Sql.leavesOf_cons, Sql.leavesOf_nil, List.append_nil, List.mem_append] at h
  simp only [PathFilters.stepLeaves, List.mem_append]
  rcases h with (h | ((h | h) | h) | h) | h | (h | h) | h
  · exact .inr (fits_edgeSource hm leaf h)
  · exact .inr (fits_edgeJoin hname leaf h)
  · exact .inr (fits_of_all rfl leaf h)
  · exact .inl (.inl (.inl h))
  · exact .inl (.inl (.inr h))
  · exact .inr (fits_of_all rfl leaf h)
  · rcases List.mem_append.mp h with h | h
    · exact .inr (fits_of_all rfl leaf h)
    · exact .inr (fits_edgeNext hname leaf h)
  · exact .inr (fits_of_all rfl leaf h)
  · exact .inl (.inr h)

theorem leaves_seed (hm : MailboxFits p mailbox) :
    ∀ leaf ∈ (seed mailbox direction filters).leaves,
      leaf ∈ filters.stepLeaves ++ leavesOf filters.start ∨ leaf.Fits (vocabulary q) p := by
  have hitems : (leavesOf ((seed mailbox direction filters).items.map Prod.snd)).all isFixed = true :=
    by cases direction <;> rfl
  intro leaf h
  rw [List.mem_append]
  rcases List.mem_append.mp h with h | h
  · rcases List.mem_append.mp h with h | h
    · exact .inr (fits_of_all hitems leaf h)
    rcases List.mem_append.mp h with h | h
    · exact .inr (fits_of_all rfl leaf h)
    · exact (leaves_pathStep hm rfl leaf h).imp_left .inl
  · exact .inl (.inr h)

theorem leaves_step (hm : MailboxFits p mailbox) :
    ∀ leaf ∈ (step mailbox direction filters).leaves,
      leaf ∈ filters.stepLeaves ++ filters.depth.leaves ∨ leaf.Fits (vocabulary q) p := by
  have hitems : (leavesOf ((step mailbox direction filters).items.map Prod.snd)).all isFixed = true :=
    by cases direction <;> rfl
  intro leaf h
  rw [List.mem_append]
  rcases List.mem_append.mp h with h | h
  · rcases List.mem_append.mp h with h | h
    · exact .inr (fits_of_all hitems leaf h)
    rcases List.mem_append.mp h with h | h
    · exact .inr (fits_of_all rfl leaf h)
    · exact (leaves_pathStep hm rfl leaf h).imp_left .inl
  · rcases List.mem_append.mp h with h | h
    · rcases List.mem_append.mp h with h | h
      · exact .inr (fits_of_all rfl leaf h)
      · exact .inl (.inr h)
    · have hunvisited : (leavesOf [unvisited direction]).all isFixed = true := by
        cases direction <;> rfl
      exact .inr (fits_of_all hunvisited leaf h)

/-- The filters are in the two parts of the recursive table. -/
theorem mem_leaves_seed {leaf : Leaf} (h : leaf ∈ filters.stepLeaves ++ leavesOf filters.start) :
    leaf ∈ (seed mailbox direction filters).leaves := by
  rcases List.mem_append.mp h with h | h
  · exact List.mem_append_left _ (List.mem_append_right _
      (List.mem_append_right _ (mem_leaves_pathStep h)))
  · exact List.mem_append_right _ h

theorem mem_leaves_step {leaf : Leaf} (h : leaf ∈ filters.depth.leaves) :
    leaf ∈ (step mailbox direction filters).leaves :=
  List.mem_append_right _ (List.mem_append_left _ (List.mem_append_right _ h))

theorem fits_outerSources (hasStart : Bool) :
    ∀ leaf ∈ (outerSources hasStart).flatMap FromItem.leaves, leaf.Fits (vocabulary q) p :=
  fits_of_all (by cases hasStart <;> rfl)

end Traverse

theorem bound_minimumDepth {hops : Nat} {es : List Expr}
    (h : (minimumDepth hops).run p = .ok (es, p')) : Bound (vocabulary q) p (leavesOf es) p' := by
  unfold minimumDepth at h
  split at h
  · obtain ⟨param, p₁, hparam, h⟩ := run_bind_eq_ok.mp h
    obtain ⟨rfl, rfl⟩ := run_pure_eq_ok.mp h
    have hdepth : ∀ leaf ∈ (Expr.column "t" "depth").leaves, leaf.Fits (vocabulary q) p₁ :=
      fits_of_all rfl
    simpa [Expr.leaves] using (Bound.push hparam).text hdepth
  · obtain ⟨rfl, rfl⟩ := run_pure_eq_ok.mp h
    exact .nil

/-- The parts of a recursive statement that bind parameters. -/
def pathLeaves (mailbox : Option MailboxLowering) (filters : PathFilters) (conditions : List Expr)
    (limit offset : Placeholder) : List Leaf :=
  actorLeaves mailbox ++ filters.stepLeaves ++ leavesOf filters.start ++ filters.depth.leaves ++
    leavesOf conditions ++ [limit.leaf, offset.leaf]

section PathStatement

variable {mailbox : Option MailboxLowering} {direction : EdgeDirection} {filters : PathFilters}
  {returned : List (List (String × Expr) × Bool)} {conditions : List Expr}
  {limit offset : Placeholder}

theorem mem_leaves_pathStatement {leaf : Leaf}
    (h : leaf ∈ pathLeaves mailbox filters conditions limit offset) :
    leaf ∈ (pathStatement mailbox direction filters returned conditions limit offset).leaves := by
  have hactor : leaf ∈ actorLeaves mailbox → leaf ∈ (primaryNodes mailbox).flatMap Member.leaves := by
    intro hleaf
    cases mailbox with
    | none => exact absurd hleaf List.not_mem_nil
    | some m =>
      obtain rfl := List.mem_singleton.mp hleaf
      exact actor_mem_primaryNodes
  simp only [pathLeaves, List.mem_append] at h
  simp only [pathStatement, Statement.leaves, WithClause.leaves, Option.map_some, Option.getD_some,
    List.mem_append]
  rcases h with ((((h | h) | h) | h) | h) | h
  · exact .inl (.inl (.inl (.inl (.inl (.inl (hactor h))))))
  · exact .inl (.inl (.inl (.inl (.inl (.inr (mem_leaves_seed (List.mem_append_left _ h)))))))
  · exact .inl (.inl (.inl (.inl (.inl (.inr (mem_leaves_seed (List.mem_append_right _ h)))))))
  · exact .inl (.inl (.inl (.inl (.inr (mem_leaves_step h)))))
  · exact .inl (.inl (.inl (.inr (List.mem_append_right _ h))))
  · exact .inr h

/-- What is returned, besides the depth and the weight of the path. -/
theorem leaves_pathStatement (hm : MailboxFits p mailbox)
    (hitems : (∀ leaf ∈ leavesOf ((returned.map Prod.fst).flatten.map Prod.snd),
        leaf.Fits (vocabulary q) p) ∧
      ∀ column ∈ (returned.map Prod.fst).flatten, (Leaf.output column.1).Fits (vocabulary q) p) :
    ∀ leaf ∈ (pathStatement mailbox direction filters returned conditions limit offset).leaves,
      leaf ∈ pathLeaves mailbox filters conditions limit offset ∨ leaf.Fits (vocabulary q) p := by
  rw [← List.flatMap_def] at hitems
  intro leaf h
  simp only [pathLeaves, List.mem_append]
  rcases List.mem_append.mp h with h | h
  swap
  · exact .inl (.inr h)
  rcases List.mem_append.mp h with h | h
  swap
  · -- ordered by what is returned
    obtain ⟨term, hterm, h⟩ := List.mem_flatMap.mp h
    rcases List.mem_append.mp hterm with hterm | hterm
    · have hfixed : ∀ name ∈ ["_depth", "_total_weight"],
          (Leaf.output name).Fits (vocabulary q) p := fun name hname ↦ .inl hname
      simp only [List.mem_cons, List.not_mem_nil, or_false] at hterm
      rcases hterm with rfl | rfl
      · obtain rfl := List.mem_singleton.mp h
        exact .inr (hfixed _ (by simp))
      · obtain rfl := List.mem_singleton.mp h
        exact .inr (hfixed _ (by simp))
    · obtain ⟨name, hname, rfl⟩ := List.mem_map.mp hterm
      obtain ⟨column, hcolumn, rfl⟩ := List.mem_map.mp (List.mem_of_mem_filter hname)
      obtain rfl := List.mem_singleton.mp h
      exact .inr (hitems.2 column hcolumn)
  rcases List.mem_append.mp h with h | h
  swap
  · obtain ⟨column, hcolumn, rfl⟩ := List.mem_map.mp h
    rcases List.mem_append.mp hcolumn with hcolumn | hcolumn
    · exact .inr (hitems.2 column hcolumn)
    · refine .inr (.inl ?_)
      simp only [List.mem_cons, List.not_mem_nil, or_false] at hcolumn
      rcases hcolumn with rfl | rfl <;> simp
  rcases List.mem_append.mp h with h | h
  · -- the tables of the statement
    rcases List.mem_append.mp h with h | h
    · rcases List.mem_append.mp h with h | h
      · exact .inr (fits_primaryNodes hm leaf h)
      · rcases leaves_seed hm leaf h with h | h
        · rcases List.mem_append.mp h with h | h <;> tauto
        · exact .inr h
    · rcases leaves_step hm leaf h with h | h
      · rcases List.mem_append.mp h with h | h <;> tauto
      · exact .inr h
  · rcases List.mem_append.mp h with h | h
    · rcases List.mem_append.mp h with h | h
      · simp only [pathStatement, List.map_append, Sql.leavesOf_append, List.mem_append] at h
        rcases h with h | h
        · exact .inr (hitems.1 leaf h)
        · exact .inr (fits_of_all rfl leaf h)
      · exact .inr (fits_outerSources _ leaf h)
    · exact .inl (.inl (.inr h))

end PathStatement

theorem PathRun.bound {tables : CharTables} {v : GqlQuery} {scope : Option QueryMailboxScope}
    {sql : Statement} (run : PathRun tables v opts scope sql p) (hwords : SameWords q v) :
    Bound (vocabulary q) [] sql.leaves p := by
  have hkeys := hwords.elementKeys
  simp only [run.elements, List.flatMap_cons, List.flatMap_nil, List.forall_mem_append] at hkeys
  obtain ⟨hactor, hm⟩ := bound_bindMailbox (q := q) run.bindMailbox
  have hstart := bound_nodeConditions hkeys.1 rfl
    (fun _ _ _ _ ↦ bound_kindFilterPredicate) run.bindStart
  have hrelations : Bound (vocabulary q) run.p₂ (leavesOf run.relations) run.p₃ :=
    bound_oneOf rfl run.bindRelations
  have hedgeScope := bound_namespaceFilter (q := q) run.bindEdgeScope
  have hnextScope := bound_namespaceFilter (q := q) run.bindNextScope
  have hdepth : Bound (vocabulary q) run.p₅ run.depth.leaves run.p₆ := .push run.bindDepth
  have hstop := bound_nodeConditions hkeys.2.2.1 rfl
    (fun _ _ _ _ ↦ bound_kindFilterPredicate) run.bindStop
  have hrouted := bound_compileVariableLengthWhere hwords.conditionKeys run.whereClause
  have hminimum := bound_minimumDepth (q := q) run.bindMinimum
  have hpage := bound_bindPage (q := q) run.bindPage
  have hrest := hstart.trans (hrelations.trans (hedgeScope.trans (hnextScope.trans
    (hdepth.trans (hstop.trans (hrouted.trans (hminimum.trans hpage)))))))
  have hm' : MailboxFits p run.mailbox := hm.mono hrest.grows
  have hitems := fits_columns (q := q) (p := p) (run.returned.map Prod.fst) fun list hlist ↦ by
    obtain ⟨⟨columns, isStart⟩, hmem, rfl⟩ := List.mem_map.mp hlist
    obtain ⟨item, hitem, hcolumns⟩ := exists_of_mem_mapM run.returnItems hmem
    exact ⟨item, hwords.returnItems ▸ hitem, columnsOf_variableLengthColumns hcolumns⟩
  rw [run.statement]
  refine (hactor.trans hrest).weaken (fun leaf hleaf ↦ mem_leaves_pathStatement ?_)
    fun leaf hleaf ↦ (leaves_pathStatement hm' hitems leaf hleaf).imp_left fun hleaf ↦ ?_
  · simp only [List.mem_append, Routed.leaves] at hleaf
    simp only [pathLeaves, PathFilters.stepLeaves, Sql.leavesOf_append, List.mem_append]
    tauto
  · simp only [pathLeaves, PathFilters.stepLeaves, Sql.leavesOf_append, List.mem_append] at hleaf
    simp only [List.mem_append, Routed.leaves]
    tauto

/-- Tables for ASCII. -/
def asciiTables : CharTables := ⟨Char.isAlphanum, fun _ ↦ false⟩

/-- `MATCH (a:concept {status: 'draft'}) WHERE a.name IN ['x', 'y'] RETURN a.name`. -/
def conceptQuery : GqlQuery where
  elements := [.node ⟨some "a", some "concept", none, [("status", .string "draft")]⟩]
  whereClause := .condition ⟨"a", .field "name", .isIn, .list [.string "x", .string "y"]⟩
  returnItems := [.property "a" "name"]
  offset := 0
  limit := none

end Query

end Khive
