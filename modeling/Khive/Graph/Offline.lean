import Khive.Graph.Endpoints
import Khive.Query.Ast
import Khive.Request.Scan

/-!
# Offline endpoint validation

`kg validate` checks the edges of an exported graph from its three NDJSON files, with no database
to resolve identifiers in. It keeps a map from identifiers to substrate, kind and type, filled from
the records of the files, and restates the dispatch of the endpoint contract over that map. The JSON
parser is a parameter.

For identifiers that the files hold once, the check reports an edge exactly when the contract does
not admit it, so it agrees with the live check of a database that holds the same records.
-/

namespace Khive

/-- `str::lines`: only a line that ends in a line feed loses a carriage return before it. -/
def textLines (content : String) : List String :=
  let pieces := content.toList.splitOn '\n'
  let ended := pieces.dropLast.map fun line ↦
    if line.getLast? = some '\r' then line.dropLast else line
  let rest := pieces.getLast?.toList.filter fun line ↦ !line.isEmpty
  (ended ++ rest).map String.ofList

namespace Offline

section Records

variable (parse : String → Option JsonValue)

/-- `parsed_ndjson_values`: the lines that are not blank and parse. -/
def parsedNdjsonValues (content : String) : List JsonValue :=
  ((textLines content).filter fun line ↦ !(trim line.toList).isEmpty).filterMap parse

/-- `edge_source_id`. -/
def edgeSourceId (v : JsonValue) : Option String :=
  ((v.get "source").or (v.get "source_id")).bind JsonValue.asStr

/-- `edge_target_id`. -/
def edgeTargetId (v : JsonValue) : Option String :=
  ((v.get "target").or (v.get "target_id")).bind JsonValue.asStr

/-- `edge_record_id`. -/
def edgeRecordId (v : JsonValue) : Option String :=
  ((v.get "edge_id").or (v.get "id")).bind JsonValue.asStr

/-- The `id` of an entity or a note. -/
def recordId (v : JsonValue) : Option String := (v.get "id").bind JsonValue.asStr

def recordKind (v : JsonValue) : Option String := (v.get "kind").bind JsonValue.asStr

def recordEntityType (v : JsonValue) : Option String := (v.get "entity_type").bind JsonValue.asStr

/-- The relation that an edge names. -/
def edgeRelation (v : JsonValue) : Option EdgeRelation :=
  ((v.get "relation").bind JsonValue.asStr).bind EdgeRelation.fromStr

/-- `collect_edge_ids`. -/
def collectEdgeIds (content : String) : List String :=
  (parsedNdjsonValues parse content).filterMap edgeRecordId

end Records

/-! ## The kind map -/

structure KindInfo where
  substrate : String
  kind : String
  entityType : Option String

/-- `HashMap<String, KindInfo>`. -/
abbrev KindMap := String → Option KindInfo

namespace KindMap

def empty : KindMap := fun _ ↦ none

/-- `HashMap::insert`. -/
def insert (m : KindMap) (entry : String × KindInfo) : KindMap :=
  Function.update m entry.1 (some entry.2)

/-- `entry(id).or_insert(info)`. -/
def orInsert (m : KindMap) (entry : String × KindInfo) : KindMap :=
  if (m entry.1).isSome then m else m.insert entry

end KindMap

/-- What a record enters into the map, if it has an identifier and a kind. -/
def recordEntry (info : JsonValue → String → KindInfo) (v : JsonValue) :
    Option (String × KindInfo) := do
  let id ← recordId v
  let kind ← recordKind v
  return (id, info v kind)

def entityInfo (v : JsonValue) (kind : String) : KindInfo := ⟨"entity", kind, recordEntityType v⟩

def noteInfo (_ : JsonValue) (kind : String) : KindInfo := ⟨"note", kind, none⟩

def edgeInfo : KindInfo := ⟨"edge", "edge", none⟩

/-- The three files. -/
structure Files where
  entities : String
  notes : String
  edges : String

section Check

variable (parse : String → Option JsonValue)

/-- `collect_kind_map`. -/
def collectKindMap (files : Files) : KindMap :=
  let map := ((parsedNdjsonValues parse files.entities).filterMap (recordEntry entityInfo)).foldl
    KindMap.insert .empty
  let map := ((parsedNdjsonValues parse files.notes).filterMap (recordEntry noteInfo)).foldl KindMap.insert map
  ((collectEdgeIds parse files.edges).map fun id ↦ (id, edgeInfo)).foldl KindMap.orInsert map

/-- `pack_rule_allows_kinds`. -/
def packRuleAllowsKinds (rules : List EdgeEndpointRule) (relation : EdgeRelation)
    (source target : KindInfo) : Bool :=
  rules.any fun rule ↦ rule.relation == relation &&
    endpointMatches rule.source source.substrate source.kind source.entityType &&
    endpointMatches rule.target target.substrate target.kind target.entityType

/-- The dispatch over the relation in `check_edge_endpoint_types`. -/
def edgeAllowed (rules : List EdgeEndpointRule) (relation : EdgeRelation)
    (source target : KindInfo) : Bool :=
  if relation = .annotates then source.substrate == "note"
  else if relation = .supersedes ∨ relation = .supports ∨ relation = .refutes then
    if source.substrate != target.substrate || source.substrate == "edge" then false
    else if source.substrate == "entity" then
      baseEntityRuleAllows source.kind relation target.kind
    else true
  else
    (source.substrate == "entity" && target.substrate == "entity" &&
      baseEntityRuleAllows source.kind relation target.kind) ||
      packRuleAllowsKinds rules relation source target

/-- `severity_static`. -/
def severityStatic (s : String) : String :=
  if s = "error" then "error" else if s = "info" then "info" else "warning"

structure Violation where
  entityId : Option String
  entityName : Option String
  entityKind : Option String
  ruleId : String
  severity : String
  message : String
  fixable : Bool

structure RuleResult where
  id : String
  severity : String
  passed : Bool
  violations : List Violation

/-- The violation of an edge. -/
def edgeViolation (severity sourceId targetId : String) (relation : EdgeRelation)
    (source target : KindInfo) : Violation where
  entityId := some sourceId
  entityName := none
  entityKind := some source.kind
  ruleId := "edge-endpoint-types"
  severity := severity
  message := s!"[{sourceId}→{targetId}] ({source.substrate} {source.kind}) " ++
    (s!"-[{relation.asStr}]-> ({target.substrate} {target.kind}) is not a permitted " ++
      "endpoint pairing for this relation")
  fixable := false

/-- What the loop of `check_edge_endpoint_types` reports on one record. -/
def checkEdge (kindMap : KindMap) (rules : List EdgeEndpointRule) (severity : String)
    (v : JsonValue) : Option Violation := do
  let sourceId ← edgeSourceId v
  let targetId ← edgeTargetId v
  let relation ← edgeRelation v
  let source ← kindMap sourceId
  let target ← kindMap targetId
  if edgeAllowed rules relation source target then none
  else return edgeViolation severity sourceId targetId relation source target

/-- `check_edge_endpoint_types`. -/
def checkEdgeEndpointTypes (files : Files) (rules : List EdgeEndpointRule) (cfgSeverity : String) :
    RuleResult :=
  let kindMap := collectKindMap parse files
  let severity := severityStatic cfgSeverity
  let violations := (parsedNdjsonValues parse files.edges).filterMap
    (checkEdge kindMap rules severity)
  ⟨"edge-endpoint-types", severity, violations.isEmpty, violations⟩

end Check

/-! ## What the map holds -/

namespace KindMap

variable {m : KindMap} {id : String} {entries : List (String × KindInfo)}

/-- The last entry of an identifier wins. -/
theorem foldl_insert :
    entries.foldl insert m id =
      ((entries.filter fun e ↦ e.1 == id).getLast?.map Prod.snd).or (m id) := by
  induction entries generalizing m with
  | nil => rfl
  | cons e entries ih =>
    rw [List.foldl_cons, ih, List.filter_cons]
    by_cases he : e.1 = id
    · simp only [he, beq_self_eq_true, if_true, List.getLast?_cons]
      cases (entries.filter fun e ↦ e.1 == id).getLast? with
      | none => simp [insert, he]
      | some e' => simp
    · simp only [beq_iff_eq, he, if_false]
      rw [insert, Function.update_of_ne (Ne.symm he)]

/-- An identifier keeps the entry it has. -/
theorem foldl_orInsert {ids : List String} {info : KindInfo} :
    (ids.map fun i ↦ (i, info)).foldl orInsert m id =
      (m id).or (if id ∈ ids then some info else none) := by
  induction ids generalizing m with
  | nil => simp
  | cons i ids ih =>
    rw [List.map_cons, List.foldl_cons, ih, orInsert]
    by_cases hi : i = id
    · subst hi
      cases hm : m i with
      | none => simp [insert]
      | some e => simp [hm]
    · have hne : id ≠ i := Ne.symm hi
      by_cases hm : (m i).isSome
      · simp [hm, hne]
      · simp [hne, insert, hm]

end KindMap

section HoldsOnce

variable (parse : String → Option JsonValue)

/-- The records of an identifier in a file of entities or notes. -/
def recordsOf (content id : String) : List JsonValue :=
  (parsedNdjsonValues parse content).filter fun v ↦ recordId v == some id

/-- The records of an identifier in a file of edges. -/
def edgesOf (content id : String) : List JsonValue :=
  (parsedNdjsonValues parse content).filter fun v ↦ edgeRecordId v == some id

/-- The files hold the identifier once, as the record of an entity, of a note or of an edge. -/
def Files.HoldsOnce (files : Files) (id : String) : Endpoint → Prop
  | .entity e => ∃ v, recordsOf parse files.entities id = [v] ∧
      recordKind v = some e.kind ∧ recordEntityType v = e.entityType ∧
      recordsOf parse files.notes id = [] ∧ edgesOf parse files.edges id = []
  | .note kind => ∃ v, recordsOf parse files.notes id = [v] ∧
      recordKind v = some kind ∧
      recordsOf parse files.entities id = [] ∧ edgesOf parse files.edges id = []
  | .edge => ∃ v, edgesOf parse files.edges id = [v] ∧
      recordsOf parse files.entities id = [] ∧ recordsOf parse files.notes id = []
  | _ => False

end HoldsOnce

end Offline

/-- What the kind map is to say of an endpoint. -/
def Endpoint.kindInfo : Endpoint → Option Offline.KindInfo
  | .entity e => some ⟨"entity", e.kind, e.entityType⟩
  | .note kind => some ⟨"note", kind, none⟩
  | .edge => some Offline.edgeInfo
  | _ => none

namespace Offline

variable {parse : String → Option JsonValue} {files : Files} {id content : String}

theorem filter_recordEntry {info : JsonValue → String → KindInfo} (vs : List JsonValue) :
    (vs.filterMap (recordEntry info)).filter (fun e ↦ e.1 == id) =
      (vs.filter fun v ↦ recordId v == some id).filterMap (recordEntry info) := by
  rw [List.filter_filterMap, List.filterMap_filter]
  refine List.filterMap_congr fun v _ ↦ ?_
  cases hid : recordId v with
  | none => simp [recordEntry, hid]
  | some i =>
    cases hkind : recordKind v with
    | none => simp [recordEntry, hid, hkind]
    | some kind => by_cases hi : i = id <;> simp [recordEntry, hid, hkind, hi]

theorem mem_collectEdgeIds :
    id ∈ collectEdgeIds parse content ↔ edgesOf parse content id ≠ [] := by
  simp [collectEdgeIds, edgesOf, List.filter_eq_nil_iff]

/-- The map at an identifier, file by file. -/
theorem collectKindMap_apply :
    collectKindMap parse files id =
      ((((recordsOf parse files.notes id).filterMap (recordEntry noteInfo)).getLast?.map Prod.snd).or
        ((((recordsOf parse files.entities id).filterMap (recordEntry entityInfo)).getLast?.map Prod.snd))).or
        (if edgesOf parse files.edges id = [] then none else some edgeInfo) := by
  rw [collectKindMap, KindMap.foldl_orInsert, KindMap.foldl_insert, KindMap.foldl_insert,
    filter_recordEntry, filter_recordEntry]
  simp only [mem_collectEdgeIds, KindMap.empty, Option.or_none, recordsOf, ite_not]

/-- An identifier that the files hold once is in the map as what it names. -/
theorem collectKindMap_of_holdsOnce {endpoint : Endpoint}
    (h : files.HoldsOnce parse id endpoint) :
    collectKindMap parse files id = endpoint.kindInfo ∧ endpoint.kindInfo.isSome := by
  rw [collectKindMap_apply]
  cases endpoint with
  | event | packRecord | nothing => exact h.elim
  | edge =>
    obtain ⟨v, hv, hentities, hnotes⟩ := h
    simp [hv, hentities, hnotes, Endpoint.kindInfo]
  | entity e =>
    obtain ⟨v, hv, hkind, htype, hnotes, hedges⟩ := h
    have hmem : v ∈ recordsOf parse files.entities id := by simp [hv]
    have hid : recordId v = some id := by simpa using (List.mem_filter.mp hmem).2
    simp [hv, hnotes, hedges, recordEntry, entityInfo, hid, hkind, htype, Endpoint.kindInfo]
  | note kind =>
    obtain ⟨v, hv, hkind, hentities, hedges⟩ := h
    have hmem : v ∈ recordsOf parse files.notes id := by simp [hv]
    have hid : recordId v = some id := by simpa using (List.mem_filter.mp hmem).2
    simp [hv, hentities, hedges, recordEntry, noteInfo, hid, hkind, Endpoint.kindInfo]

/-! ## The dispatch -/

section Dispatch

variable {relation : EdgeRelation} {rules : List EdgeEndpointRule} {source target : Endpoint}
  {s t : KindInfo}

theorem endpointMatches_edge (spec : EndpointKind) :
    endpointMatches spec edgeInfo.substrate edgeInfo.kind edgeInfo.entityType = false := by
  cases spec <;> simp [endpointMatches, edgeInfo]

/-- What the map can say: an entity, a note or an edge. -/
theorem kindInfo_cases (hs : source.kindInfo = some s) :
    (∃ e, source = .entity e ∧ s = ⟨"entity", e.kind, e.entityType⟩) ∨
      (∃ kind, source = .note kind ∧ s = ⟨"note", kind, none⟩) ∨
      source = .edge ∧ s = edgeInfo := by
  cases source with
  | event | packRecord | nothing => exact absurd hs (by simp [Endpoint.kindInfo])
  | edge => exact .inr (.inr ⟨rfl, (Option.some.inj hs).symm⟩)
  | entity e => exact .inl ⟨e, rfl, (Option.some.inj hs).symm⟩
  | note kind => exact .inr (.inl ⟨kind, rfl, (Option.some.inj hs).symm⟩)

/-- A record of the map is matched as the resolved record is, and an edge by no rule. -/
theorem resolvedPair_of_kindInfo (hs : source.kindInfo = some s) :
    source = .edge ∧ s = edgeInfo ∨
      resolvedPair source.resolved = some (s.substrate, s.kind, s.entityType) := by
  rcases kindInfo_cases hs with ⟨e, rfl, rfl⟩ | ⟨kind, rfl, rfl⟩ | hedge
  · exact .inr rfl
  · exact .inr rfl
  · exact .inl hedge

theorem packRuleAllowsKinds_eq (hs : source.kindInfo = some s) (ht : target.kindInfo = some t) :
    packRuleAllowsKinds rules relation s t =
      packRuleAllows rules relation source.resolved target.resolved := by
  rcases resolvedPair_of_kindInfo hs with ⟨rfl, rfl⟩ | hs
  · simp [packRuleAllowsKinds, endpointMatches_edge, packRuleAllows, Endpoint.resolved, resolvedPair]
  · rcases resolvedPair_of_kindInfo ht with ⟨rfl, rfl⟩ | ht
    · simp [packRuleAllowsKinds, endpointMatches_edge, packRuleAllows, Endpoint.resolved,
        resolvedPair]
    · simp [packRuleAllowsKinds, packRuleAllows, hs, ht, EdgeEndpointRule.allows]

theorem isSpecialRelation_iff :
    isSpecialRelation relation = true ↔
      relation = .supersedes ∨ relation = .supports ∨ relation = .refutes := by
  simp [isSpecialRelation, specialRelations]

theorem base_iff (hs : source.kindInfo = some s) (ht : target.kindInfo = some t) :
    (s.substrate = "entity" ∧ t.substrate = "entity") ∧
        baseEntityRuleAllows s.kind relation t.kind = true ↔ BaseAllows relation source target := by
  rcases kindInfo_cases hs with ⟨e, rfl, rfl⟩ | ⟨kind, rfl, rfl⟩ | ⟨rfl, rfl⟩
  · rcases kindInfo_cases ht with ⟨f, rfl, rfl⟩ | ⟨kind, rfl, rfl⟩ | ⟨rfl, rfl⟩
    all_goals simp [BaseAllows, Endpoint.entity?, edgeInfo]
  · simp [BaseAllows, Endpoint.entity?]
  · simp [BaseAllows, Endpoint.entity?, edgeInfo]

theorem annotates_iff (hs : source.kindInfo = some s) (ht : target.kindInfo = some t) :
    s.substrate = "note" ↔ source.IsNote ∧ target.Stored := by
  have hstored : target.Stored := by
    rcases kindInfo_cases ht with ⟨f, rfl, -⟩ | ⟨kind, rfl, -⟩ | ⟨rfl, -⟩
    all_goals simp [Endpoint.Stored]
  rw [and_iff_left hstored]
  rcases kindInfo_cases hs with ⟨e, rfl, rfl⟩ | ⟨kind, rfl, rfl⟩ | ⟨rfl, rfl⟩
  all_goals simp [Endpoint.IsNote, edgeInfo]

/-- The branch of the special relations. -/
theorem special_iff (hs : source.kindInfo = some s) (ht : target.kindInfo = some t) :
    (if s.substrate != t.substrate || s.substrate == "edge" then false
      else if s.substrate == "entity" then baseEntityRuleAllows s.kind relation t.kind
      else true) = true ↔
      source.IsNote ∧ target.IsNote ∨ BaseAllows relation source target := by
  rw [← base_iff hs ht]
  rcases kindInfo_cases hs with ⟨e, rfl, rfl⟩ | ⟨kind, rfl, rfl⟩ | ⟨rfl, rfl⟩
  all_goals rcases kindInfo_cases ht with ⟨f, rfl, rfl⟩ | ⟨kind', rfl, rfl⟩ | ⟨rfl, rfl⟩
  all_goals simp [Endpoint.IsNote, edgeInfo]

theorem edgeAllowed_iff (hs : source.kindInfo = some s) (ht : target.kindInfo = some t) :
    edgeAllowed rules relation s t = true ↔ Admits rules relation source target := by
  simp only [edgeAllowed, Admits, isSpecialRelation_iff, packRuleAllowsKinds_eq hs ht]
  split
  · exact beq_iff_eq.trans (annotates_iff hs ht)
  · split
    · exact special_iff hs ht
    · rw [← base_iff hs ht, Bool.or_eq_true, Bool.and_eq_true, Bool.and_eq_true, beq_iff_eq,
        beq_iff_eq]
      exact or_comm

end Dispatch

/-! ## The three checks -/

section Agreement

variable {relation : EdgeRelation} {source target : Endpoint}

/-- A pair of endpoints goes unreported exactly when the contract admits it. -/
theorem checkEdge_isSome {rules : List EdgeEndpointRule} (severity : String) {s t : String}
    {v : JsonValue}
    (hs : edgeSourceId v = some s) (ht : edgeTargetId v = some t)
    (hrelation : edgeRelation v = some relation) (hsource : files.HoldsOnce parse s source)
    (htarget : files.HoldsOnce parse t target) :
    (∃ w, checkEdge (collectKindMap parse files) rules severity v = some w) ↔
      ¬ Admits rules relation source target := by
  obtain ⟨hmapSource, hsomeSource⟩ := collectKindMap_of_holdsOnce hsource
  obtain ⟨hmapTarget, hsomeTarget⟩ := collectKindMap_of_holdsOnce htarget
  obtain ⟨a, ha⟩ := Option.isSome_iff_exists.mp hsomeSource
  obtain ⟨b, hb⟩ := Option.isSome_iff_exists.mp hsomeTarget
  rw [← edgeAllowed_iff ha hb]
  simp only [checkEdge, hs, ht, hrelation, hmapSource, hmapTarget, ha, hb, Option.bind_eq_bind,
    Option.bind_some]
  by_cases hallowed : edgeAllowed rules relation a b = true
  · simp [hallowed]
  · simp [hallowed]

/-- **The three checks agree.** For two distinct identifiers that name no edges, the live check
accepts what the check of resolved records accepts, whichever backends resolve the two. For
identifiers that the files hold once, the offline check reports an edge exactly when the live check
refuses it. -/
theorem validators_agree (parse : String → Option JsonValue)
    (rt sourceBackend targetBackend : Runtime) (relation : EdgeRelation)
    (sourceId targetId : Id128) (hne : sourceId ≠ targetId) (source target : Endpoint)
    (hsource : rt.Names sourceId source) (htarget : rt.Names targetId target) :
    (source ≠ .edge → target ≠ .edge →
      sourceBackend.Names sourceId source → targetBackend.Names targetId target →
      ∃ src tgt, sourceBackend.resolveEdgeEndpoint sourceId = .ok src ∧
        targetBackend.resolveEdgeEndpoint targetId = .ok tgt ∧
        (Accepts (rt.validateEdgeRelationEndpoints relation sourceId targetId) ↔
          Accepts (validateLinkEndpointsByResolvedWithRules sourceId targetId relation src tgt
            rt.packEdgeRules))) ∧
    ∀ (files : Files) (severity s t : String) (v : JsonValue),
      v ∈ parsedNdjsonValues parse files.edges →
      edgeSourceId v = some s → edgeTargetId v = some t → edgeRelation v = some relation →
      files.HoldsOnce parse s source → files.HoldsOnce parse t target →
      ((∃ w ∈ (checkEdgeEndpointTypes parse files rt.packEdgeRules severity).violations,
          checkEdge (collectKindMap parse files) rt.packEdgeRules (severityStatic severity) v =
            some w) ↔
        ¬ Accepts (rt.validateEdgeRelationEndpoints relation sourceId targetId)) := by
  have hlive : Accepts (rt.validateEdgeRelationEndpoints relation sourceId targetId) ↔
      Admits rt.packEdgeRules relation source target :=
    accepts_validateEdgeRelationEndpoints hne hsource htarget
  constructor
  · intro _ hedge hsource htarget
    refine ⟨source.resolved, target.resolved, Runtime.resolveEdgeEndpoint_of_names hsource,
      Runtime.resolveEdgeEndpoint_of_names htarget, ?_⟩
    rw [hlive, accepts_validateLinkEndpointsByResolvedWithRules hne hedge]
  · intro files severity s t v hv hs ht hrelation hholdsSource hholdsTarget
    rw [hlive]
    rw [← checkEdge_isSome (severityStatic severity) hs ht hrelation hholdsSource hholdsTarget]
    refine exists_congr fun w ↦ and_iff_right_of_imp fun hw ↦ ?_
    exact List.mem_filterMap.mpr ⟨v, hv, hw⟩

/-- A graph with one note, one entity and an edge between them. -/
def sampleNote : JsonValue := .object [("id", .string "n"), ("kind", .string "observation")]

def sampleEntity : JsonValue := .object [("id", .string "e"), ("kind", .string "concept")]

def sampleEdge : JsonValue :=
  .object [("relation", .string "annotates"), ("source", .string "n"), ("target", .string "e")]

def sampleFiles : Files where
  entities := "\x7b\"id\":\"e\",\"kind\":\"concept\"\x7d\n"
  notes := "\x7b\"id\":\"n\",\"kind\":\"observation\"\x7d\n"
  edges := "\x7b\"relation\":\"annotates\",\"source\":\"n\",\"target\":\"e\"\x7d\n"

/-- The parser on the lines of the sample. -/
def sampleParse (line : String) : Option JsonValue :=
  if line = "\x7b\"id\":\"e\",\"kind\":\"concept\"\x7d" then some sampleEntity
  else if line = "\x7b\"id\":\"n\",\"kind\":\"observation\"\x7d" then some sampleNote
  else if line = "\x7b\"relation\":\"annotates\",\"source\":\"n\",\"target\":\"e\"\x7d" then
    some sampleEdge
  else none

/-- A database with the sample and a record that is private to a pack. -/
def sampleRuntime : Runtime where
  packEdgeRules := []
  entityRow id := .ok (if id = 2 then some ⟨"local", "concept", none, none⟩ else none)
  noteRow id := .ok (if id = 1 then some ⟨"local", "observation", none⟩ else none)
  eventRow _ := .ok none
  edgeRow _ := .ok none
  packRecord id := if id = 3 then some ⟨"knowledge", "atom", .null⟩ else none
  unprintable _ := false

/-- The note may annotate the entity and not the pack-private record, and the file of edges has no
violation. -/
theorem validators_agree_sample :
    (∃ src tgt, sampleRuntime.resolveEdgeEndpoint 1 = .ok src ∧
        sampleRuntime.resolveEdgeEndpoint 2 = .ok tgt ∧
        (Accepts (sampleRuntime.validateEdgeRelationEndpoints .annotates 1 2) ↔
          Accepts (validateLinkEndpointsByResolvedWithRules 1 2 .annotates src tgt []))) ∧
      (∃ src tgt, sampleRuntime.resolveEdgeEndpoint 1 = .ok src ∧
        sampleRuntime.resolveEdgeEndpoint 3 = .ok tgt ∧
        (Accepts (sampleRuntime.validateEdgeRelationEndpoints .annotates 1 3) ↔
          Accepts (validateLinkEndpointsByResolvedWithRules 1 3 .annotates src tgt []))) ∧
      Accepts (sampleRuntime.validateEdgeRelationEndpoints .annotates 1 2) ∧
      ¬ Accepts (sampleRuntime.validateEdgeRelationEndpoints .annotates 1 3) ∧
      ((∃ w ∈ (checkEdgeEndpointTypes sampleParse sampleFiles [] "error").violations,
          checkEdge (collectKindMap sampleParse sampleFiles) [] (severityStatic "error") sampleEdge =
            some w) ↔
        ¬ Accepts (sampleRuntime.validateEdgeRelationEndpoints .annotates 1 2)) := by
  have hnote : sampleRuntime.Names 1 (.note "observation") := ⟨rfl, _, rfl, rfl⟩
  have hentity : sampleRuntime.Names 2 (.entity ⟨"concept", none⟩) := ⟨_, rfl, rfl, rfl⟩
  have hpack : sampleRuntime.Names 3 .packRecord := ⟨⟨rfl, rfl, rfl⟩, rfl, _, rfl⟩
  have hstored := validators_agree sampleParse sampleRuntime sampleRuntime sampleRuntime .annotates
    1 2 (by decide) _ _ hnote hentity
  have hprivate := validators_agree sampleParse sampleRuntime sampleRuntime sampleRuntime .annotates
    1 3 (by decide) _ _ hnote hpack
  refine ⟨hstored.1 nofun nofun hnote hentity, hprivate.1 nofun nofun hnote hpack, ?_, ?_, ?_⟩
  · exact (accepts_validateEdgeRelationEndpoints (by decide) hnote hentity).mpr ⟨trivial, trivial⟩
  · exact fun h ↦ ((accepts_validateEdgeRelationEndpoints (by decide) hnote hpack).mp h).2
  · refine hstored.2 sampleFiles "error" "n" "e" sampleEdge ?_ rfl rfl rfl
      ⟨sampleNote, rfl, rfl, rfl, rfl⟩ ⟨sampleEntity, rfl, rfl, rfl, rfl, rfl⟩
    exact List.mem_of_mem_head? rfl

end Agreement

end Offline

end Khive
