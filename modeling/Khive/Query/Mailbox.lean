import Khive.Foundation.Sql

/-!
# The mailbox partition

Message notes belong to a mailbox: an inbound message to the actor it names in `to_actor`, an
outbound one to the actor in `from_actor`, and old local rows without routing to the anonymous local
caller. The runtime decides this on a note that it has read; the query compiler writes the same rule
as SQL, so that rows of other mailboxes take no part in matching and paging. An edge is filtered by
its endpoints: an endpoint that is a message note of another mailbox hides the edge, unless an
entity has the same id.
-/

namespace Khive

namespace Query

open Sql (Expr Value Row Env Engine Database)

/-! ## Stored notes -/

/-- What the partition reads of a note. -/
structure Note where
  id : String
  kind : String
  properties : Option JsonValue

namespace Note

/-- `properties.and_then(|p| p.get(key))`. -/
def property (note : Note) (key : String) : Option JsonValue :=
  note.properties.bind fun value ↦ (JsonValue.asObject value).bind fun members ↦
    getMember members key

/-- The property, when it is a string. -/
def text (note : Note) (key : String) : Option String :=
  (note.property key).bind fun
    | .string s => some s
    | _ => none

/-- The property is missing or `null`. -/
def isAbsent (note : Note) (key : String) : Bool :=
  match note.property key with
  | none | some .null => true
  | _ => false

end Note

/-- `permits_message_note`. -/
def permitsMessageNote (actorId : String) (legacyLocal : Bool) (note : Note) : Bool :=
  if note.kind ≠ "message" then true
  else
    match note.text "direction" with
    | some "inbound" =>
      note.text "to_actor" == some actorId || (legacyLocal && note.isAbsent "to_actor")
    | some "outbound" =>
      note.text "from_actor" == some actorId || (legacyLocal && note.isAbsent "from_actor")
    -- rows from before routing carry no field at all
    | none =>
      legacyLocal && note.isAbsent "direction" && (note.text "from_actor").isNone &&
        (note.text "to_actor").isNone
    | _ => false

/-! ## The lowering -/

structure QueryMailboxScope where
  actorId : String
  legacyLocal : Bool
  deriving DecidableEq

structure MailboxLowering where
  actorParameter : Nat
  /-- The value of that parameter. -/
  actor : Value
  legacyLocal : Bool

namespace MailboxLowering

/-- `bind`: the actor becomes the next parameter. -/
def bind (scope : QueryMailboxScope) (params : List Value) : MailboxLowering × List Value :=
  (⟨params.length + 1, .text scope.actorId, scope.legacyLocal⟩, params ++ [.text scope.actorId])

section Visible

variable (scope : MailboxLowering) (source : String)

def jsonType (key : String) : Expr := .jsonType (.column source "properties") ("$." ++ key)

def extract (key : String) : Expr := .jsonExtract (.column source "properties") ("$." ++ key)

/-- `absent`. -/
def absent (key : String) : Expr :=
  .paren (.or (.isNull (jsonType source key)) (.compare .eq (jsonType source key) (.text "null")))

/-- `not_text`. -/
def notText (key : String) : Expr :=
  .compare .ne (.ifnull (jsonType source key) (.text "")) (.text "text")

/-- `text_is_actor`. -/
def textIsActor (key : String) : Expr :=
  .paren (.and (.compare .eq (jsonType source key) (.text "text"))
    (.compare .eq (extract source key) (.param scope.actorParameter scope.actor)))

/-- The alternatives for a direction: the actor is named, or an old row names nobody. -/
def routed (key : String) : Expr :=
  .paren (if scope.legacyLocal then .or (scope.textIsActor source key) (absent source key)
    else scope.textIsActor source key)

def noteVisible : Expr :=
  let direction := extract source "direction"
  let inbound := Expr.paren (.and (.compare .eq direction (.text "inbound"))
    (scope.routed source "to_actor"))
  let outbound := Expr.paren (.and (.compare .eq direction (.text "outbound"))
    (scope.routed source "from_actor"))
  let unrouted := Expr.paren (.and (.and (absent source "direction") (notText source "from_actor"))
    (notText source "to_actor"))
  let partition := Expr.or (.or (.compare .ne (.column source "kind") (.text "message")) inbound)
    outbound
  .paren (if scope.legacyLocal then .or partition unrouted else partition)

/-- `note_filter`, without its `WHERE`. -/
def noteFilter : Expr := scope.noteVisible source

end Visible

/-- The note is a message of another mailbox with the id of the endpoint, and no entity has the
id. Unknown visibility is a refusal. -/
def hidesEndpoint (scope : MailboxLowering) (endpoint : Expr) : Expr :=
  .and
    (.and
      (.and (.compare .eq (.column "mailbox_note" "id") endpoint)
        (.compare .eq (.column "mailbox_note" "kind") (.text "message")))
      (.compare .eq (.coalesce (scope.noteVisible "mailbox_note") (.integer 0)) (.integer 0)))
    (.notExists "entities" "mailbox_entity"
      (.compare .eq (.column "mailbox_entity" "id") endpoint))

def endpointVisible (scope : MailboxLowering) (endpoint : Expr) : Expr :=
  .notExists "notes" "mailbox_note" (scope.hidesEndpoint endpoint)

/-- `edge_filter`, without its `WHERE`. -/
def edgeFilter (scope : MailboxLowering) (source : String) : Expr :=
  .and (scope.endpointVisible (.column source "source_id"))
    (scope.endpointVisible (.column source "target_id"))

end MailboxLowering

/-! ## The partition in SQL and in the runtime -/

/-- What the engine's documentation says of its JSON functions. -/
structure Documented (engine : Engine) : Prop where
  /-- `$.label` is the member of an object, and of nothing else. -/
  lookup_label : ∀ json label, label ≠ "" →
    (label.toList.all fun c ↦ c.isAlphanum || c == '_') = true →
      engine.lookup json ("$." ++ label) =
        (JsonValue.asObject json).bind fun members ↦ getMember members label
  /-- Arrays and objects are extracted as their JSON text. -/
  jsonText_array : ∀ items, (engine.jsonText (.array items)).toList.head? = some '['
  jsonText_object : ∀ members, (engine.jsonText (.object members)).toList.head? = some '{'

/-- The row holds the note; missing properties are `NULL`. -/
structure Stored (engine : Engine) (row : Row) (note : Note) : Prop where
  id : row.get "id" = .text note.id
  kind : row.get "kind" = .text note.kind
  properties : note.properties = none ∧ row.get "properties" = .null ∨
    ∃ json text, note.properties = some json ∧ row.get "properties" = .text text ∧
      engine.parseJson text = some json

theorem Note.not_isAbsent_of_text {note : Note} {key s : String} (h : note.text key = some s) :
    note.isAbsent key = false := by
  unfold Note.text at h
  unfold Note.isAbsent
  cases hproperty : note.property key with
  | none => simp [hproperty] at h
  | some v => cases v <;> simp_all

/-- A property of all rows is a property of all that they hold. -/
theorem forall_mem_iff_of_forall₂ {α β : Type} {R : α → β → Prop} {p : α → Prop} {q : β → Prop}
    {as : List α} {bs : List β} (h : List.Forall₂ R as bs) (hpq : ∀ a b, R a b → (p a ↔ q b)) :
    (∀ a ∈ as, p a) ↔ ∀ b ∈ bs, q b := by
  induction h with
  | nil => simp
  | cons hab _ ih => rw [List.forall_mem_cons, List.forall_mem_cons, hpq _ _ hab, ih]

section Partition

variable {engine : Engine} {db : Database} {params : List Value} {env : Env} {source : String}
  {row : Row} {note : Note}

theorem member_of_stored (hengine : Documented engine) (hrow : Stored engine row note) {key : String}
    (hkey : key ≠ "") (hchars : (key.toList.all fun c ↦ c.isAlphanum || c == '_') = true) :
    engine.member (row.get "properties") ("$." ++ key) = note.property key := by
  rcases hrow.properties with ⟨hnone, hnull⟩ | ⟨json, text, hsome, htext, hparse⟩
  · rw [hnull, Note.property, hnone]
    rfl
  · rw [htext, Note.property, hsome]
    simp only [Engine.member, Engine.textOf, hparse, Option.bind_some]
    exact hengine.lookup_label json key hkey hchars

/-- The three fields of the routing. -/
def isRouting (key : String) : Prop := key = "direction" ∨ key = "to_actor" ∨ key = "from_actor"

theorem member_routing (hengine : Documented engine) (hrow : Stored engine row note) {key : String}
    (hkey : isRouting key) :
    engine.member (row.get "properties") ("$." ++ key) = note.property key := by
  rcases hkey with rfl | rfl | rfl
  · exact member_of_stored hengine hrow (by decide) rfl
  · exact member_of_stored hengine hrow (by decide) rfl
  · exact member_of_stored hengine hrow (by decide) rfl

namespace MailboxLowering

theorem eval_jsonType (hengine : Documented engine) (hrow : Stored engine row note)
    (hsource : env.lookup source = some row) {key : String} (hkey : isRouting key) :
    (jsonType source key).eval engine db params env =
      ((note.property key).map fun v ↦ Value.text (Engine.typeName v)).getD .null := by
  rw [← member_routing hengine hrow hkey]
  simp [jsonType, Expr.eval_jsonType, Expr.eval_column, Env.get, hsource]

theorem eval_extract (hengine : Documented engine) (hrow : Stored engine row note)
    (hsource : env.lookup source = some row) {key : String} (hkey : isRouting key) :
    (extract source key).eval engine db params env =
      ((note.property key).map engine.extracted).getD .null := by
  rw [← member_routing hengine hrow hkey]
  simp [extract, Expr.eval_jsonExtract, Expr.eval_column, Env.get, hsource]

theorem holds_absent (hengine : Documented engine) (hrow : Stored engine row note)
    (hsource : env.lookup source = some row) {key : String} (hkey : isRouting key) :
    (absent source key).Holds engine db params env ↔ note.isAbsent key = true := by
  rw [absent, Expr.holds_paren, Expr.holds_or, Expr.holds_isNull, Expr.holds_eq_text rfl,
    eval_jsonType hengine hrow hsource hkey, Note.isAbsent]
  cases note.property key with
  | none => simp
  | some v =>
    cases v with
    | null => simp [Engine.typeName]
    | bool b => cases b <;> simp [Engine.typeName]
    | number n => cases n <;> simp [Engine.typeName]
    | string | array | object => simp [Engine.typeName]

theorem holds_notText (hengine : Documented engine) (hrow : Stored engine row note)
    (hsource : env.lookup source = some row) {key : String} (hkey : isRouting key) :
    (notText source key).Holds engine db params env ↔ note.text key = none := by
  rw [notText, Expr.holds_ne_text rfl]
  simp only [Expr.eval_ifnull, Expr.eval_text, eval_jsonType hengine hrow hsource hkey, Note.text]
  cases note.property key with
  | none => simp
  | some v =>
    cases v with
    | bool b => cases b <;> simp [Engine.typeName]
    | number n => cases n <;> simp [Engine.typeName]
    | null | string | array | object => simp [Engine.typeName]

theorem holds_textIsActor (hengine : Documented engine) (hrow : Stored engine row note)
    (hsource : env.lookup source = some row) {key : String} (hkey : isRouting key)
    {scope : MailboxLowering} {actor : String}
    (hactor : Sql.bound params scope.actorParameter = .text actor) :
    (scope.textIsActor source key).Holds engine db params env ↔ note.text key = some actor := by
  have heval : (Expr.param scope.actorParameter scope.actor).eval engine db params env =
      .text actor := hactor
  rw [textIsActor, Expr.holds_paren, Expr.holds_and, Expr.holds_eq_text rfl,
    Expr.holds_eq_of_text rfl rfl heval, eval_jsonType hengine hrow hsource hkey,
    eval_extract hengine hrow hsource hkey, Note.text]
  cases note.property key with
  | none => simp
  | some v =>
    cases v with
    | string s => simp [Engine.typeName, Engine.extracted]
    | bool b => cases b <;> simp [Engine.typeName]
    | number n => cases n <;> simp [Engine.typeName]
    | null | array | object => simp [Engine.typeName]

/-- A direction is no JSON text of an array or object, so its type need not be asked for. -/
theorem holds_direction (hengine : Documented engine) (hrow : Stored engine row note)
    (hsource : env.lookup source = some row) {direction : String}
    (harray : direction.toList.head? ≠ some '[') (hobject : direction.toList.head? ≠ some '{') :
    (Expr.compare .eq (extract source "direction") (.text direction)).Holds engine db params env ↔
      note.text "direction" = some direction := by
  rw [Expr.holds_eq_text rfl, eval_extract hengine hrow hsource (.inl rfl), Note.text]
  cases note.property "direction" with
  | none => simp
  | some v =>
    cases v with
    | string s => simp [Engine.extracted]
    | null | bool => simp [Engine.extracted]
    | number n =>
      cases n with
      | posInt n =>
        simp only [Option.map_some, Option.getD_some, Engine.extracted]
        split <;> simp
      | negInt | float => simp [Engine.extracted]
    | array items =>
      have hne : engine.jsonText (.array items) ≠ direction := by
        intro h
        exact harray (h ▸ hengine.jsonText_array items)
      simpa [Engine.extracted] using hne
    | object members =>
      have hne : engine.jsonText (.object members) ≠ direction := by
        intro h
        exact hobject (h ▸ hengine.jsonText_object members)
      simpa [Engine.extracted] using hne

theorem holds_routed (hengine : Documented engine) (hrow : Stored engine row note)
    (hsource : env.lookup source = some row) {key : String} (hkey : isRouting key)
    {scope : MailboxLowering} {actor : String}
    (hactor : Sql.bound params scope.actorParameter = .text actor) :
    (scope.routed source key).Holds engine db params env ↔
      note.text key = some actor ∨ scope.legacyLocal = true ∧ note.isAbsent key = true := by
  rw [routed, Expr.holds_paren]
  cases hlegacy : scope.legacyLocal with
  | true =>
    simp only [if_true, Expr.holds_or, holds_textIsActor hengine hrow hsource hkey hactor,
      holds_absent hengine hrow hsource hkey, true_and]
  | false =>
    simp only [Bool.false_eq_true, if_false, holds_textIsActor hengine hrow hsource hkey hactor,
      false_and, or_false]

/-- **A row passes the note filter when the runtime permits its note.** -/
theorem holds_noteVisible (hengine : Documented engine) (hrow : Stored engine row note)
    (hsource : env.lookup source = some row) {scope : MailboxLowering} {actor : String}
    (hactor : Sql.bound params scope.actorParameter = .text actor) :
    (scope.noteVisible source).Holds engine db params env ↔
      permitsMessageNote actor scope.legacyLocal note = true := by
  have hkind : (Expr.compare .ne (.column source "kind") (.text "message")).Holds engine db params
      env ↔ note.kind ≠ "message" := by
    rw [Expr.holds_ne_text rfl]
    simp [Expr.eval_column, Env.get, hsource, hrow.kind]
  have hdirection : ∀ direction, direction.toList.head? ≠ some '[' →
      direction.toList.head? ≠ some '{' →
      ((Expr.compare .eq (extract source "direction") (.text direction)).Holds engine db params
        env ↔ note.text "direction" = some direction) :=
    fun direction h h' ↦ holds_direction hengine hrow hsource h h'
  have hrouted : ∀ key, isRouting key → ((scope.routed source key).Holds engine db params env ↔
      note.text key = some actor ∨ scope.legacyLocal = true ∧ note.isAbsent key = true) :=
    fun key hkey ↦ holds_routed hengine hrow hsource hkey hactor
  have hunrouted : (scope.legacyLocal = true ∧ (absent source "direction").Holds engine db params env
      ∧ (notText source "from_actor").Holds engine db params env ∧
        (notText source "to_actor").Holds engine db params env) ↔
      scope.legacyLocal = true ∧ note.isAbsent "direction" = true ∧ note.text "from_actor" = none ∧
        note.text "to_actor" = none := by
    rw [holds_absent hengine hrow hsource (.inl rfl),
      holds_notText hengine hrow hsource (.inr (.inr rfl)),
      holds_notText hengine hrow hsource (.inr (.inl rfl))]
  have hvisible : (scope.noteVisible source).Holds engine db params env ↔
      (note.kind ≠ "message" ∨
        note.text "direction" = some "inbound" ∧ (note.text "to_actor" = some actor ∨
          scope.legacyLocal = true ∧ note.isAbsent "to_actor" = true) ∨
        note.text "direction" = some "outbound" ∧ (note.text "from_actor" = some actor ∨
          scope.legacyLocal = true ∧ note.isAbsent "from_actor" = true) ∨
        scope.legacyLocal = true ∧ note.isAbsent "direction" = true ∧
          note.text "from_actor" = none ∧ note.text "to_actor" = none) := by
    rw [← hunrouted, ← hrouted "to_actor" (.inr (.inl rfl)),
      ← hrouted "from_actor" (.inr (.inr rfl)), ← hdirection "inbound" (by decide) (by decide),
      ← hdirection "outbound" (by decide) (by decide), ← hkind]
    cases hlegacy : scope.legacyLocal with
    | true => simp [noteVisible, hlegacy, or_assoc, and_assoc]
    | false => simp [noteVisible, hlegacy, or_assoc]
  rw [hvisible, permitsMessageNote]
  by_cases hmessage : note.kind = "message"
  · rw [if_neg (not_not.mpr hmessage)]
    -- a direction that is a string leaves one alternative at most
    split
    · rename_i htext
      simp [hmessage, htext, Note.not_isAbsent_of_text htext]
    · rename_i htext
      simp [hmessage, htext, Note.not_isAbsent_of_text htext]
    · rename_i htext
      simp [hmessage, htext, and_assoc]
    · rename_i hin hout hnone
      obtain ⟨direction, htext⟩ := Option.ne_none_iff_exists'.mp hnone
      have hin' : note.text "direction" ≠ some "inbound" := hin
      have hout' : note.text "direction" ≠ some "outbound" := hout
      simp [hmessage, hin', hout', Note.not_isAbsent_of_text htext]
  · simp [hmessage]

theorem exists_eval_noteVisible (engine : Engine) (db : Database) (params : List Value) (env : Env)
    (scope : MailboxLowering) (source : String) :
    ∃ t, (scope.noteVisible source).eval engine db params env = Sql.ofTruth t := by
  unfold noteVisible
  split
  · exact ⟨_, rfl⟩
  · exact ⟨_, rfl⟩

theorem holds_hidesEndpoint (hengine : Documented engine) (hrow : Stored engine row note)
    {scope : MailboxLowering} {actor : String}
    (hactor : Sql.bound params scope.actorParameter = .text actor) {endpoint : Expr} {id : String}
    (hnocase : endpoint.isNocase = false)
    (hid : endpoint.eval engine db params (("mailbox_note", row) :: env) = .text id)
    (hid' : ∀ entity, endpoint.eval engine db params
      (("mailbox_entity", entity) :: ("mailbox_note", row) :: env) = .text id) :
    (scope.hidesEndpoint endpoint).Holds engine db params (("mailbox_note", row) :: env) ↔
      ((note.id = id ∧ note.kind = "message") ∧
        ¬ permitsMessageNote actor scope.legacyLocal note = true) ∧
        ∀ entity ∈ db.table "entities", entity.get "id" ≠ .text id := by
  have hlookup : List.lookup "mailbox_note" (("mailbox_note", row) :: env) = some row := by
    simp
  obtain ⟨t, ht⟩ := scope.exists_eval_noteVisible engine db params (("mailbox_note", row) :: env)
    "mailbox_note"
  have hentity : ∀ entity, (Expr.compare .eq (.column "mailbox_entity" "id") endpoint).Holds engine
      db params (("mailbox_entity", entity) :: ("mailbox_note", row) :: env) ↔
        entity.get "id" = .text id := by
    intro entity
    rw [Expr.holds_eq_of_text rfl hnocase (hid' entity)]
    simp [Expr.eval_column, Env.get]
  rw [hidesEndpoint, Expr.holds_and, Expr.holds_and, Expr.holds_and, Expr.holds_notExists,
    Expr.holds_eq_of_text rfl hnocase hid, Expr.holds_eq_text rfl, Expr.holds_coalesce_eq_zero ht,
    holds_noteVisible hengine hrow hlookup hactor]
  simp only [hentity, Expr.eval_column, Env.get, hlookup, Option.map_some, Option.getD_some, hrow.id,
    hrow.kind, Value.text.injEq]

/-- An endpoint passes when an entity has its id, or all message notes of its id are permitted. -/
theorem holds_endpointVisible (hengine : Documented engine) {notes : List Note}
    (hnotes : List.Forall₂ (Stored engine) (db.table "notes") notes) {scope : MailboxLowering}
    {actor : String} (hactor : Sql.bound params scope.actorParameter = .text actor)
    {column id : String} (hnote : source ≠ "mailbox_note") (hentity : source ≠ "mailbox_entity")
    (hid : env.get source column = .text id) :
    (scope.endpointVisible (.column source column)).Holds engine db params env ↔
      (∃ entity ∈ db.table "entities", entity.get "id" = .text id) ∨
        ∀ note ∈ notes, note.id = id → note.kind = "message" →
          permitsMessageNote actor scope.legacyLocal note = true := by
  have hendpoint : ∀ row, (Expr.column source column).eval engine db params
      (("mailbox_note", row) :: env) = .text id := by
    intro row
    rw [← hid]
    simp [Expr.eval_column, Env.get, List.lookup_cons, beq_false_of_ne hnote]
  have hendpoint' : ∀ row entity, (Expr.column source column).eval engine db params
      (("mailbox_entity", entity) :: ("mailbox_note", row) :: env) = .text id := by
    intro row entity
    rw [← hendpoint row]
    simp [Expr.eval_column, Env.get, List.lookup_cons, beq_false_of_ne hentity]
  have hrows := forall_mem_iff_of_forall₂ hnotes fun row note hstored ↦
    (holds_hidesEndpoint hengine hstored hactor rfl (hendpoint row) (hendpoint' row)).not
  rw [endpointVisible, Expr.holds_notExists, hrows]
  by_cases hany : ∃ entity ∈ db.table "entities", entity.get "id" = .text id
  · obtain ⟨entity, hmem, hentityId⟩ := hany
    refine iff_of_true (fun note _ h ↦ ?_) (.inl ⟨entity, hmem, hentityId⟩)
    exact h.2 entity hmem hentityId
  · have hno : ∀ entity ∈ db.table "entities", entity.get "id" ≠ .text id := by
      intro entity hmem hentityId
      exact hany ⟨entity, hmem, hentityId⟩
    have hnone : (∀ entity ∈ db.table "entities", entity.get "id" ≠ .text id) ↔ True :=
      iff_true_intro hno
    simp only [hnone, hany, and_true, false_or, not_and, not_not, and_imp]

end MailboxLowering

/-- **The mailbox partition is the same in SQL and in the runtime.** A note row passes the note
filter when its note is permitted, and an edge row passes the edge filter when, for each of its
endpoints, an entity has the id or no message note of the id is refused. -/
theorem mailbox_partition (engine : Engine) (hengine : Documented engine) (db : Database)
    (notes : List Note) (hnotes : List.Forall₂ (Stored engine) (db.table "notes") notes)
    (scope : QueryMailboxScope) (before after : List Value) :
    (∀ row note, Stored engine row note →
      (((MailboxLowering.bind scope before).1.noteFilter "notes").Holds engine db
          ((MailboxLowering.bind scope before).2 ++ after) [("notes", row)] ↔
        permitsMessageNote scope.actorId scope.legacyLocal note = true)) ∧
      ∀ row fromId toId, row.get "source_id" = .text fromId → row.get "target_id" = .text toId →
        (((MailboxLowering.bind scope before).1.edgeFilter "graph_edges").Holds engine db
            ((MailboxLowering.bind scope before).2 ++ after) [("graph_edges", row)] ↔
          ∀ id ∈ [fromId, toId], (∃ entity ∈ db.table "entities", entity.get "id" = .text id) ∨
            ∀ note ∈ notes, note.id = id → note.kind = "message" →
              permitsMessageNote scope.actorId scope.legacyLocal note = true) := by
  have hactor : Sql.bound ((MailboxLowering.bind scope before).2 ++ after)
      (MailboxLowering.bind scope before).1.actorParameter = .text scope.actorId := by
    simp [Sql.bound, MailboxLowering.bind]
  constructor
  · intro row note hrow
    exact MailboxLowering.holds_noteVisible hengine hrow (by simp) hactor
  · intro row fromId toId hfrom hto
    have hget : ∀ column id, row.get column = .text id →
        Env.get [("graph_edges", row)] "graph_edges" column = .text id := by
      intro column id h
      simp [Env.get, h]
    rw [MailboxLowering.edgeFilter, Expr.holds_and,
      MailboxLowering.holds_endpointVisible hengine hnotes hactor (by decide) (by decide)
        (hget _ _ hfrom),
      MailboxLowering.holds_endpointVisible hengine hnotes hactor (by decide) (by decide)
        (hget _ _ hto)]
    simp only [List.forall_mem_cons, List.not_mem_nil, false_implies, implies_true, and_true]
    rfl

end Partition

/-! ## An example -/

/-- Routed text of an inbound message. -/
def inboundText : String := "\x7b\"direction\":\"inbound\",\"to_actor\":\"a\"\x7d"

def inboundNote : Note where
  id := "m"
  kind := "message"
  properties := some (.object [("direction", .string "inbound"), ("to_actor", .string "a")])

/-- An engine that reads that text, and follows paths of one label. -/
def inboundEngine : Engine where
  parseJson text := if text = inboundText then inboundNote.properties else none
  lookup json path := (JsonValue.asObject json).bind fun members ↦
    getMember members (String.ofList (path.toList.drop 2))
  jsonText json := if (JsonValue.asObject json).isSome then "\x7b\x7d" else "[]"
  roundInteger _ := .zero
  like _ _ _ := false
  castText _ := ""
  add v _ := v
  castTrue _ := false

theorem documented_inboundEngine : Documented inboundEngine where
  lookup_label json label _ _ := by simp [inboundEngine]
  jsonText_array _ := by simp [inboundEngine, JsonValue.asObject]
  jsonText_object _ := by simp [inboundEngine, JsonValue.asObject]

def inboundRow : Row :=
  [("id", .text "m"), ("kind", .text "message"), ("properties", .text inboundText)]

theorem stored_inboundRow : Stored inboundEngine inboundRow inboundNote where
  id := rfl
  kind := rfl
  properties := .inr ⟨_, inboundText, rfl, rfl, rfl⟩

/-- The message is visible to its recipient, and edges to it are hidden from everybody else. -/
theorem mailbox_partition_inbound :
    ((MailboxLowering.bind ⟨"a", false⟩ []).1.noteFilter "notes").Holds inboundEngine
        ⟨fun table ↦ if table = "notes" then [inboundRow] else []⟩ [.text "a"]
        [("notes", inboundRow)] ∧
      ¬ ((MailboxLowering.bind ⟨"b", false⟩ []).1.edgeFilter "graph_edges").Holds inboundEngine
        ⟨fun table ↦ if table = "notes" then [inboundRow] else []⟩ [.text "b"]
        [("graph_edges", [("source_id", .text "m"), ("target_id", .text "x")])] := by
  let db : Database := ⟨fun table ↦ if table = "notes" then [inboundRow] else []⟩
  have hnotes : List.Forall₂ (Stored inboundEngine) (db.table "notes") [inboundNote] :=
    .cons stored_inboundRow .nil
  constructor
  · exact ((mailbox_partition inboundEngine documented_inboundEngine db [inboundNote] hnotes
      ⟨"a", false⟩ [] []).1 inboundRow inboundNote stored_inboundRow).mpr (by decide)
  · intro h
    have hedge := ((mailbox_partition inboundEngine documented_inboundEngine db [inboundNote] hnotes
      ⟨"b", false⟩ [] []).2 [("source_id", .text "m"), ("target_id", .text "x")] "m" "x" rfl
        rfl).mp h "m" List.mem_cons_self
    rcases hedge with ⟨entity, hentity, -⟩ | hpermits
    · exact absurd hentity List.not_mem_nil
    · exact absurd (hpermits inboundNote List.mem_cons_self rfl rfl) (by decide)

end Query

end Khive
