import Khive.Wire.Codec

/-!
# Decoding what was encoded

A frame that the encoder accepts is decoded from its bytes, whatever follows them, as the same
frame. The only difference is that an opaque value comes back as the token that was sent; whether
that token equals the value it was written from is `serde_json`'s business, and the frame's own
equality compares the two.

The argument follows the visitor. The members it collects are those that were written, ordered by
key; written again and read by the payload struct they fill the slots of the fields that were
present, and the frame made of these slots passes the checks that the encoder has made before.
-/

namespace Khive

namespace Wire

variable {lib : SerdeJson}

/-! ## Faithful libraries -/

/-- `serde_json` reads back what it writes. -/
structure SerdeJson.Faithful (lib : SerdeJson) : Prop where
  token_string : ∀ s, lib.Token (lib.writeString s)
  token_unsigned : ∀ n, lib.Token (writeUnsigned n)
  token_strings : ∀ strings, lib.Token (writeStrings lib strings)
  token_value : ∀ v, lib.Token (writeValue lib v)
  readString_write : ∀ s, lib.readString (lib.writeString s) = .ok s
  readVariant_write : ∀ s, lib.readVariant (lib.writeString s) = .ok s
  readU32_write : ∀ n : UInt32, lib.readU32 (writeUnsigned n.toNat) = .ok n
  readU64_write : ∀ n : UInt64, lib.readU64 (writeUnsigned n.toNat) = .ok n
  readStrings_write : ∀ strings, lib.readStrings (writeStrings lib strings) = .ok strings
  readMap_write : ∀ expecting (members : Envelope lib),
    lib.readMap expecting (writeMap lib (members.map fun m ↦ (m.1, m.2.val))) =
      .ok ⟨members.map fun m ↦ (m.1, .ok m.2), .ok (), .ok ()⟩

/-! ## Received frames -/

namespace OpaqueValue

/-- The value as the other side receives it. -/
def asReceived (hlib : lib.Faithful) : OpaqueValue lib → OpaqueValue lib
  | localValue value => received ⟨writeValue lib value, hlib.token_value value⟩
  | received raw => received raw

theorem isObject_asReceived (hlib : lib.Faithful) {v : OpaqueValue lib} (h : v.isObject = true) :
    (v.asReceived hlib).isObject = true := by
  cases v with
  | received raw => exact h
  | localValue value =>
    obtain ⟨members, hmembers⟩ := Option.isSome_iff_exists.mp h
    cases value with
    | object members =>
      have hhead : (writeValue lib (.object members)).head? = some '{' := by
        rw [writeValue, Json.write, List.head?_cons]
      rw [asReceived, isObject, hhead]
      rfl
    | null => simp [JsonValue.asObject] at hmembers
    | bool b => simp [JsonValue.asObject] at hmembers
    | number n => simp [JsonValue.asObject] at hmembers
    | string s => simp [JsonValue.asObject] at hmembers
    | array items => simp [JsonValue.asObject] at hmembers

/-- `serde_json` reads the value back from the text it writes for it. -/
def ReadsBack : OpaqueValue lib → Prop
  | localValue value => lib.readValue (writeValue lib value) = .ok value
  | received _ => True

theorem beq_asReceived (hlib : lib.Faithful) {v : OpaqueValue lib} (h : v.ReadsBack) :
    (v.asReceived hlib).beq v = true := by
  cases v with
  | localValue value =>
    have hread : lib.readValue (writeValue lib value) = .ok value := h
    simp [asReceived, beq, toValue, hread]
  | received raw =>
    simp only [asReceived, beq]
    cases hread : (received raw).toValue with
    | ok value => exact ReflBEq.rfl
    | error e => exact ReflBEq.rfl

end OpaqueValue

namespace Field

/-- The value of a field as the other side receives it. -/
def asReceived (hlib : lib.Faithful) : (field : Field) → field.Carrier lib → field.Carrier lib
  | .result, v | .payload, v => OpaqueValue.asReceived hlib v
  | .version, x | .id, x | .ops, x | .deadlineMs, x | .namespaceOverride, x | .actorId, x
  | .visibleNamespaces, x | .code, x | .message, x | .topic, x | .resumeCursor, x
  | .startCursor, x | .cursor, x | .occurredAt, x => x

theorem token_write (hlib : lib.Faithful) (field : Field) (x : field.Carrier lib) :
    lib.Token (field.write lib x) := by
  have hopaque : ∀ v : OpaqueValue lib, lib.Token v.text := by
    intro v
    cases v with
    | localValue value => exact hlib.token_value value
    | received raw => exact raw.property
  cases field with
  | version => exact hlib.token_unsigned _
  | deadlineMs | resumeCursor | startCursor | cursor => exact hlib.token_unsigned _
  | visibleNamespaces => exact hlib.token_strings _
  | result | payload => exact hopaque x
  | id | code => exact hlib.token_string _
  | ops | namespaceOverride | actorId | message | topic | occurredAt => exact hlib.token_string x

/-- The token that is sent for the value of a field. -/
def raw (hlib : lib.Faithful) (field : Field) (x : field.Carrier lib) : RawValue lib :=
  ⟨field.write lib x, field.token_write hlib x⟩

/-- The value can be sent: an operation id is not empty. -/
def Sendable : (field : Field) → field.Carrier lib → Prop
  | .id, x => OperationId.value x ≠ ""
  | _, _ => True

/-- One field reads back. -/
theorem read_raw (hlib : lib.Faithful) {field : Field} {x : field.Carrier lib}
    (hx : field.Sendable x) : field.read lib (field.raw hlib x) = .ok (field.asReceived hlib x) := by
  cases field with
  | version => exact congrArg (Except.map ProtocolVersion.mk) (hlib.readU32_write x.get)
  | id =>
    have hread : lib.readString (lib.writeString (OperationId.value x)) = .ok (OperationId.value x) :=
      hlib.readString_write _
    have hguard : (OperationId.value x != "") = true := bne_iff_ne.mpr hx
    simp only [read, raw, write, readOperationId, hread, ok_bind, guardOr, hguard, if_true]
    rfl
  | deadlineMs | resumeCursor | startCursor | cursor => exact hlib.readU64_write x
  | visibleNamespaces => exact hlib.readStrings_write x
  | code =>
    have hread := congrArg (Except.map WireErrorCode.ofVariant)
      (hlib.readVariant_write (WireErrorCode.asStr x))
    exact hread.trans (congrArg Except.ok (WireErrorCode.ofVariant_asStr x))
  | ops | namespaceOverride | actorId | message | topic | occurredAt =>
    exact hlib.readString_write x
  | result | payload =>
    cases x <;> rfl

theorem name_injective : Function.Injective name := by
  intro a b h
  cases a <;> cases b <;> first | rfl | simp [name] at h

end Field

namespace Frame

/-- The frame as the other side receives it. -/
def asReceived (hlib : lib.Faithful) : Frame lib → Frame lib
  | response id result => response id (result.asReceived hlib)
  | event topic cursor occurredAt payload =>
    event topic cursor occurredAt (payload.asReceived hlib)
  | frame => frame

/-- `serde_json` reads the opaque value of the frame back. -/
def ReadsBack : Frame lib → Prop
  | response _ result => result.ReadsBack
  | event _ _ _ payload => payload.ReadsBack
  | _ => True

theorem beq_asReceived (hlib : lib.Faithful) {frame : Frame lib} (h : frame.ReadsBack) :
    (frame.asReceived hlib).beq frame = true := by
  cases frame with
  | response id result => simp [asReceived, beq, OpaqueValue.beq_asReceived hlib h]
  | event topic cursor occurredAt payload =>
    simp [asReceived, beq, OpaqueValue.beq_asReceived hlib h]
  | handshake | handshakeAck | request | error | cancel | subscribe | subscribeAck | unsubscribe
  | unsubscribeAck => simp [asReceived, beq]

theorem kind_asReceived (hlib : lib.Faithful) (frame : Frame lib) :
    (frame.asReceived hlib).kind = frame.kind := by
  cases frame <;> rfl

theorem fieldValues_asReceived (hlib : lib.Faithful) (frame : Frame lib) :
    (frame.asReceived hlib).fieldValues =
      frame.fieldValues.map fun f ↦ ⟨f.1, f.1.asReceived hlib f.2⟩ := by
  cases frame with
  | request id ops deadline ns actor visible =>
    cases deadline <;> cases ns <;> cases actor <;> cases visible <;> rfl
  | error id => cases id <;> rfl
  | subscribe id topic resume => cases resume <;> rfl
  | response | event | handshake | handshakeAck | cancel | subscribeAck | unsubscribe
  | unsubscribeAck => rfl

/-! ## The grammar -/

/-- What both validators require of a frame. -/
def Grammatical : Frame lib → Prop
  | handshake version | handshakeAck version => version.get ≠ 0
  | request id _ deadlineMs _ _ _ => id.value ≠ "" ∧ deadlineMs ≠ some 0
  | response id _ | cancel id | subscribe id _ _ | subscribeAck id _ _ | unsubscribe id _
  | unsubscribeAck id _ => id.value ≠ ""
  | error id code _ unrecognizedCode =>
    unrecognizedCode = none ∧ (∀ i ∈ id, i.value ≠ "") ∧ scopeViolation code id = none
  | event _ _ _ payload => payload.isObject = true

end Frame

theorem checkScope_eq_ok {ε : Type} {v : Violations ε} {code : WireErrorCode}
    {id : Option OperationId} : checkScope v code id = .ok () ↔ scopeViolation code id = none := by
  rw [checkScope]
  split <;> simp_all

/-- The validators accept exactly the grammatical frames, however they report the others. -/
theorem validateFrame_eq_ok {ε : Type} {v : Violations ε} {frame : Frame lib} :
    validateFrame v frame = .ok () ↔ frame.Grammatical := by
  cases frame with
  | handshake | handshakeAck => simp [validateFrame, checkVersion, Frame.Grammatical]
  | request id ops deadline => 
    simp [validateFrame, checkId, Frame.Grammatical, seq_eq_ok]
  | response | cancel | subscribe | subscribeAck | unsubscribe | unsubscribeAck =>
    simp [validateFrame, checkId, Frame.Grammatical]
  | event => simp [validateFrame, Frame.Grammatical]
  | error id code message unrecognized =>
    cases unrecognized with
    | some raw => simp [validateFrame, Frame.Grammatical, bind, Except.bind]
    | none =>
      cases id with
      | none => simp [validateFrame, Frame.Grammatical, seq_eq_ok, checkScope_eq_ok]
      | some id => simp [validateFrame, Frame.Grammatical, seq_eq_ok, checkScope_eq_ok, checkId]

/-! ## Collecting the envelope -/

/-- The members that a text hands out without failing. -/
def handedOut (members : Envelope lib) : List (String × Except String (RawValue lib)) :=
  members.map fun m ↦ (m.1, .ok m.2)

theorem collectEnvelope_handedOut {members object : Envelope lib} (hsorted : SortedMap.Sorted object)
    (hnodup : (members.map Prod.fst).Nodup) (hnew : ∀ m ∈ members, m.1 ∉ object.map Prod.fst) :
    collectEnvelope (handedOut members) object =
      .ok (members.foldl (fun o m ↦ SortedMap.insert m.1 m.2 o) object) := by
  induction members generalizing object with
  | nil => rfl
  | cons m members ih =>
    obtain ⟨hkey, hnodup⟩ := List.nodup_cons.mp hnodup
    have habsent : (object.lookup m.1).isNone = true := by
      rw [Option.isNone_iff_eq_none, SortedMap.lookup_eq_none_iff]
      exact hnew m List.mem_cons_self
    have hnew' : ∀ n ∈ members, n.1 ∉ (SortedMap.insert m.1 m.2 object).map Prod.fst := by
      intro n hn hmem
      obtain ⟨e, he, heq⟩ := List.mem_map.mp hmem
      rcases (SortedMap.mem_insert hsorted).mp he with rfl | ⟨he, -⟩
      · have heq : m.1 = n.1 := heq
        exact hkey (heq ▸ List.mem_map_of_mem hn)
      · exact hnew n (List.mem_cons_of_mem _ hn) (heq ▸ List.mem_map_of_mem he)
    rw [handedOut, List.map_cons, collectEnvelope, guardOr, habsent, if_pos rfl, ok_bind, ok_bind,
      List.foldl_cons]
    exact ih (SortedMap.sorted_insert _ _ hsorted) hnodup hnew'

/-- The visitor's map of members whose keys differ. -/
theorem collectEnvelope_of_nodup {members : Envelope lib} (hnodup : (members.map Prod.fst).Nodup) :
    collectEnvelope (handedOut members) [] = .ok (SortedMap.collect members) :=
  collectEnvelope_handedOut List.Pairwise.nil hnodup fun _ _ ↦ List.not_mem_nil

/-! ## Filling the slots -/

/-- Slots filled from a list of fields. -/
def slotsOf (values : List (FieldValue lib)) : Slots lib :=
  values.foldr (fun f slots ↦ Function.update slots f.1 (some f.2)) fun _ ↦ none

theorem slotsOf_of_mem {values : List (FieldValue lib)} (hnodup : (values.map Sigma.fst).Nodup)
    {f : FieldValue lib} (hf : f ∈ values) : slotsOf values f.1 = some f.2 := by
  induction values with
  | nil => exact absurd hf List.not_mem_nil
  | cons g values ih =>
    obtain ⟨hg, hnodup⟩ := List.nodup_cons.mp hnodup
    rw [slotsOf, List.foldr_cons]
    rcases List.mem_cons.mp hf with rfl | hf
    · exact Function.update_self ..
    · have hne : f.1 ≠ g.1 := fun heq ↦ hg (heq ▸ List.mem_map_of_mem hf)
      rw [Function.update_of_ne hne]
      exact ih hnodup hf

theorem slotsOf_of_not_mem {values : List (FieldValue lib)} {field : Field}
    (h : field ∉ values.map Sigma.fst) : slotsOf values field = none := by
  induction values with
  | nil => rfl
  | cons g values ih =>
    rw [List.map_cons, List.mem_cons, not_or] at h
    rw [slotsOf, List.foldr_cons, Function.update_of_ne h.1]
    exact ih h.2

/-- The loop of a payload struct reads each member into the slot of its field. -/
theorem readSlots_handedOut {fields : List Field} {members : Envelope lib} {before slots : Slots lib}
    (hnodup : (members.map Prod.fst).Nodup)
    (hread : ∀ m ∈ members, ∃ field x, fields.find? (fun g ↦ g.name == m.1) = some field ∧
      field.read lib m.2 = .ok x ∧ slots field = some x ∧ before field = none) :
    readSlots lib fields (handedOut members) before =
      .ok fun field ↦ if field.name ∈ members.map Prod.fst then slots field else before field := by
  induction members generalizing before with
  | nil => rfl
  | cons m members ih =>
    obtain ⟨hkey, hnodup⟩ := List.nodup_cons.mp hnodup
    obtain ⟨field, x, hfind, hx, hslot, hbefore⟩ := hread m List.mem_cons_self
    have hname : field.name = m.1 := by
      simpa using List.find?_some hfind
    have hrest : ∀ n ∈ members, ∃ g y, fields.find? (fun h ↦ h.name == n.1) = some g ∧
        g.read lib n.2 = .ok y ∧ slots g = some y ∧
        Function.update before field (some x) g = none := by
      intro n hn
      obtain ⟨g, y, hg, hy, hgslot, hgbefore⟩ := hread n (List.mem_cons_of_mem _ hn)
      have hgname : g.name = n.1 := by
        simpa using List.find?_some hg
      -- two members for one field would have one key
      have hne : g ≠ field := by
        rintro rfl
        rw [hname] at hgname
        exact hkey (hgname ▸ List.mem_map_of_mem hn)
      exact ⟨g, y, hg, hy, hgslot, by rwa [Function.update_of_ne hne]⟩
    rw [handedOut, List.map_cons, readSlots, hfind]
    simp only [hbefore, Option.isNone_none, guardOr, if_true, ok_bind, hx]
    refine (ih hnodup hrest).trans (congrArg Except.ok (funext fun g ↦ ?_))
    by_cases hg : g = field
    · -- the slot of this member, which no later member writes
      subst hg
      rw [if_neg (by rwa [hname]), Function.update_self, if_pos (by simp [hname]), hslot]
    · have hgname : g.name ≠ m.1 := fun h ↦ hg (Field.name_injective (h.trans hname.symm))
      rw [Function.update_of_ne hg]
      simp only [List.map_cons, List.mem_cons, hgname, false_or]

/-! ## One frame -/

theorem FrameKind.nodup_fields (kind : FrameKind) : kind.fields.Nodup := by
  cases kind <;> decide

theorem FrameKind.find?_fields {kind : FrameKind} {field : Field} (h : field ∈ kind.fields) :
    kind.fields.find? (fun g ↦ g.name == field.name) = some field := by
  have hsome : (kind.fields.find? fun g ↦ g.name == field.name).isSome := by
    rw [List.find?_isSome]
    exact ⟨field, h, beq_self_eq_true _⟩
  obtain ⟨g, hg⟩ := Option.isSome_iff_exists.mp hsome
  have hname : g.name = field.name := by
    simpa using List.find?_some hg
  rw [hg, Field.name_injective hname]

namespace Frame

theorem fieldValues_sublist (frame : Frame lib) :
    (frame.fieldValues.map Sigma.fst).Sublist frame.kind.fields := by
  cases frame with
  | request id ops deadline ns actor visible =>
    cases deadline <;> cases ns <;> cases actor <;> cases visible <;>
      simp [fieldValues, optional, kind, FrameKind.fields]
  | error id => cases id <;> simp [fieldValues, optional, kind, FrameKind.fields]
  | subscribe id topic resume => cases resume <;> simp [fieldValues, optional, kind, FrameKind.fields]
  | response | event | handshake | handshakeAck | cancel | subscribeAck | unsubscribe
  | unsubscribeAck => simp [fieldValues, kind, FrameKind.fields]

theorem nodup_fieldValues (frame : Frame lib) : (frame.fieldValues.map Sigma.fst).Nodup :=
  frame.fieldValues_sublist.nodup frame.kind.nodup_fields

theorem sendable_of_grammatical {frame : Frame lib} (h : frame.Grammatical) :
    ∀ f ∈ frame.fieldValues, f.1.Sendable f.2 := by
  cases frame with
  | request id ops deadline ns actor visible =>
    cases deadline <;> cases ns <;> cases actor <;> cases visible <;>
      simp [fieldValues, optional, Field.Sendable, h.1]
  | error id code message raw =>
    cases id with
    | none => simp [fieldValues, optional, Field.Sendable]
    | some id => simp [fieldValues, optional, Field.Sendable, h.2.1 id rfl]
  | subscribe id topic resume =>
    cases resume <;> simp [fieldValues, optional, Field.Sendable, show id.value ≠ "" from h]
  | response id | cancel id | subscribeAck id | unsubscribe id | unsubscribeAck id =>
    simp [fieldValues, Field.Sendable, show id.value ≠ "" from h]
  | handshake | handshakeAck | event => simp [fieldValues, Field.Sendable]

/-- The members written for the fields. -/
def fieldMembers (hlib : lib.Faithful) (frame : Frame lib) : Envelope lib :=
  frame.fieldValues.map fun f ↦ (f.1.name, f.1.raw hlib f.2)

/-- All members written for the frame. -/
def members (hlib : lib.Faithful) (frame : Frame lib) : Envelope lib :=
  ("kind", ⟨lib.writeString frame.kind.name, hlib.token_string _⟩) :: frame.fieldMembers hlib

theorem entries_eq (hlib : lib.Faithful) (frame : Frame lib) :
    frame.entries = (frame.members hlib).map fun m ↦ (m.1, m.2.val) := by
  rw [entries, members, List.map_cons, fieldMembers, List.map_map]
  rfl

theorem map_fst_fieldMembers (hlib : lib.Faithful) (frame : Frame lib) :
    (frame.fieldMembers hlib).map Prod.fst = (frame.fieldValues.map Sigma.fst).map Field.name := by
  rw [fieldMembers, List.map_map, List.map_map]
  rfl

theorem kind_not_mem_fieldMembers (hlib : lib.Faithful) (frame : Frame lib) :
    "kind" ∉ (frame.fieldMembers hlib).map Prod.fst := by
  rw [map_fst_fieldMembers]
  intro h
  obtain ⟨field, -, hfield⟩ := List.mem_map.mp h
  cases field <;> simp [Field.name] at hfield

theorem nodup_members (hlib : lib.Faithful) (frame : Frame lib) :
    ((frame.members hlib).map Prod.fst).Nodup := by
  rw [members, List.map_cons, List.nodup_cons]
  refine ⟨frame.kind_not_mem_fieldMembers hlib, ?_⟩
  rw [map_fst_fieldMembers]
  exact frame.nodup_fieldValues.map Field.name_injective

/-- The payload struct filled from the fields of a frame is the frame, without its raw code. -/
theorem payloadFrame_fieldValues (frame : Frame lib) :
    payloadFrame (slotsOf frame.fieldValues) frame.kind =
      .ok (match frame with
        | error id code message _ => error id code message none
        | frame => frame) := by
  cases frame with
  | request id ops deadline ns actor visible =>
    cases deadline <;> cases ns <;> cases actor <;> cases visible <;> rfl
  | error id => cases id <;> rfl
  | subscribe id topic resume => cases resume <;> rfl
  | response | event | handshake | handshakeAck | cancel | subscribeAck | unsubscribe
  | unsubscribeAck => rfl

end Frame

/-- What the visitor knows of the envelope once the kind is taken out: the members of the fields,
ordered by key. -/
structure Carries (hlib : lib.Faithful) (frame : Frame lib) (object : Envelope lib) : Prop where
  nodup : (object.map Prod.fst).Nodup
  mem_iff : ∀ m, m ∈ object ↔ m ∈ frame.fieldMembers hlib

theorem parsePayload_of_carries {hlib : lib.Faithful} {frame : Frame lib} {object : Envelope lib}
    (h : Carries hlib frame object) (hgram : frame.Grammatical) :
    parsePayload frame.kind object =
      payloadFrame (slotsOf (frame.asReceived hlib).fieldValues) frame.kind := by
  have hmem : ∀ f ∈ frame.fieldValues, (f.1.name, f.1.raw hlib f.2) ∈ object := by
    intro f hf
    exact (h.mem_iff _).mpr (List.mem_map_of_mem hf)
  have hvalues := frame.fieldValues_asReceived hlib
  have hnodup : ((frame.asReceived hlib).fieldValues.map Sigma.fst).Nodup :=
    (frame.asReceived hlib).nodup_fieldValues
  have hread : ∀ m ∈ object, ∃ (field : Field) (x : field.Carrier lib),
      frame.kind.fields.find? (fun g ↦ g.name == m.1) = some field ∧ field.read lib m.2 = .ok x ∧
      slotsOf (frame.asReceived hlib).fieldValues field = some x ∧
      (fun _ ↦ none : Slots lib) field = none := by
    intro m hm
    obtain ⟨f, hf, rfl⟩ := List.mem_map.mp ((h.mem_iff m).mp hm)
    have hfield : f.1 ∈ frame.kind.fields :=
      frame.fieldValues_sublist.subset (List.mem_map_of_mem hf)
    have hf' : (⟨f.1, f.1.asReceived hlib f.2⟩ : FieldValue lib) ∈
        (frame.asReceived hlib).fieldValues := by
      rw [hvalues]
      exact List.mem_map_of_mem hf
    exact ⟨f.1, f.1.asReceived hlib f.2, FrameKind.find?_fields hfield,
      Field.read_raw hlib (Frame.sendable_of_grammatical hgram f hf),
      slotsOf_of_mem hnodup hf', rfl⟩
  -- every slot holds what was sent for its field, or nothing
  have hslots : readSlots lib frame.kind.fields (handedOut object) (fun _ ↦ none) =
      .ok (slotsOf (frame.asReceived hlib).fieldValues) := by
    rw [readSlots_handedOut h.nodup hread]
    refine congrArg Except.ok (funext fun g ↦ ?_)
    by_cases hg : g.name ∈ object.map Prod.fst
    · rw [if_pos hg]
    · -- a field without a member has no value
      rw [if_neg hg, slotsOf_of_not_mem]
      rw [hvalues, List.map_map]
      intro hmap
      obtain ⟨f, hf, rfl⟩ := List.mem_map.mp hmap
      exact hg (List.mem_map.mpr ⟨_, hmem f hf, rfl⟩)
  have haccess := hlib.readMap_write ("struct " ++ frame.kind.payloadStruct) object
  rw [parsePayload]
  simp only [haccess, ok_bind]
  change Except.mapError _ (readSlots lib frame.kind.fields (handedOut object) (fun _ ↦ none) >>= _) = _
  rw [hslots, ok_bind, Frame.kind_asReceived hlib frame |>.symm, Frame.payloadFrame_fieldValues]
  rfl

theorem Carries.rawCode_eq {hlib : lib.Faithful} {id : Option OperationId} {code : WireErrorCode}
    {message : String} {raw : Option String} {object : Envelope lib}
    (h : Carries hlib (.error id code message raw) object) : rawCode object = some code.asStr := by
  have hmem : ("code", Field.raw hlib .code code) ∈ object := by
    refine (h.mem_iff _).mpr (List.mem_map.mpr ⟨⟨.code, code⟩, ?_, rfl⟩)
    exact List.mem_append_right _ List.mem_cons_self
  have hread : lib.readString (lib.writeString code.asStr) = .ok code.asStr :=
    hlib.readString_write _
  rw [rawCode, SortedMap.lookup_of_mem h.nodup hmem, Option.bind_some]
  change (lib.readString (lib.writeString code.asStr)).toOption = _
  rw [hread]
  rfl

/-- The checks behind the payload struct accept what the encoder has accepted. -/
theorem finishFrame_of_carries {hlib : lib.Faithful} {frame : Frame lib} {object : Envelope lib}
    (h : Carries hlib frame object) (hgram : frame.Grammatical) :
    finishFrame object (match frame.asReceived hlib with
      | .error id code message _ => .error id code message none
      | frame => frame) = .ok (frame.asReceived hlib) := by
  cases frame with
  | request id ops deadline ns actor visible =>
    have hdeadline : (deadline != some 0) = true := bne_iff_ne.mpr hgram.2
    simp only [Frame.asReceived, finishFrame, guardOr, hdeadline, if_true, ok_bind]
    rfl
  | event topic cursor occurredAt payload =>
    have hobject := OpaqueValue.isObject_asReceived hlib (v := payload) hgram
    simp only [Frame.asReceived, finishFrame, guardOr, hobject, if_true, ok_bind]
    rfl
  | error id code message raw =>
    obtain ⟨hraw, -, hscope⟩ := hgram
    subst hraw
    have hknown : (rawCode object).any WireErrorCode.isKnown = true := by
      rw [h.rawCode_eq, Option.any_some, WireErrorCode.isKnown_asStr]
    simp only [Frame.asReceived, finishFrame, hknown, Bool.true_or, guardOr, if_true, ok_bind,
      hscope]
    rfl
  | response | handshake | handshakeAck | cancel | subscribe | subscribeAck | unsubscribe
  | unsubscribeAck => rfl

/-- Deserializing the text of a grammatical frame. -/
theorem deserializeFrame_writeMap (hlib : lib.Faithful) {frame : Frame lib}
    (hgram : frame.Grammatical) :
    deserializeFrame lib (writeMap lib frame.entries) = .ok (frame.asReceived hlib) := by
  have hnodup := frame.nodup_members hlib
  have hsorted := SortedMap.sorted_collect (frame.members hlib)
  have hkeys := SortedMap.nodup_keys hsorted
  have hkind : (SortedMap.collect (frame.members hlib)).lookup "kind" =
      some ⟨lib.writeString frame.kind.name, hlib.token_string _⟩ := by
    refine SortedMap.lookup_of_mem hkeys ((SortedMap.mem_collect_of_nodup hnodup).mpr ?_)
    exact List.mem_cons_self
  -- the visitor takes the kind out and hands on the rest
  have hcarries : Carries hlib frame
      ((SortedMap.collect (frame.members hlib)).filter fun m ↦ m.1 != "kind") := by
    refine ⟨hkeys.sublist (List.filter_sublist.map _), fun m ↦ ?_⟩
    rw [List.mem_filter, SortedMap.mem_collect_of_nodup hnodup, Frame.members, List.mem_cons,
      bne_iff_ne]
    constructor
    · rintro ⟨rfl | hm, hne⟩
      · exact absurd rfl hne
      · exact hm
    · intro hm
      refine ⟨Or.inr hm, fun heq ↦ frame.kind_not_mem_fieldMembers hlib ?_⟩
      exact heq ▸ List.mem_map_of_mem hm
  have haccess := hlib.readMap_write "a JSON object with a string \"kind\" discriminant field"
    (frame.members hlib)
  rw [deserializeFrame, frame.entries_eq hlib, haccess, ok_bind, visitMap]
  change (collectEnvelope (handedOut (frame.members hlib)) [] >>= _) >>= _ = _
  rw [collectEnvelope_of_nodup hnodup]
  simp only [ok_bind, hkind, hlib.readString_write, Except.mapError, FrameKind.ofName?_name,
    parsePayload_of_carries hcarries hgram]
  rw [← frame.kind_asReceived hlib, Frame.payloadFrame_fieldValues]
  simp only [ok_bind, finishFrame_of_carries hcarries hgram]
  rfl

/-! ## Encodings -/

/-- What an accepted encoding consists of. -/
theorem encodeFrameWithMax_eq_ok {maxFrameBytes : Nat} {frame : Frame lib} {bytes : Bytes} :
    encodeFrameWithMax maxFrameBytes frame = .ok bytes ↔
      frame.Grammatical ∧ (utf8Bytes (writeMap lib frame.entries)).length ≤ maxFrameBytes ∧
      (utf8Bytes (writeMap lib frame.entries)).length ≤ u32Max ∧
      toBeBytes (UInt32.ofNat (utf8Bytes (writeMap lib frame.entries)).length) ++
        utf8Bytes (writeMap lib frame.entries) = bytes := by
  simp only [encodeFrameWithMax, Frame.serialize, checkEncodePayloadLen, validateFrameForWire,
    validateFrameForSerialize, bind_eq_ok, exists_check, mapError_eq_ok, pure_eq_ok,
    validateFrame_eq_ok, guardOr_eq_ok, decide_eq_true_eq]
  constructor
  · rintro ⟨hgram, text, ⟨-, rfl⟩, ⟨hmax, hu32⟩, hbytes⟩
    exact ⟨hgram, hmax, hu32, hbytes⟩
  · rintro ⟨hgram, hmax, hu32, hbytes⟩
    exact ⟨hgram, _, ⟨hgram, rfl⟩, ⟨hmax, hu32⟩, hbytes⟩

/-- Decoding a buffer that starts with a length prefix and a payload of that length. -/
theorem decodeFrameWithConsumed_append {maxFrameBytes : Nat} {payload : Bytes}
    (hmax : payload.length ≤ maxFrameBytes) (hu32 : payload.length ≤ u32Max) (rest : Bytes) :
    decodeFrameWithConsumed lib maxFrameBytes
        (toBeBytes (UInt32.ofNat payload.length) ++ payload ++ rest) =
      (decodePayload lib payload).map fun frame ↦ (frame, lengthPrefixBytes + payload.length) := by
  have hsize : (UInt32.ofNat payload.length).toNat = payload.length := by
    rw [UInt32.toNat_ofNat']
    exact Nat.mod_eq_of_lt (by rw [u32Max] at hu32; omega)
  have hlead : (toBeBytes (UInt32.ofNat payload.length) ++ payload ++ rest).take
      lengthPrefixBytes = toBeBytes (UInt32.ofNat payload.length) := by
    rw [List.append_assoc]
    exact List.take_left' (length_toBeBytes _)
  have hpayload : (toBeBytes (UInt32.ofNat payload.length) ++ payload ++ rest).drop
      lengthPrefixBytes = payload ++ rest := by
    rw [List.append_assoc]
    exact List.drop_left' (length_toBeBytes _)
  have hlength : (toBeBytes (UInt32.ofNat payload.length) ++ payload ++ rest).length =
      lengthPrefixBytes + (payload.length + rest.length) := by
    simp only [List.length_append, length_toBeBytes, lengthPrefixBytes]
    omega
  rw [decodeFrameWithConsumed]
  simp only [hlead, hpayload, fromBeBytes_toBeBytes, hsize, List.take_left, hlength, guardOr,
    Nat.le_add_right, hmax, decide_true, if_true, ok_bind, Nat.add_sub_cancel_left]
  cases decodePayload lib payload <;> rfl

/-- The encoding of a frame delimits it. -/
theorem delimits_encoding (hlib : lib.Faithful) {maxFrameBytes : Nat} {frame : Frame lib}
    {bytes : Bytes} (h : encodeFrameWithMax maxFrameBytes frame = .ok bytes) :
    Delimits (decodeFrameWithConsumed lib maxFrameBytes) bytes (frame.asReceived hlib) := by
  obtain ⟨hgram, hmax, hu32, rfl⟩ := encodeFrameWithMax_eq_ok.mp h
  have hdecode : decodePayload lib (utf8Bytes (writeMap lib frame.entries)) =
      .ok (frame.asReceived hlib) := by
    rw [decodePayload, fromSlice, utf8Text_utf8Bytes]
    dsimp only
    rw [deserializeFrame_writeMap hlib hgram]
    rfl
  intro rest
  rw [decodeFrameWithConsumed_append hmax hu32, hdecode, List.length_append, length_toBeBytes]
  rfl

/-- **Round trip of a frame stream**: decoding the concatenated encodings of any accepted frames,
followed by any bytes, returns the frames in order, each with the length of its encoding, and
leaves the bytes that follow. Each frame is decoded from its own bytes alone, and equals the frame
that was sent wherever `serde_json` reads its opaque value back. -/
theorem decodeRun_encodings (lib : SerdeJson) (hlib : lib.Faithful) (maxFrameBytes : Nat)
    (frames : List (Frame lib)) (encodings : List Bytes)
    (h : frames.mapM (encodeFrameWithMax maxFrameBytes) = .ok encodings) (rest : Bytes) :
    decodeRun (decodeFrameWithConsumed lib maxFrameBytes) frames.length
        (encodings.flatten ++ rest) =
      .ok ((frames.map (Frame.asReceived hlib)).zip (encodings.map List.length), rest) ∧
    (∀ frame ∈ frames, frame.ReadsBack → (frame.asReceived hlib).beq frame = true) ∧
    List.Forall₂ (fun bytes frame ↦ ∀ behind,
      decodeFrameWithConsumed lib maxFrameBytes (bytes ++ behind) =
        .ok (frame.asReceived hlib, bytes.length)) encodings frames := by
  have hdelimits : List.Forall₂ (fun bytes frame ↦ Delimits
      (decodeFrameWithConsumed lib maxFrameBytes) bytes (frame.asReceived hlib))
      encodings frames :=
    (mapM_eq_ok.mp h).flip.imp fun _ _ hencode ↦ delimits_encoding hlib hencode
  have hrun := decodeRun_flatten (List.forall₂_map_right_iff.mpr hdelimits) rest
  rw [List.length_map] at hrun
  exact ⟨hrun, fun _ _ hback ↦ Frame.beq_asReceived hlib hback, hdelimits⟩

/-! ## A strict library

A library that reads exactly the compact texts it writes. -/

/-- Read a text as what it must have been written from. -/
def readWritten {α : Type} (write : α → List Char) (x : α) (text : List Char) : Except String α :=
  if write x = text then .ok x else .error "expected value"

theorem readWritten_eq_ok {α : Type} {write : α → List Char} {x y : α} {text : List Char} :
    readWritten write x text = .ok y ↔ write x = text ∧ x = y := by
  rw [readWritten]
  split_ifs with h <;> simp [h]

def strictNumber : JsonNumber → List Char
  | .posInt n => writeUnsigned n.toNat
  | .negInt n => '-' :: writeUnsigned n.toInt.natAbs
  | .float _ => ['0', '.', '0']

/-- The value of a member, if it is a token. -/
def strictValue (text : List Char) : Except String { text // Json.Token text } :=
  if h : Json.Token text then .ok ⟨text, h⟩ else .error "expected value"

/-- The members that the text splits into. -/
def strictMembers (text : List Char) : List (String × List Char) :=
  ((Json.splitObject text).getD []).map fun m ↦ (Json.unquote m.1, m.2)

def strictJson : SerdeJson where
  Token := Json.Token
  writeString := Json.quote
  writeNumber := strictNumber
  readString text := readWritten Json.quote (Json.unquote text) text
  readU32 text :=
    readWritten (fun n : UInt32 ↦ writeUnsigned n.toNat)
      (UInt32.ofNat (Nat.ofDigitChars 10 text 0)) text
  readU64 text :=
    readWritten (fun n : UInt64 ↦ writeUnsigned n.toNat)
      (UInt64.ofNat (Nat.ofDigitChars 10 text 0)) text
  readStrings text :=
    readWritten (fun strings ↦ Json.arrayText (strings.map Json.quote))
      (((Json.splitArray text).getD []).map Json.unquote) text
  readVariant text := readWritten Json.quote (Json.unquote text) text
  readValue _ := .error "recursion limit exceeded"
  readMap _ text :=
    (readWritten (Json.objectText Json.quote) (strictMembers text) text).map fun members ↦
      ⟨members.map fun m ↦ (m.1, strictValue m.2), .ok (), .ok ()⟩
  locate _ message := message
  invalidUtf8 _ := "invalid unicode code point"
  unprintable _ := false

theorem isWord_writeUnsigned {n : Nat} {c : Char} (hc : c ∈ writeUnsigned n) :
    Json.isWord c = true := by
  rw [writeUnsigned, Nat.toList_repr] at hc
  have hdigit := Nat.isDigit_of_mem_toDigits (by decide) (by decide) hc
  rw [Char.isDigit, Bool.and_eq_true, decide_eq_true_iff, decide_eq_true_iff] at hdigit
  have hne : ∀ d : Char, d.val < '0'.val ∨ '9'.val < d.val → c ≠ d := by
    rintro d hd rfl
    rcases hd with hd | hd
    · exact absurd hdigit.1 (UInt32.not_le.mpr hd)
    · exact absurd hdigit.2 (UInt32.not_le.mpr hd)
  simp [Json.isWord, Json.isStructural, hne '"' (by decide), hne '[' (by decide),
    hne ']' (by decide), hne '{' (by decide), hne '}' (by decide), hne ',' (by decide),
    hne ':' (by decide)]

theorem isWord_strictNumber (n : JsonNumber) : ∀ c ∈ strictNumber n, Json.isWord c = true := by
  intro c hc
  cases n with
  | posInt n => exact isWord_writeUnsigned hc
  | negInt n =>
    rcases List.mem_cons.mp hc with rfl | hc
    · rfl
    · exact isWord_writeUnsigned hc
  | float x =>
    simp only [strictNumber, List.mem_cons, List.not_mem_nil, or_false] at hc
    rcases hc with rfl | rfl | rfl <;> rfl

theorem token_quote (s : String) : Json.Token (Json.quote s) :=
  Json.token_writeString Json.writesStrings_quote s

theorem quote_ne_nil (s : String) : Json.quote s ≠ [] := List.cons_ne_nil _ _

theorem ofDigitChars_writeUnsigned (n : Nat) : Nat.ofDigitChars 10 (writeUnsigned n) 0 = n := by
  rw [writeUnsigned, Nat.toList_repr]
  simp

theorem splitArray_quotes (strings : List String) :
    ((Json.splitArray (Json.arrayText (strings.map Json.quote))).getD []).map Json.unquote =
      strings := by
  have hsplit : Json.splitArray (Json.arrayText (strings.map Json.quote)) =
      some (strings.map Json.quote) := by
    refine Json.splitArray_arrayText fun t ht ↦ ?_
    obtain ⟨s, -, rfl⟩ := List.mem_map.mp ht
    exact ⟨token_quote s, quote_ne_nil s⟩
  rw [hsplit, Option.getD_some, List.map_map]
  exact (List.map_congr_left fun s _ ↦ Json.unquote_quote s).trans (List.map_id _)

theorem strictMembers_objectText {members : List (String × List Char)}
    (h : ∀ m ∈ members, Json.Token m.2) :
    strictMembers (Json.objectText Json.quote members) = members := by
  rw [strictMembers, Json.splitObject_objectText token_quote h, Option.getD_some, List.map_map]
  refine (List.map_congr_left fun m _ ↦ ?_).trans (List.map_id _)
  exact Prod.ext (Json.unquote_quote m.1) rfl

theorem strictJson_readMap (expecting : String) (members : Envelope strictJson) :
    strictJson.readMap expecting (writeMap strictJson (members.map fun m ↦ (m.1, m.2.val))) =
      .ok ⟨members.map fun m ↦ (m.1, .ok m.2), .ok (), .ok ()⟩ := by
  have htokens : ∀ m ∈ members.map fun m ↦ (m.1, m.2.val), Json.Token m.2 := by
    intro m hm
    obtain ⟨n, -, rfl⟩ := List.mem_map.mp hm
    exact n.2.property
  have hvalue : ∀ raw : RawValue strictJson, strictValue raw.val = .ok raw :=
    fun raw ↦ dif_pos raw.property
  have hmembers := strictMembers_objectText htokens
  have hread : readWritten (Json.objectText Json.quote)
      (strictMembers (Json.objectText Json.quote (members.map fun m ↦ (m.1, m.2.val))))
      (Json.objectText Json.quote (members.map fun m ↦ (m.1, m.2.val))) =
        .ok (members.map fun m ↦ (m.1, m.2.val)) :=
    readWritten_eq_ok.mpr ⟨by rw [hmembers], hmembers⟩
  change Except.map _ (readWritten _ _ _) = _
  rw [writeMap]
  change Except.map _ (readWritten (Json.objectText Json.quote)
      (strictMembers (Json.objectText Json.quote (members.map fun m ↦ (m.1, m.2.val))))
      (Json.objectText Json.quote (members.map fun m ↦ (m.1, m.2.val)))) = _
  rw [hread]
  simp only [Except.map, List.map_map]
  refine congrArg Except.ok (congrArg (fun entries ↦ MapAccess.mk entries _ _) ?_)
  exact List.map_congr_left fun m _ ↦ Prod.ext rfl (hvalue m.2)

theorem strictJson_readString_eq (text : List Char) :
    strictJson.readString text = readWritten Json.quote (Json.unquote text) text := rfl

theorem strictJson_readString (s : String) : strictJson.readString (Json.quote s) = .ok s := by
  rw [strictJson_readString_eq, Json.unquote_quote]
  rw [readWritten, if_pos rfl]

theorem strictJson_readU32 (n : UInt32) :
    strictJson.readU32 (writeUnsigned n.toNat) = .ok n := by
  have hn : UInt32.ofNat (Nat.ofDigitChars 10 (writeUnsigned n.toNat) 0) = n := by
    rw [ofDigitChars_writeUnsigned, UInt32.ofNat_toNat]
  change readWritten (fun n : UInt32 ↦ writeUnsigned n.toNat) _ _ = _
  rw [hn]
  rw [readWritten, if_pos rfl]

theorem strictJson_readU64 (n : UInt64) :
    strictJson.readU64 (writeUnsigned n.toNat) = .ok n := by
  have hn : UInt64.ofNat (Nat.ofDigitChars 10 (writeUnsigned n.toNat) 0) = n := by
    rw [ofDigitChars_writeUnsigned, UInt64.ofNat_toNat]
  change readWritten (fun n : UInt64 ↦ writeUnsigned n.toNat) _ _ = _
  rw [hn]
  rw [readWritten, if_pos rfl]

theorem strictJson_readStrings (strings : List String) :
    strictJson.readStrings (writeStrings strictJson strings) = .ok strings := by
  change readWritten (fun strings ↦ Json.arrayText (strings.map Json.quote))
    (((Json.splitArray (Json.arrayText (strings.map Json.quote))).getD []).map Json.unquote)
    (Json.arrayText (strings.map Json.quote)) = _
  rw [splitArray_quotes]
  rw [readWritten, if_pos rfl]

theorem faithful_strictJson : strictJson.Faithful where
  token_string := token_quote
  token_unsigned _ := Json.token_of_words fun _ hc ↦ isWord_writeUnsigned hc
  token_strings strings := by
    refine Json.token_arrayText fun t ht ↦ ?_
    obtain ⟨s, -, rfl⟩ := List.mem_map.mp ht
    exact token_quote s
  token_value v := Json.token_write Json.writesStrings_quote isWord_strictNumber v
  readString_write := strictJson_readString
  readVariant_write := strictJson_readString
  readU32_write := strictJson_readU32
  readU64_write := strictJson_readU64
  readStrings_write := strictJson_readStrings
  readMap_write := strictJson_readMap

/-! A handshake and a cancellation, followed by two stray bytes. -/

private def strictFrames : List (Frame strictJson) := [.handshake ⟨1⟩, .cancel ⟨"a"⟩]

private def strictEncoding (frame : Frame strictJson) : Bytes :=
  toBeBytes (UInt32.ofNat (utf8Bytes (writeMap strictJson frame.entries)).length) ++
    utf8Bytes (writeMap strictJson frame.entries)

private theorem encode_strictFrames :
    strictFrames.mapM (encodeFrameWithMax 64) = .ok (strictFrames.map strictEncoding) := by
  have hhandshake : encodeFrameWithMax 64 (.handshake ⟨1⟩ : Frame strictJson) =
      .ok (strictEncoding (.handshake ⟨1⟩)) :=
    encodeFrameWithMax_eq_ok.mpr ⟨by simp [Frame.Grammatical], by decide, by decide, rfl⟩
  have hcancel : encodeFrameWithMax 64 (.cancel ⟨"a"⟩ : Frame strictJson) =
      .ok (strictEncoding (.cancel ⟨"a"⟩)) :=
    encodeFrameWithMax_eq_ok.mpr ⟨by simp [Frame.Grammatical], by decide, by decide, rfl⟩
  exact mapM_eq_ok.mpr (.cons hhandshake (.cons hcancel .nil))

theorem decodeRun_encodings_handshake_cancel :
    strictFrames.mapM (encodeFrameWithMax 64) = .ok (strictFrames.map strictEncoding) ∧
      decodeRun (decodeFrameWithConsumed strictJson 64) 2
          ((strictFrames.map strictEncoding).flatten ++ [1, 2]) =
        .ok ([(.handshake ⟨1⟩, 36), (.cancel ⟨"a"⟩, 30)], [1, 2]) := by
  have hrun := (decodeRun_encodings strictJson faithful_strictJson 64 strictFrames
    (strictFrames.map strictEncoding) encode_strictFrames [1, 2]).1
  exact ⟨encode_strictFrames, hrun⟩

end Wire

end Khive
