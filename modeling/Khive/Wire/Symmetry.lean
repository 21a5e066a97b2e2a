import Khive.Wire.RoundTrip

/-!
# Encoding what was decoded

A decoded frame can be encoded again under the same bound, and decodes to itself. Three kinds of
frame are decoded that are not encoded. An unknown error code is kept for diagnosis only. Version
zero is left to the handshake, which answers it. And an error code that is not a JSON string
escapes the visitor's check of its scope.

The bound holds because the encoder writes no field longer than it was spelled: the size of an
object is the sum of what its members add, in whatever order they stand.
-/

namespace Khive

namespace Wire

variable {lib : SerdeJson}

/-! ## Sizes -/

/-- What a member adds to the size of an object. -/
def memberSize (lib : SerdeJson) (m : String × List Char) : Nat :=
  byteSize (Json.memberText lib.writeString m) + 1

theorem byteSize_joined {items : List (List Char)} (h : items ≠ []) :
    byteSize (Json.joined items) + 1 = (items.map fun t ↦ byteSize t + 1).sum := by
  induction items with
  | nil => exact absurd rfl h
  | cons t items ih =>
    cases items with
    | nil => rw [Json.joined_singleton, List.map_singleton, List.sum_singleton]
    | cons u items =>
      have hcomma : byteSize [','] = 1 := rfl
      have hrest := ih (List.cons_ne_nil _ _)
      rw [Json.joined_cons, List.map_cons, List.sum_cons, ← hrest, byteSize_append,
        byteSize_cons, hcomma]
      omega

theorem byteSize_writeMap {members : List (String × List Char)} (h : members ≠ []) :
    byteSize (writeMap lib members) = (members.map (memberSize lib)).sum + 1 := by
  have hopen : byteSize ['{'] = 1 := rfl
  have hclose : byteSize ['}'] = 1 := rfl
  have hjoined : byteSize (Json.joined (members.map (Json.memberText lib.writeString))) + 1 =
      (members.map (memberSize lib)).sum := by
    rw [byteSize_joined (List.map_eq_nil_iff.not.mpr h), List.map_map]
    rfl
  rw [writeMap, Json.objectText, byteSize_cons, byteSize_append, hopen, hclose, ← hjoined]
  omega

/-- Members with distinct keys, each no longer than one of the other members, add no more. -/
theorem sum_memberSize_le {small large : List (String × List Char)}
    (hnodup : (small.map Prod.fst).Nodup)
    (h : ∀ e ∈ small, ∃ t, (e.1, t) ∈ large ∧ byteSize e.2 ≤ byteSize t) :
    (small.map (memberSize lib)).sum ≤ (large.map (memberSize lib)).sum := by
  induction small generalizing large with
  | nil => exact Nat.zero_le _
  | cons e small ih =>
    obtain ⟨hkey, hnodup⟩ := List.nodup_cons.mp hnodup
    obtain ⟨t, ht, hsize⟩ := h e List.mem_cons_self
    obtain ⟨before, after, rfl⟩ := List.append_of_mem ht
    have hrest : ∀ f ∈ small, ∃ u, (f.1, u) ∈ before ++ after ∧ byteSize f.2 ≤ byteSize u := by
      intro f hf
      obtain ⟨u, hu, hle⟩ := h f (List.mem_cons_of_mem _ hf)
      have hne : (f.1, u) ≠ (e.1, t) := by
        intro heq
        have hfst : f.1 = e.1 := (Prod.mk.inj heq).1
        exact hkey (hfst ▸ List.mem_map_of_mem hf)
      refine ⟨u, ?_, hle⟩
      rw [List.mem_append, List.mem_cons] at hu
      rw [List.mem_append]
      exact hu.imp_right fun hu ↦ hu.resolve_left hne
    have hle := ih hnodup hrest
    have hmember : memberSize lib e ≤ memberSize lib (e.1, t) := by
      rw [memberSize, memberSize, Json.memberText, Json.memberText, byteSize_append,
        byteSize_append, byteSize_cons ':' e.2, byteSize_cons ':' t]
      dsimp only
      omega
    rw [List.map_append, List.sum_append] at hle
    rw [List.map_cons, List.sum_cons, List.map_append, List.sum_append, List.map_cons,
      List.sum_cons]
    omega

/-! ## Spellings -/

/-- A variant may be named by a string, and no spelling is shorter than the one `serde_json`
writes. -/
structure SerdeJson.Compact (lib : SerdeJson) : Prop where
  readVariant : ∀ {text s}, lib.readString text = .ok s → lib.readVariant text = .ok s
  readString : ∀ {text s}, lib.readString text = .ok s →
    byteSize (lib.writeString s) ≤ byteSize text
  readU32 : ∀ {text n}, lib.readU32 text = .ok n → byteSize (writeUnsigned n.toNat) ≤ byteSize text
  readU64 : ∀ {text n}, lib.readU64 text = .ok n → byteSize (writeUnsigned n.toNat) ≤ byteSize text
  readStrings : ∀ {text strings}, lib.readStrings text = .ok strings →
    byteSize (writeStrings lib strings) ≤ byteSize text
  readMap : ∀ {expecting text access} {members : Envelope lib},
    lib.readMap expecting text = .ok access → access.entries = handedOut members →
      byteSize (writeMap lib (members.map fun m ↦ (m.1, m.2.val))) ≤ byteSize text

namespace Field

theorem asReceived_of_read (hlib : lib.Faithful) {field : Field} {raw : RawValue lib}
    {x : field.Carrier lib} (h : field.read lib raw = .ok x) : field.asReceived hlib x = x := by
  cases field with
  | result | payload =>
    cases h
    rfl
  | version | id | ops | deadlineMs | namespaceOverride | actorId | visibleNamespaces | code
  | message | topic | resumeCursor | startCursor | cursor | occurredAt => rfl

theorem sendable_of_read {field : Field} {raw : RawValue lib} {x : field.Carrier lib}
    (h : field.read lib raw = .ok x) : field.Sendable x := by
  cases field with
  | id =>
    obtain ⟨value, -, hvalue⟩ := bind_eq_ok.mp (show readOperationId lib raw.val = .ok x from h)
    obtain ⟨hne, hx⟩ := seq_eq_ok.mp hvalue
    cases hx
    exact bne_iff_ne.mp (guardOr_eq_ok.mp hne)
  | version | result | payload | ops | deadlineMs | namespaceOverride | actorId
  | visibleNamespaces | code | message | topic | resumeCursor | startCursor | cursor
  | occurredAt => trivial

/-- No field is written longer than it was spelled; an error code must have been spelled as one
of the closed set. -/
theorem byteSize_write_le (hcompact : lib.Compact) {field : Field} {raw : RawValue lib}
    {x : field.Carrier lib} (h : field.read lib raw = .ok x)
    (hcode : field = .code →
      ∃ s, lib.readString raw.val = .ok s ∧ WireErrorCode.isKnown s = true) :
    byteSize (field.write lib x) ≤ byteSize raw.val := by
  cases field with
  | version =>
    obtain ⟨n, hn, rfl⟩ := map_eq_ok.mp (show Except.map _ (lib.readU32 raw.val) = .ok x from h)
    exact hcompact.readU32 hn
  | id =>
    obtain ⟨value, hread, hvalue⟩ := bind_eq_ok.mp (show readOperationId lib raw.val = .ok x from h)
    obtain ⟨-, hx⟩ := seq_eq_ok.mp hvalue
    cases hx
    exact hcompact.readString hread
  | deadlineMs | resumeCursor | startCursor | cursor => exact hcompact.readU64 h
  | visibleNamespaces => exact hcompact.readStrings h
  | result | payload =>
    cases h
    exact Nat.le_refl _
  | code =>
    obtain ⟨s, hs, hknown⟩ := hcode rfl
    obtain ⟨name, hname, rfl⟩ :=
      map_eq_ok.mp (show Except.map _ (lib.readVariant raw.val) = .ok x from h)
    rw [hcompact.readVariant hs] at hname
    cases hname
    change byteSize (lib.writeString (WireErrorCode.ofVariant s).asStr) ≤ _
    rw [WireErrorCode.asStr_ofVariant hknown]
    exact hcompact.readString hs
  | ops | namespaceOverride | actorId | message | topic | occurredAt =>
    exact hcompact.readString h

end Field

/-! ## What an accepted text says -/

theorem collectEnvelope_eq_ok {entries : List (String × Except String (RawValue lib))}
    {before object : Envelope lib} (hsorted : SortedMap.Sorted before)
    (h : collectEnvelope entries before = .ok object) :
    ∃ members : Envelope lib, entries = handedOut members ∧ (members.map Prod.fst).Nodup ∧
      (∀ m ∈ members, m.1 ∉ before.map Prod.fst) ∧
      object = members.foldl (fun o m ↦ SortedMap.insert m.1 m.2 o) before := by
  induction entries generalizing before with
  | nil =>
    cases h
    exact ⟨[], rfl, List.nodup_nil, fun _ hm ↦ absurd hm List.not_mem_nil, rfl⟩
  | cons e entries ih =>
    obtain ⟨key, value⟩ := e
    obtain ⟨habsent, hvalue⟩ := seq_eq_ok.mp h
    obtain ⟨raw, hraw, hrest⟩ := bind_eq_ok.mp hvalue
    subst hraw
    rw [guardOr_eq_ok, Option.isNone_iff_eq_none, SortedMap.lookup_eq_none_iff] at habsent
    obtain ⟨members, rfl, hnodup, hnew, rfl⟩ := ih (SortedMap.sorted_insert key raw hsorted) hrest
    have hkeys : ∀ k, k ∈ before.map Prod.fst ∨ k = key →
        k ∈ (SortedMap.insert key raw before).map Prod.fst := by
      rintro k (hk | rfl)
      · obtain ⟨e, he, rfl⟩ := List.mem_map.mp hk
        have hne : e.1 ≠ key := fun heq ↦ habsent (heq ▸ List.mem_map_of_mem he)
        exact List.mem_map_of_mem ((SortedMap.mem_insert hsorted).mpr (Or.inr ⟨he, hne⟩))
      · exact List.mem_map.mpr ⟨_, (SortedMap.mem_insert hsorted).mpr (Or.inl rfl), rfl⟩
    refine ⟨(key, raw) :: members, rfl, ?_, ?_, rfl⟩
    · refine List.nodup_cons.mpr ⟨fun hmem ↦ ?_, hnodup⟩
      obtain ⟨m, hm, hkey⟩ := List.mem_map.mp hmem
      exact hnew m hm (hkeys _ (Or.inr hkey))
    · intro m hm
      rcases List.mem_cons.mp hm with rfl | hm
      · exact habsent
      · exact fun hmem ↦ hnew m hm (hkeys _ (Or.inl hmem))

/-- Every filled slot was read from a member. -/
theorem readSlots_eq_ok {fields : List Field}
    {entries : List (String × Except String (RawValue lib))} {before slots : Slots lib}
    (h : readSlots lib fields entries before = .ok slots) {field : Field} {x : field.Carrier lib}
    (hx : slots field = some x) :
    before field = some x ∨
      ∃ raw, (field.name, .ok raw) ∈ entries ∧ field.read lib raw = .ok x := by
  induction entries generalizing before with
  | nil =>
    cases h
    exact Or.inl hx
  | cons e entries ih =>
    obtain ⟨key, value⟩ := e
    rw [readSlots] at h
    cases hfind : fields.find? fun g ↦ g.name == key with
    | none =>
      rw [hfind] at h
      cases h
    | some g =>
      rw [hfind] at h
      obtain ⟨-, hvalue⟩ := seq_eq_ok.mp h
      obtain ⟨raw, hraw, hfield⟩ := bind_eq_ok.mp hvalue
      obtain ⟨y, hy, hrest⟩ := bind_eq_ok.mp hfield
      have hname : g.name = key := by
        simpa using List.find?_some hfind
      rcases ih hrest with hslot | ⟨raw', hmem, hread⟩
      · by_cases hg : field = g
        · subst hg
          rw [Function.update_self] at hslot
          cases hslot
          exact Or.inr ⟨raw, by rw [hname, hraw]; exact List.mem_cons_self, hy⟩
        · rw [Function.update_of_ne hg] at hslot
          exact Or.inl hslot
      · exact Or.inr ⟨raw', List.mem_cons_of_mem _ hmem, hread⟩

theorem required_eq_ok {slots : Slots lib} {field : Field} {x : field.Carrier lib} :
    required slots field = .ok x ↔ slots field = some x := by
  rw [required]
  cases slots field <;> simp

/-- The fields of the frame are those in the slots. -/
theorem payloadFrame_eq_ok {slots : Slots lib} {kind : FrameKind} {frame : Frame lib}
    (h : payloadFrame slots kind = .ok frame) :
    frame.kind = kind ∧ ∀ f ∈ frame.fieldValues, slots f.1 = some f.2 := by
  have hoptional : ∀ {field : Field} {f : FieldValue lib},
      f ∈ Frame.optional field (slots field) → slots f.1 = some f.2 := by
    intro field f hf
    cases hslot : slots field with
    | none =>
      rw [hslot] at hf
      exact absurd hf List.not_mem_nil
    | some x =>
      rw [hslot] at hf
      obtain rfl := List.mem_singleton.mp hf
      exact hslot
  cases kind with
  | request =>
    simp only [payloadFrame, bind_eq_ok, required_eq_ok, pure_eq_ok] at h
    obtain ⟨id, hid, ops, hops, rfl⟩ := h
    refine ⟨rfl, fun f hf ↦ ?_⟩
    simp only [Frame.fieldValues, List.mem_append, List.mem_cons, List.not_mem_nil, or_false] at hf
    rcases hf with ((((rfl | rfl) | hf) | hf) | hf) | hf
    · exact hid
    · exact hops
    all_goals exact hoptional hf
  | error =>
    simp only [payloadFrame, bind_eq_ok, required_eq_ok, pure_eq_ok] at h
    obtain ⟨code, hcode, message, hmessage, rfl⟩ := h
    refine ⟨rfl, fun f hf ↦ ?_⟩
    simp only [Frame.fieldValues, List.mem_append, List.mem_cons, List.not_mem_nil, or_false] at hf
    rcases hf with hf | rfl | rfl
    · exact hoptional hf
    · exact hcode
    · exact hmessage
  | subscribe =>
    simp only [payloadFrame, bind_eq_ok, required_eq_ok, pure_eq_ok] at h
    obtain ⟨id, hid, topic, htopic, rfl⟩ := h
    refine ⟨rfl, fun f hf ↦ ?_⟩
    simp only [Frame.fieldValues, List.mem_append, List.mem_cons, List.not_mem_nil, or_false] at hf
    rcases hf with (rfl | rfl) | hf
    · exact hid
    · exact htopic
    · exact hoptional hf
  | handshake | handshakeAck | cancel =>
    simp only [payloadFrame, bind_eq_ok, required_eq_ok, pure_eq_ok] at h
    obtain ⟨x, hx, rfl⟩ := h
    exact ⟨rfl, by simpa [Frame.fieldValues] using hx⟩
  | response | unsubscribe | unsubscribeAck =>
    simp only [payloadFrame, bind_eq_ok, required_eq_ok, pure_eq_ok] at h
    obtain ⟨x, hx, y, hy, rfl⟩ := h
    exact ⟨rfl, by simpa [Frame.fieldValues] using ⟨hx, hy⟩⟩
  | subscribeAck =>
    simp only [payloadFrame, bind_eq_ok, required_eq_ok, pure_eq_ok] at h
    obtain ⟨x, hx, y, hy, z, hz, rfl⟩ := h
    exact ⟨rfl, by simpa [Frame.fieldValues] using ⟨hx, hy, hz⟩⟩
  | event =>
    simp only [payloadFrame, bind_eq_ok, required_eq_ok, pure_eq_ok] at h
    obtain ⟨x, hx, y, hy, z, hz, w, hw, rfl⟩ := h
    exact ⟨rfl, by simpa [Frame.fieldValues] using ⟨hx, hy, hz, hw⟩⟩

/-- What the checks behind the payload struct establish. -/
def Finished (object : Envelope lib) : Frame lib → Prop
  | .request _ _ deadlineMs _ _ _ => deadlineMs ≠ some 0
  | .error id code _ unrecognizedCode =>
    if (rawCode object).any WireErrorCode.isKnown then
      scopeViolation code id = none ∧ unrecognizedCode = none
    else unrecognizedCode = rawCode object
  | .event _ _ _ payload => payload.isObject = true
  | _ => True

theorem finishFrame_eq_ok {object : Envelope lib} {payload frame : Frame lib}
    (h : finishFrame object payload = .ok frame) :
    frame.kind = payload.kind ∧ frame.fieldValues = payload.fieldValues ∧
      Finished object frame := by
  cases payload with
  | request id ops deadline ns actor visible =>
    obtain ⟨hdeadline, hframe⟩ := seq_eq_ok.mp h
    cases hframe
    exact ⟨rfl, rfl, bne_iff_ne.mp (guardOr_eq_ok.mp hdeadline)⟩
  | event topic cursor occurredAt payload =>
    obtain ⟨hobject, hframe⟩ := seq_eq_ok.mp h
    cases hframe
    exact ⟨rfl, rfl, guardOr_eq_ok.mp hobject⟩
  | error id code message raw =>
    simp only [finishFrame] at h
    obtain ⟨-, hrest⟩ := seq_eq_ok.mp h
    by_cases hknown : (rawCode object).any WireErrorCode.isKnown = true
    · simp only [hknown, if_true] at hrest
      cases hscope : scopeViolation code id with
      | some detail =>
        rw [hscope] at hrest
        cases hrest
      | none =>
        rw [hscope] at hrest
        cases hrest
        exact ⟨rfl, rfl, by simp [Finished, hknown, hscope]⟩
    · simp only [hknown] at hrest
      cases hrest
      exact ⟨rfl, rfl, by simp [Finished, hknown]⟩
  | response | handshake | handshakeAck | cancel | subscribe | subscribeAck | unsubscribe
  | unsubscribeAck =>
    cases h
    exact ⟨rfl, rfl, trivial⟩

theorem FrameKind.name_of_ofName? {name : String} {kind : FrameKind}
    (h : FrameKind.ofName? name = some kind) : kind.name = name := by
  simpa using List.find?_some h

/-- The members that the visitor was handed, and how the frame comes from them. -/
structure ReadFrom (members object : Envelope lib) (frame : Frame lib) : Prop where
  nodup : (members.map Prod.fst).Nodup
  object_nodup : (object.map Prod.fst).Nodup
  mem_object : ∀ m ∈ object, m ∈ members
  kind : ∃ raw, ("kind", raw) ∈ members ∧ lib.readString raw.val = .ok frame.kind.name
  fields : ∀ f ∈ frame.fieldValues,
    ∃ raw, (f.1.name, raw) ∈ object ∧ f.1.read lib raw = .ok f.2
  finished : Finished object frame

theorem parsePayload_eq_ok (hlib : lib.Faithful) {kind : FrameKind} {object : Envelope lib}
    {payload : Frame lib} (h : parsePayload kind object = .ok payload) :
    payload.kind = kind ∧ ∀ f ∈ payload.fieldValues,
      ∃ raw, (f.1.name, raw) ∈ object ∧ f.1.read lib raw = .ok f.2 := by
  have hread := mapError_eq_ok.mp h
  rw [hlib.readMap_write, ok_bind] at hread
  obtain ⟨slots, hslots, hrest⟩ := bind_eq_ok.mp hread
  obtain ⟨-, hrest⟩ := seq_eq_ok.mp hrest
  obtain ⟨frame, hframe, hrest⟩ := bind_eq_ok.mp hrest
  obtain ⟨-, hfinish⟩ := seq_eq_ok.mp hrest
  cases hfinish
  obtain ⟨hkind, hfields⟩ := payloadFrame_eq_ok hframe
  refine ⟨hkind, fun f hf ↦ ?_⟩
  rcases readSlots_eq_ok hslots (hfields f hf) with hnone | ⟨raw, hmem, hx⟩
  · cases hnone
  · obtain ⟨m, hm, heq⟩ := List.mem_map.mp hmem
    obtain ⟨hkey, hraw⟩ := Prod.mk.inj heq
    cases hraw
    exact ⟨m.2, hkey ▸ hm, hx⟩

/-- What the visitor has read when it returns a frame. -/
theorem deserializeFrame_eq_ok (hlib : lib.Faithful) {text : List Char} {frame : Frame lib}
    (h : deserializeFrame lib text = .ok frame) :
    ∃ (access : MapAccess (RawValue lib)) (members object : Envelope lib),
      lib.readMap "a JSON object with a string \"kind\" discriminant field" text = .ok access ∧
      access.entries = handedOut members ∧ ReadFrom members object frame := by
  obtain ⟨access, haccess, h⟩ := bind_eq_ok.mp h
  obtain ⟨visited, hvisit, h⟩ := bind_eq_ok.mp h
  obtain ⟨-, h⟩ := seq_eq_ok.mp h
  cases h
  obtain ⟨collected, hcollect, h⟩ := bind_eq_ok.mp hvisit
  obtain ⟨-, h⟩ := seq_eq_ok.mp h
  obtain ⟨members, hentries, hnodup, -, hcollected⟩ :=
    collectEnvelope_eq_ok List.Pairwise.nil hcollect
  obtain rfl : collected = SortedMap.collect members := hcollected
  have hsorted := SortedMap.nodup_keys (SortedMap.sorted_collect members)
  cases hlookup : (SortedMap.collect members).lookup "kind" with
  | none =>
    rw [hlookup] at h
    cases h
  | some kindValue =>
    rw [hlookup] at h
    obtain ⟨name, hname, h⟩ := bind_eq_ok.mp h
    have hread := mapError_eq_ok.mp hname
    dsimp only at h
    cases hkind : FrameKind.ofName? name with
    | none =>
      rw [hkind] at h
      cases h
    | some kind =>
      rw [hkind] at h
      obtain ⟨payload, hpayload, hfinish⟩ := bind_eq_ok.mp h
      obtain ⟨hpkind, hpfields⟩ := parsePayload_eq_ok hlib hpayload
      obtain ⟨hfkind, hffields, hfinished⟩ := finishFrame_eq_ok hfinish
      have hkindMem : ("kind", kindValue) ∈ members :=
        (SortedMap.mem_collect_of_nodup hnodup).mp (SortedMap.mem_of_lookup hlookup)
      refine ⟨access, members, _, haccess, hentries, hnodup,
        hsorted.sublist (List.filter_sublist.map _), ?_, ⟨kindValue, hkindMem, ?_⟩, ?_, hfinished⟩
      · intro m hm
        exact (SortedMap.mem_collect_of_nodup hnodup).mp (List.mem_of_mem_filter hm)
      · rw [hread, hfkind, hpkind, FrameKind.name_of_ofName? hkind]
      · intro f hf
        exact hpfields f (hffields ▸ hf)

/-! ## Encoding again -/

/-- A handshake, or its acknowledgment, that names version zero. -/
def Frame.NamesVersionZero : Frame lib → Prop
  | .handshake version | .handshakeAck version => version.get = 0
  | _ => False

/-- A decoded error frame whose code is outside the closed set. -/
def Frame.IsFallback : Frame lib → Prop
  | .error _ _ _ unrecognizedCode => unrecognizedCode.isSome = true
  | _ => False

namespace ReadFrom

variable {members object : Envelope lib} {frame : Frame lib}

theorem rawCode_eq (h : ReadFrom members object frame) {raw : RawValue lib}
    (hraw : ("code", raw) ∈ object) {s : String} (hs : lib.readString raw.val = .ok s) :
    rawCode object = some s := by
  rw [rawCode, SortedMap.lookup_of_mem h.object_nodup hraw, Option.bind_some, hs]
  rfl

/-- A string code that is not kept for diagnosis is one of the closed set. -/
theorem code_known {id : Option OperationId} {code : WireErrorCode} {message : String}
    {unrecognized : Option String}
    (h : ReadFrom members object (.error id code message unrecognized))
    (hfallback : unrecognized = none)
    (hcode : ∀ raw, ("code", raw) ∈ members → ∃ s, lib.readString raw.val = .ok s)
    {raw : RawValue lib} (hraw : ("code", raw) ∈ object) :
    ∃ s, lib.readString raw.val = .ok s ∧ WireErrorCode.isKnown s = true := by
  obtain ⟨s, hs⟩ := hcode raw (h.mem_object _ hraw)
  refine ⟨s, hs, ?_⟩
  by_contra hunknown
  have hfinished := h.finished
  rw [Finished, h.rawCode_eq hraw hs, Option.any_some, if_neg hunknown, hfallback] at hfinished
  cases hfinished

theorem grammatical (h : ReadFrom members object frame) (hversion : ¬frame.NamesVersionZero)
    (hfallback : ¬frame.IsFallback)
    (hcode : ∀ raw, ("code", raw) ∈ members → ∃ s, lib.readString raw.val = .ok s) :
    frame.Grammatical := by
  have hsendable : ∀ f ∈ frame.fieldValues, f.1.Sendable f.2 := by
    intro f hf
    obtain ⟨raw, -, hread⟩ := h.fields f hf
    exact Field.sendable_of_read hread
  cases frame with
  | handshake | handshakeAck => exact hversion
  | request id ops deadline ns actor visible =>
    exact ⟨hsendable ⟨.id, id⟩ (by simp [Frame.fieldValues]), h.finished⟩
  | response id | cancel id | subscribe id | subscribeAck id | unsubscribe id
  | unsubscribeAck id => exact hsendable ⟨.id, id⟩ (by simp [Frame.fieldValues])
  | event => exact h.finished
  | error id code message unrecognized =>
    have hnone : unrecognized = none := Option.not_isSome_iff_eq_none.mp hfallback
    obtain ⟨raw, hraw, -⟩ := h.fields ⟨.code, code⟩ (by simp [Frame.fieldValues])
    obtain ⟨s, hs, hknown⟩ := h.code_known hnone hcode hraw
    have hfinished := h.finished
    rw [Finished, h.rawCode_eq hraw hs, Option.any_some, if_pos hknown] at hfinished
    refine ⟨hnone, fun i hi ↦ ?_, hfinished.1⟩
    obtain rfl : id = some i := hi
    exact hsendable ⟨.id, i⟩ (by simp [Frame.fieldValues, Frame.optional])

theorem byteSize_le (h : ReadFrom members object frame) (hcompact : lib.Compact)
    (hfallback : ¬frame.IsFallback)
    (hcode : ∀ raw, ("code", raw) ∈ members → ∃ s, lib.readString raw.val = .ok s)
    (hlib : lib.Faithful) :
    byteSize (writeMap lib frame.entries) ≤
      byteSize (writeMap lib (members.map fun m ↦ (m.1, m.2.val))) := by
  obtain ⟨kindRaw, hkindMem, hkindRead⟩ := h.kind
  have hmembers : members.map (fun m ↦ (m.1, m.2.val)) ≠ [] := by
    rw [Ne, List.map_eq_nil_iff]
    exact List.ne_nil_of_mem hkindMem
  have hknown : ∀ f ∈ frame.fieldValues, ∀ raw : RawValue lib, (f.1.name, raw) ∈ object →
      f.1 = .code → ∃ s, lib.readString raw.val = .ok s ∧ WireErrorCode.isKnown s = true := by
    intro f hf raw hraw heq
    rw [heq] at hraw
    cases frame with
    | error id code message unrecognized =>
      exact h.code_known (Option.not_isSome_iff_eq_none.mp hfallback) hcode hraw
    | handshake | handshakeAck | request | response | cancel | subscribe | subscribeAck
    | unsubscribe | unsubscribeAck | event =>
      -- no other kind has a code
      have hmem := Frame.fieldValues_sublist _ |>.subset (List.mem_map_of_mem hf)
      rw [heq] at hmem
      simp [Frame.kind, FrameKind.fields] at hmem
  have hnodup : (frame.entries.map Prod.fst).Nodup := by
    have hmap := frame.nodup_members hlib
    rwa [frame.entries_eq hlib, List.map_map]
  have hentries : frame.entries ≠ [] := List.cons_ne_nil _ _
  rw [byteSize_writeMap hentries, byteSize_writeMap hmembers]
  refine Nat.add_le_add_right (sum_memberSize_le hnodup fun e he ↦ ?_) 1
  rcases List.mem_cons.mp he with rfl | he
  · exact ⟨kindRaw.val, List.mem_map.mpr ⟨_, hkindMem, rfl⟩, hcompact.readString hkindRead⟩
  · obtain ⟨f, hf, rfl⟩ := List.mem_map.mp he
    obtain ⟨raw, hraw, hread⟩ := h.fields f hf
    exact ⟨raw.val, List.mem_map.mpr ⟨_, h.mem_object _ hraw, rfl⟩,
      Field.byteSize_write_le hcompact hread (hknown f hf raw hraw)⟩

theorem asReceived_eq (h : ReadFrom members object frame) (hlib : lib.Faithful) :
    frame.asReceived hlib = frame := by
  cases frame with
  | response id result =>
    obtain ⟨raw, -, hread⟩ := h.fields ⟨.result, result⟩ (by simp [Frame.fieldValues])
    have hresult : result.asReceived hlib = result := Field.asReceived_of_read hlib hread
    rw [Frame.asReceived, hresult]
  | event topic cursor occurredAt payload =>
    obtain ⟨raw, -, hread⟩ := h.fields ⟨.payload, payload⟩ (by simp [Frame.fieldValues])
    have hpayload : payload.asReceived hlib = payload := Field.asReceived_of_read hlib hread
    rw [Frame.asReceived, hpayload]
  | request | error | handshake | handshakeAck | cancel | subscribe | subscribeAck | unsubscribe
  | unsubscribeAck => rfl

end ReadFrom

/-- What an accepted buffer starts with. -/
theorem decodeFrameWithConsumed_eq_ok {maxFrameBytes : Nat} {buf : Bytes} {frame : Frame lib}
    {consumed : Nat} (h : decodeFrameWithConsumed lib maxFrameBytes buf = .ok (frame, consumed)) :
    ∃ text, utf8Text ((buf.drop lengthPrefixBytes).take (consumed - lengthPrefixBytes)) = some text ∧
      byteSize text ≤ maxFrameBytes ∧ byteSize text ≤ u32Max ∧
      consumed = lengthPrefixBytes + byteSize text ∧ deserializeFrame lib text = .ok frame := by
  obtain ⟨hlen, h⟩ := seq_eq_ok.mp h
  obtain ⟨hmax, h⟩ := seq_eq_ok.mp h
  obtain ⟨havailable, h⟩ := seq_eq_ok.mp h
  obtain ⟨frame', hpayload, h⟩ := bind_eq_ok.mp h
  cases h
  rw [guardOr_eq_ok, decide_eq_true_eq] at hlen hmax havailable
  have hdecode := mapError_eq_ok.mp hpayload
  rw [fromSlice] at hdecode
  cases htext : utf8Text ((buf.drop lengthPrefixBytes).take
      (fromBeBytes (buf.take lengthPrefixBytes)).toNat) with
  | none =>
    rw [htext] at hdecode
    cases hdecode
  | some text =>
    rw [htext] at hdecode
    have hsize : byteSize text = (fromBeBytes (buf.take lengthPrefixBytes)).toNat := by
      rw [byteSize, utf8Bytes_of_utf8Text htext, List.length_take, List.length_drop]
      omega
    refine ⟨text, ?_, ?_, ?_, ?_, mapError_eq_ok.mp hdecode⟩
    · rwa [Nat.add_sub_cancel_left]
    · rwa [hsize]
    · have hlt := (fromBeBytes (buf.take lengthPrefixBytes)).toNat_lt
      rw [hsize, u32Max]
      omega
    · rw [hsize]

/-- Where the payload of an accepted buffer has a `code` member, it is a JSON string. -/
def CodeIsString (lib : SerdeJson) (buf : Bytes) (consumed : Nat) : Prop :=
  ∀ text access,
    utf8Text ((buf.drop lengthPrefixBytes).take (consumed - lengthPrefixBytes)) = some text →
    lib.readMap "a JSON object with a string \"kind\" discriminant field" text = .ok access →
    ∀ raw, ("code", .ok raw) ∈ access.entries → ∃ s, lib.readString raw.val = .ok s

/-- **Encoding a decoded frame**: unless it is an unknown-code fallback or names version zero, a
decoded frame is serialized and encoded again under the same bound, in no more bytes than it was
decoded from, and the encoding decodes to the same frame, whatever follows it. -/
theorem encodeFrameWithMax_decoded (lib : SerdeJson) (hlib : lib.Faithful) (hcompact : lib.Compact)
    (maxFrameBytes : Nat) (buf : Bytes) (frame : Frame lib) (consumed : Nat)
    (h : decodeFrameWithConsumed lib maxFrameBytes buf = .ok (frame, consumed))
    (hfallback : ¬frame.IsFallback) (hversion : ¬frame.NamesVersionZero)
    (hcode : CodeIsString lib buf consumed) :
    (∃ text, frame.serialize = .ok text) ∧
      ∃ bytes, encodeFrameWithMax maxFrameBytes frame = .ok bytes ∧ bytes.length ≤ consumed ∧
        ∀ rest, decodeFrameWithConsumed lib maxFrameBytes (bytes ++ rest) =
          .ok (frame, bytes.length) := by
  obtain ⟨text, htext, hmax, hu32, rfl, hread⟩ := decodeFrameWithConsumed_eq_ok h
  obtain ⟨access, members, object, haccess, hentries, hfrom⟩ := deserializeFrame_eq_ok hlib hread
  have hstring : ∀ raw, ("code", raw) ∈ members → ∃ s, lib.readString raw.val = .ok s := by
    intro raw hraw
    refine hcode text access htext haccess raw ?_
    rw [hentries]
    exact List.mem_map.mpr ⟨_, hraw, rfl⟩
  have hgram := hfrom.grammatical hversion hfallback hstring
  have hsize : byteSize (writeMap lib frame.entries) ≤ byteSize text :=
    (hfrom.byteSize_le hcompact hfallback hstring hlib).trans (hcompact.readMap haccess hentries)
  have hencode : encodeFrameWithMax maxFrameBytes frame =
      .ok (toBeBytes (UInt32.ofNat (utf8Bytes (writeMap lib frame.entries)).length) ++
        utf8Bytes (writeMap lib frame.entries)) :=
    encodeFrameWithMax_eq_ok.mpr ⟨hgram, hsize.trans hmax, hsize.trans hu32, rfl⟩
  have hdelimits := delimits_encoding hlib hencode
  rw [hfrom.asReceived_eq hlib] at hdelimits
  refine ⟨⟨writeMap lib frame.entries, ?_⟩, _, hencode, ?_, hdelimits⟩
  · exact seq_eq_ok.mpr ⟨validateFrame_eq_ok.mpr hgram, rfl⟩
  · rw [List.length_append, length_toBeBytes]
    exact Nat.add_le_add_left hsize _

/-! ## The strict library -/

theorem byteSize_of_readWritten {α : Type} (write : α → List Char) {x y : α} {text : List Char}
    (h : readWritten write x text = .ok y) : byteSize (write y) ≤ byteSize text := by
  obtain ⟨rfl, rfl⟩ := readWritten_eq_ok.mp h
  exact Nat.le_refl _

/-- Values that were all read are the texts they were read from. -/
theorem map_val_of_strictValue {members : Envelope strictJson} {texts : List (String × List Char)}
    (h : texts.map (fun m ↦ (m.1, strictValue m.2)) = handedOut members) :
    members.map (fun m ↦ (m.1, m.2.val)) = texts := by
  induction texts generalizing members with
  | nil =>
    obtain rfl := List.map_eq_nil_iff.mp h.symm
    rfl
  | cons t texts ih =>
    cases members with
    | nil => cases h
    | cons m members =>
      obtain ⟨hhead, htail⟩ := List.cons.inj h
      obtain ⟨hkey, hvalue⟩ := Prod.mk.inj hhead
      have hval : m.2.val = t.2 := by
        rw [strictValue] at hvalue
        split_ifs at hvalue with htoken
        exact (congrArg Subtype.val (Except.ok.inj hvalue)).symm
      rw [List.map_cons, ih htail, hval, ← hkey]

theorem compact_strictJson : strictJson.Compact where
  readVariant h := h
  readString {text s} h := by
    rw [strictJson_readString_eq] at h
    exact byteSize_of_readWritten Json.quote h
  readU32 h := byteSize_of_readWritten (fun n : UInt32 ↦ writeUnsigned n.toNat) h
  readU64 h := byteSize_of_readWritten (fun n : UInt64 ↦ writeUnsigned n.toNat) h
  readStrings h :=
    byteSize_of_readWritten (fun strings : List String ↦ Json.arrayText (strings.map Json.quote)) h
  readMap h hentries := by
    obtain ⟨texts, htexts, rfl⟩ := map_eq_ok.mp h
    rw [map_val_of_strictValue hentries]
    exact byteSize_of_readWritten (Json.objectText Json.quote) htexts

/-! A cancellation, decoded and encoded again; and a handshake that names version zero. -/

private def strictBytes (frame : Frame strictJson) : Bytes :=
  toBeBytes (UInt32.ofNat (utf8Bytes (writeMap strictJson frame.entries)).length) ++
    utf8Bytes (writeMap strictJson frame.entries)

private theorem decode_strictBytes {frame : Frame strictJson}
    (hsize : (utf8Bytes (writeMap strictJson frame.entries)).length ≤ 64)
    (hread : deserializeFrame strictJson (writeMap strictJson frame.entries) = .ok frame) :
    decodeFrameWithConsumed strictJson 64 (strictBytes frame) =
      .ok (frame, lengthPrefixBytes + (utf8Bytes (writeMap strictJson frame.entries)).length) := by
  have hu32 : (utf8Bytes (writeMap strictJson frame.entries)).length ≤ u32Max :=
    hsize.trans (by decide)
  rw [strictBytes, ← List.append_nil (_ ++ _), decodeFrameWithConsumed_append hsize hu32, decodePayload, fromSlice, utf8Text_utf8Bytes]
  dsimp only
  rw [hread]
  rfl

theorem decode_version_zero :
    strictJson.Faithful ∧ strictJson.Compact ∧
      decodeFrameWithConsumed strictJson 64 (strictBytes (.handshake ⟨0⟩)) =
        .ok (.handshake ⟨0⟩, 36) ∧
      ¬(Frame.handshake ⟨0⟩ : Frame strictJson).IsFallback ∧
      encodeFrameWithMax 64 (.handshake ⟨0⟩ : Frame strictJson) =
        .error (.invalidFields "handshake" "protocol version 0 does not exist") :=
  ⟨faithful_strictJson, compact_strictJson, decode_strictBytes (by decide) rfl, id, rfl⟩

theorem encodeFrameWithMax_decoded_cancel :
    decodeFrameWithConsumed strictJson 64 (strictBytes (.cancel ⟨"a"⟩)) = .ok (.cancel ⟨"a"⟩, 30) ∧
      ∃ bytes, encodeFrameWithMax 64 (.cancel ⟨"a"⟩ : Frame strictJson) = .ok bytes ∧
        bytes.length ≤ 30 := by
  have hdecode : decodeFrameWithConsumed strictJson 64 (strictBytes (.cancel ⟨"a"⟩)) =
      .ok (.cancel ⟨"a"⟩, 30) := decode_strictBytes (by decide) rfl
  have hcode : CodeIsString strictJson (strictBytes (.cancel ⟨"a"⟩)) 30 := by
    intro text access htext haccess raw hraw
    have hpayload : ((strictBytes (.cancel ⟨"a"⟩)).drop lengthPrefixBytes).take
        (30 - lengthPrefixBytes) =
          utf8Bytes (writeMap strictJson (.cancel ⟨"a"⟩ : Frame strictJson).entries) := by
      rw [strictBytes, lengthPrefixBytes, List.drop_left' (length_toBeBytes _)]
      exact List.take_of_length_le (by decide)
    rw [hpayload, utf8Text_utf8Bytes] at htext
    cases htext
    rw [Frame.entries_eq faithful_strictJson, strictJson_readMap] at haccess
    cases haccess
    simp [Frame.members, Frame.fieldMembers, Frame.fieldValues, Field.name] at hraw
  obtain ⟨-, bytes, hencode, hlength, -⟩ := encodeFrameWithMax_decoded strictJson
    faithful_strictJson compact_strictJson 64 _ _ _ hdecode id id hcode
  exact ⟨hdecode, bytes, hencode, hlength⟩

end Wire

end Khive
