import Khive.Merge.Unit
import Khive.Foundation.SortedMap

/-!
# Property payloads

Entities and edges reconcile their property payloads in two copies of one loop. The entity's copy
pushes a conflict for every key it cannot decide, the edge's copy raises a flag and reports once at
the end. Both are written out here as the code has them, and both come to the same reconciliation,
`mergePayload`: the merged payload is one, and a conflict of the one is a conflict of the other.

The whole-payload shortcuts in front of the loop do not contradict it. Whether a shortcut is taken
or the loop runs, the merged payload follows one law for every key, `PerKey`, up to the equality
the code compares with.
-/

namespace Khive

namespace Payload

/-! ## The two loops -/

/-- `select_property_value`, with the state that `on_conflict` writes to. -/
def selectPropertyValue {σ : Type} (base ours theirs : Option JsonValue) (onConflict : σ → σ)
    (s : σ) : Option JsonValue × σ :=
  if ours == theirs then (ours, s)
  else if ours == base then (theirs, s)
  else if theirs == base then (ours, s)
  else (ours, onConflict s)

/-- `and_then(|object| object.get(key))`. -/
def member (object : Option (List (String × JsonValue))) (k : String) : Option JsonValue :=
  object.bind fun members ↦ getMember members k

/-- The keys of the objects that are there, collected into a set and sorted. -/
def sortedKeys (objects : List (Option (List (String × JsonValue)))) : List String :=
  sortedDistinct (fun a b ↦ decide (a ≤ b))
    (objects.flatMap fun object ↦ (object.getD []).map Prod.fst)

/-- The body of the loop, over what the loop accumulates besides the merged object. -/
def mergeKey {σ : Type} (base ours theirs : Option (List (String × JsonValue)))
    (onConflict : String → Option JsonValue → Option JsonValue → σ → σ)
    (acc : List (String × JsonValue) × σ) (key : String) : List (String × JsonValue) × σ :=
  let baseValue := member base key
  let oursValue := member ours key
  let theirsValue := member theirs key
  let selected := selectPropertyValue baseValue oursValue theirsValue
    (onConflict key oursValue theirsValue) acc.2
  match selected.1 with
  | some value => (SortedMap.insert key value acc.1, selected.2)
  | none => (acc.1, selected.2)

/-- `merge_properties`, of entities. -/
def mergeProperties (id : Id128) (baseProps oursProps theirsProps : Option JsonValue) :
    Option JsonValue × List MergeConflict :=
  if propertiesEqual oursProps theirsProps then (oursProps, [])
  else if propertiesEqual oursProps baseProps then (theirsProps, [])
  else if propertiesEqual theirsProps baseProps then (oursProps, [])
  else if !([baseProps, oursProps, theirsProps].all isObjectLike) then
    (oursProps,
      [.propertyMismatch id "properties" (oursProps.getD .null) (theirsProps.getD .null)])
  else
    let baseObj := baseProps.bind JsonValue.asObject
    let oursObj := oursProps.bind JsonValue.asObject
    let theirsObj := theirsProps.bind JsonValue.asObject
    let (merged, conflicts) := (sortedKeys [baseObj, oursObj, theirsObj]).foldl
      (mergeKey baseObj oursObj theirsObj fun key oursValue theirsValue conflicts ↦
        conflicts ++
          [.propertyMismatch id key (oursValue.getD .null) (theirsValue.getD .null)])
      ([], [])
    (if merged.isEmpty && (oursProps.isNone || theirsProps.isNone) then none
      else some (.object merged),
      conflicts)

/-- `merge_edge_properties`. -/
def mergeEdgeProperties (key : EdgeKey) (base ours theirs : Option JsonValue) :
    Option JsonValue × List MergeConflict :=
  if propertiesEqual ours theirs then (ours, [])
  else if propertiesEqual ours base then (theirs, [])
  else if propertiesEqual theirs base then (ours, [])
  else if !([base, ours, theirs].all isObjectLike) then
    (ours, [edgePropertyConflict key ours theirs])
  else
    let baseObject := base.bind JsonValue.asObject
    let oursObject := ours.bind JsonValue.asObject
    let theirsObject := theirs.bind JsonValue.asObject
    let (merged, hasConflict) := (sortedKeys [baseObject, oursObject, theirsObject]).foldl
      (mergeKey baseObject oursObject theirsObject fun _ _ _ _ ↦ true) ([], false)
    (if merged.isEmpty && (ours.isNone || theirs.isNone) then none else some (.object merged),
      if hasConflict then [edgePropertyConflict key ours theirs] else [])

/-! ## What the loops compute -/

theorem member_eq (object : Option (List (String × JsonValue))) (k : String) :
    member object k = getMember (object.getD []) k := by
  cases object with
  | none => rfl
  | some members => rfl

theorem selectPropertyValue_eq {σ : Type} (base ours theirs : Option JsonValue)
    (onConflict : σ → σ) (s : σ) :
    selectPropertyValue base ours theirs onConflict s =
      ((Khive.selectPropertyValue base ours theirs).1,
        if (Khive.selectPropertyValue base ours theirs).2 then onConflict s else s) := by
  rw [selectPropertyValue, Khive.selectPropertyValue]
  split_ifs <;> simp_all

/-- The selection under one key of three objects. -/
def selected (base ours theirs : Option (List (String × JsonValue))) (k : String) :
    Option JsonValue × Bool :=
  Khive.selectPropertyValue (member base k) (member ours k) (member theirs k)

theorem sorted_sortedKeys (objects : List (Option (List (String × JsonValue)))) :
    (sortedKeys objects).Pairwise (· < ·) := by
  have hle : (sortedKeys objects).Pairwise (· ≤ ·) := by
    have hsorted := List.pairwise_insertionSort (fun a b : String ↦ decide (a ≤ b) = true)
      (objects.flatMap fun object ↦ (object.getD []).map Prod.fst).dedup
    exact hsorted.imp of_decide_eq_true
  exact hle.and (nodup_sortedDistinct _ _) |>.imp fun h ↦ lt_of_le_of_ne h.1 h.2

/-- What the loop has inserted, and what it has done to the rest of its state. -/
theorem foldl_mergeKey {σ : Type} {base ours theirs : Option (List (String × JsonValue))}
    (onConflict : String → Option JsonValue → Option JsonValue → σ → σ) {keys : List String}
    (hkeys : keys.Pairwise (· < ·)) {members : List (String × JsonValue)}
    (hmembers : ∀ m ∈ members, ∀ k ∈ keys, m.1 < k) (s : σ) :
    keys.foldl (mergeKey base ours theirs onConflict) (members, s) =
      (members ++ keys.filterMap fun k ↦ (selected base ours theirs k).1.map (k, ·),
        keys.foldl
          (fun s k ↦
            if (selected base ours theirs k).2 then
              onConflict k (member ours k) (member theirs k) s
            else s)
          s) := by
  induction keys generalizing members s with
  | nil => simp
  | cons k keys ih =>
    obtain ⟨hk, hkeys⟩ := List.pairwise_cons.mp hkeys
    have hstep : mergeKey base ours theirs onConflict (members, s) k =
        (members ++ ((selected base ours theirs k).1.map (k, ·)).toList,
          if (selected base ours theirs k).2 then
            onConflict k (member ours k) (member theirs k) s
          else s) := by
      rw [mergeKey]
      dsimp only
      rw [selectPropertyValue_eq, ← selected]
      cases hvalue : (selected base ours theirs k).1 with
      | none => simp
      | some value =>
        -- the keys come in order, so that each is inserted behind the others
        have hlast : SortedMap.insert k value members = members ++ [(k, value)] :=
          SortedMap.insert_of_forall_lt fun m hm ↦ hmembers m hm k List.mem_cons_self
        simp [hlast]
    rw [List.foldl_cons, hstep, ih hkeys, List.append_assoc, List.foldl_cons]
    · cases hvalue : (selected base ours theirs k).1 with
      | none => simp [hvalue]
      | some value => simp [hvalue]
    · intro m hm l hl
      rcases List.mem_append.mp hm with hm | hm
      · exact hmembers m hm l (List.mem_cons_of_mem _ hl)
      · obtain ⟨value, -, rfl⟩ := Option.map_eq_some_iff.mp (Option.mem_toList.mp hm)
        exact hk l hl

theorem foldl_conflicts {χ : Type} (flag : String → Bool) (report : String → χ) (keys : List String)
    (conflicts : List χ) :
    keys.foldl (fun s k ↦ if flag k then s ++ [report k] else s) conflicts =
      conflicts ++ (keys.filter flag).map report := by
  induction keys generalizing conflicts with
  | nil => simp
  | cons k keys ih =>
    rw [List.foldl_cons, ih, List.filter_cons]
    split_ifs
    · rw [List.append_assoc, List.map_cons, List.singleton_append]
    · rfl

theorem filterMap_flag {α : Type} (flag : String → Bool) (value : String → α)
    (keys : List String) :
    (keys.filterMap fun k ↦ if flag k then some (value k) else none) =
      (keys.filter flag).map value := by
  induction keys with
  | nil => rfl
  | cons k keys ih =>
    rw [List.filterMap_cons, List.filter_cons, ih]
    split_ifs
    · rfl
    · rfl

theorem foldl_flag (flag : String → Bool) (keys : List String) (s : Bool) :
    keys.foldl (fun s k ↦ if flag k then true else s) s = (s || keys.any flag) := by
  induction keys generalizing s with
  | nil => simp
  | cons k keys ih =>
    rw [List.foldl_cons, ih, List.any_cons]
    cases flag k <;> simp

section Shared

variable (base ours theirs : Option JsonValue)

private theorem sortedKeys_eq :
    sortedKeys [base.bind JsonValue.asObject, ours.bind JsonValue.asObject,
        theirs.bind JsonValue.asObject] =
      sortedDistinct (fun a b ↦ decide (a ≤ b))
        (((base.bind JsonValue.asObject).getD []).map Prod.fst ++
          ((ours.bind JsonValue.asObject).getD []).map Prod.fst ++
          ((theirs.bind JsonValue.asObject).getD []).map Prod.fst) := by
  rw [sortedKeys]
  simp only [List.flatMap_cons, List.flatMap_nil, List.append_nil, List.append_assoc]

private theorem all_isObjectLike :
    [base, ours, theirs].all isObjectLike =
      (isObjectLike base && isObjectLike ours && isObjectLike theirs) := by
  simp only [List.all_cons, List.all_nil, Bool.and_true, Bool.and_assoc]

/-- The entity's copy reconciles the payload and reports the keys both sides changed. -/
theorem mergeProperties_eq (id : Id128) :
    mergeProperties id base ours theirs = Khive.mergeProperties id base ours theirs := by
  rw [mergeProperties, Khive.mergeProperties, mergePayload, all_isObjectLike]
  by_cases hagree : propertiesEqual ours theirs = true
  · rw [if_pos hagree, if_pos hagree]
    rfl
  rw [if_neg hagree, if_neg hagree]
  by_cases hours : propertiesEqual ours base = true
  · rw [if_pos hours, if_pos hours]
    rfl
  rw [if_neg hours, if_neg hours]
  by_cases htheirs : propertiesEqual theirs base = true
  · rw [if_pos htheirs, if_pos htheirs]
    rfl
  rw [if_neg htheirs, if_neg htheirs]
  by_cases hlegacy : (!(isObjectLike base && isObjectLike ours && isObjectLike theirs)) = true
  · rw [if_pos hlegacy, if_pos hlegacy]
    rfl
  · rw [if_neg hlegacy, if_neg hlegacy]
    dsimp only
    rw [foldl_mergeKey _ (sorted_sortedKeys _) (fun m hm ↦ absurd hm List.not_mem_nil),
      foldl_conflicts, mergeObjects, sortedKeys_eq]
    simp only [List.nil_append, selected, member_eq]
    refine congrArg (Prod.mk _) ?_
    rw [if_neg Bool.false_ne_true, filterMap_flag, List.map_map]
    rfl

/-- The edge's copy reconciles the payload and reports once. -/
theorem mergeEdgeProperties_eq (key : EdgeKey) :
    mergeEdgeProperties key base ours theirs = Khive.mergeEdgeProperties key base ours theirs := by
  rw [mergeEdgeProperties, Khive.mergeEdgeProperties, mergePayload, all_isObjectLike]
  by_cases hagree : propertiesEqual ours theirs = true
  · rw [if_pos hagree, if_pos hagree]
    rfl
  rw [if_neg hagree, if_neg hagree]
  by_cases hours : propertiesEqual ours base = true
  · rw [if_pos hours, if_pos hours]
    rfl
  rw [if_neg hours, if_neg hours]
  by_cases htheirs : propertiesEqual theirs base = true
  · rw [if_pos htheirs, if_pos htheirs]
    rfl
  rw [if_neg htheirs, if_neg htheirs]
  by_cases hlegacy : (!(isObjectLike base && isObjectLike ours && isObjectLike theirs)) = true
  · rw [if_pos hlegacy, if_pos hlegacy]
    rfl
  · rw [if_neg hlegacy, if_neg hlegacy]
    dsimp only
    rw [foldl_mergeKey _ (sorted_sortedKeys _) (fun m hm ↦ absurd hm List.not_mem_nil),
      foldl_flag, mergeObjects, sortedKeys_eq]
    simp only [List.nil_append, selected, member_eq, Bool.false_or]
    refine congrArg (Prod.mk _) ?_
    have hany : ∀ (flag : String → Bool) (keys : List String),
        keys.any flag = !(keys.filter flag).isEmpty := by
      intro flag keys
      rw [Bool.eq_iff_iff]
      simp
    rw [filterMap_flag, List.isEmpty_map, hany]

end Shared

/-! ## One law for every key -/

/-- The value of a payload under a key. -/
def valueAt (payload : Option JsonValue) (k : String) : Option JsonValue :=
  member (payload.bind JsonValue.asObject) k

/-- What a key of the merged payload may hold, given what the key holds in the three payloads. -/
structure PerKey (base ours theirs merged : Option JsonValue) : Prop where
  agreed : (ours == theirs) = true → (merged == ours) = true
  takesTheirs : (ours == base) = true → (theirs == base) = false → (merged == theirs) = true
  takesOurs : (theirs == base) = true → (ours == base) = false → (merged == ours) = true

/-- The three values are pairwise different. -/
def Diverging (base ours theirs : Option JsonValue) : Prop :=
  (ours == theirs) = false ∧ (ours == base) = false ∧ (theirs == base) = false

theorem perKey_select (base ours theirs : Option JsonValue) :
    PerKey base ours theirs (Khive.selectPropertyValue base ours theirs).1 := by
  rw [Khive.selectPropertyValue]
  refine ⟨fun h ↦ ?_, fun h₁ h₂ ↦ ?_, fun h₁ h₂ ↦ ?_⟩
  · rw [if_pos h]
    exact BEq.refl _
  · by_cases h : (ours == theirs) = true
    · rw [if_pos h]
      exact h
    · rw [if_neg h, if_pos h₁]
      exact BEq.refl _
  · by_cases h : (ours == theirs) = true
    · rw [if_pos h]
      exact BEq.refl _
    · rw [if_neg h, if_neg (by rw [h₂]; exact Bool.false_ne_true), if_pos h₁]
      exact BEq.refl _

theorem diverging_iff_select {base ours theirs : Option JsonValue} :
    (Khive.selectPropertyValue base ours theirs).2 = true ↔ Diverging base ours theirs := by
  rw [Khive.selectPropertyValue, Diverging]
  split_ifs with h₁ h₂ h₃
  · simp [h₁]
  · simp [h₂]
  · simp [h₃]
  · simp [h₁, h₂, h₃]

theorem getMember_beq {ms ns : List (String × JsonValue)} (h : Json.beqMembers ms ns = true)
    (k : String) : (getMember ms k == getMember ns k) = true := by
  induction ms generalizing ns with
  | nil =>
    cases ns with
    | nil => rfl
    | cons n ns => simp [Json.beqMembers] at h
  | cons m ms ih =>
    cases ns with
    | nil => simp [Json.beqMembers] at h
    | cons n ns =>
      obtain ⟨l, v⟩ := m
      obtain ⟨l', w⟩ := n
      simp only [Json.beqMembers, Bool.and_eq_true, beq_iff_eq] at h
      obtain ⟨⟨rfl, hvalue⟩, hrest⟩ := h
      rw [getMember, getMember, List.find?_cons, List.find?_cons]
      by_cases hk : l = k
      · rw [hk, beq_self_eq_true]
        exact hvalue
      · rw [beq_false_of_ne hk]
        exact ih hrest

/-- Payloads that compare equal hold equal values under every key. -/
theorem valueAt_beq {p q : Option JsonValue} (h : propertiesEqual p q = true) (k : String) :
    (valueAt p k == valueAt q k) = true := by
  cases p with
  | none =>
    cases q with
    | none => rfl
    | some w => cases h
  | some v =>
    cases q with
    | none => cases h
    | some w =>
      change Json.beq v w = true at h
      cases v <;> cases w <;> simp only [Json.beq, Bool.false_eq_true] at h
      case object.object ms ns => exact getMember_beq h k
      all_goals rfl

/-- The merged object holds under each key what was selected for it. -/
theorem getMember_filterMap {f : String → Option JsonValue} (keys : List String) {k : String}
    (hk : k ∉ keys → f k = none) :
    getMember (keys.filterMap fun k ↦ (f k).map (k, ·)) k = f k := by
  induction keys with
  | nil =>
    rw [hk List.not_mem_nil]
    rfl
  | cons l keys ih =>
    rw [List.filterMap_cons]
    by_cases hl : l = k
    · subst hl
      cases hvalue : f l with
      | none =>
        dsimp only [Option.map_none]
        rw [← hvalue]
        exact ih fun _ ↦ hvalue
      | some value =>
        dsimp only [Option.map_some]
        rw [getMember, List.find?_cons, beq_self_eq_true]
        rfl
    · have htail := ih fun h ↦ hk fun hmem ↦
        (List.mem_cons.mp hmem).elim (fun heq ↦ hl heq.symm) h
      cases f l with
      | none => exact htail
      | some value =>
        dsimp only [Option.map_some]
        rw [getMember, List.find?_cons, beq_false_of_ne hl]
        exact htail

theorem getMember_eq_none {ms : List (String × JsonValue)} {k : String}
    (h : k ∉ ms.map Prod.fst) : getMember ms k = none := by
  rw [getMember, Option.map_eq_none_iff, List.find?_eq_none]
  intro m hm heq
  exact h (List.mem_map.mpr ⟨m, hm, beq_iff_eq.mp heq⟩)

theorem valueAt_eq (payload : Option JsonValue) (k : String) :
    valueAt payload k = getMember ((payload.bind JsonValue.asObject).getD []) k :=
  member_eq _ _

section Law

variable {base ours theirs : Option JsonValue}

theorem valueAt_mergeObjects (k : String) :
    valueAt (mergeObjects base ours theirs).merged k =
      (Khive.selectPropertyValue (valueAt base k) (valueAt ours k) (valueAt theirs k)).1 := by
  have hmembers := getMember_filterMap (k := k)
    (f := fun k ↦ (Khive.selectPropertyValue (valueAt base k) (valueAt ours k)
      (valueAt theirs k)).1)
    (sortedDistinct (fun a b ↦ decide (a ≤ b))
      (((base.bind JsonValue.asObject).getD []).map Prod.fst ++
        ((ours.bind JsonValue.asObject).getD []).map Prod.fst ++
        ((theirs.bind JsonValue.asObject).getD []).map Prod.fst))
    fun h ↦ by
      rw [mem_sortedDistinct, List.mem_append, List.mem_append, not_or, not_or] at h
      rw [valueAt_eq, valueAt_eq, valueAt_eq, getMember_eq_none h.1.1, getMember_eq_none h.1.2,
        getMember_eq_none h.2]
      rfl
  rw [← hmembers, mergeObjects]
  simp only [valueAt_eq]
  split_ifs with hempty
  · -- no member is left, so that an absent payload stands for the empty object
    rw [Bool.and_eq_true, List.isEmpty_iff] at hempty
    rw [hempty.1]
    rfl
  · rfl

theorem diverging_mergeObjects :
    (mergeObjects base ours theirs).diverging ≠ [] ↔
      ∃ k, Diverging (valueAt base k) (valueAt ours k) (valueAt theirs k) := by
  rw [mergeObjects]
  dsimp only
  rw [filterMap_flag, ne_eq, List.map_eq_nil_iff, List.filter_eq_nil_iff]
  push Not
  simp only [← valueAt_eq, mem_sortedDistinct]
  constructor
  · rintro ⟨k, -, hk⟩
    exact ⟨k, diverging_iff_select.mp hk⟩
  · rintro ⟨k, hk⟩
    refine ⟨k, ?_, diverging_iff_select.mpr hk⟩
    -- a key of none of the objects is absent three times
    by_contra h
    rw [List.mem_append, List.mem_append, not_or, not_or] at h
    rw [valueAt_eq, valueAt_eq, valueAt_eq, getMember_eq_none h.1.1, getMember_eq_none h.1.2,
      getMember_eq_none h.2] at hk
    exact absurd hk.1 (by decide)

theorem perKey_mergePayload (hbase : isObjectLike base = true) (hours : isObjectLike ours = true)
    (htheirs : isObjectLike theirs = true) (k : String) :
    PerKey (valueAt base k) (valueAt ours k) (valueAt theirs k)
      (valueAt (mergePayload base ours theirs).merged k) := by
  rw [mergePayload, hbase, hours, htheirs]
  split_ifs with hagree hsame hsame'
  · -- ours, which agrees with theirs under every key
    have heq := valueAt_beq hagree k
    exact ⟨fun _ ↦ BEq.refl _, fun _ _ ↦ heq, fun _ _ ↦ BEq.refl _⟩
  · -- theirs, where ours agrees with the base
    have heq := valueAt_beq hsame k
    refine ⟨fun h ↦ PartialEquivBEq.symm h, fun _ _ ↦ BEq.refl _, fun _ h ↦ ?_⟩
    rw [heq] at h
    exact absurd h (by decide)
  · -- ours, where theirs agrees with the base
    have heq := valueAt_beq hsame' k
    refine ⟨fun _ ↦ BEq.refl _, fun _ h ↦ ?_, fun _ _ ↦ BEq.refl _⟩
    rw [heq] at h
    exact absurd h (by decide)
  · exact absurd ‹_› (by decide)
  · rw [valueAt_mergeObjects]
    exact perKey_select _ _ _

theorem diverging_mergePayload (hbase : isObjectLike base = true)
    (hours : isObjectLike ours = true) (htheirs : isObjectLike theirs = true) :
    ((mergePayload base ours theirs).atomic = true ∨
        (mergePayload base ours theirs).diverging ≠ []) ↔
      ∃ k, Diverging (valueAt base k) (valueAt ours k) (valueAt theirs k) := by
  rw [mergePayload, hbase, hours, htheirs]
  split_ifs with hagree hsame hsame'
  · refine iff_of_false (by simp) ?_
    rintro ⟨k, hk⟩
    rw [Diverging, valueAt_beq hagree k] at hk
    exact absurd hk.1 (by decide)
  · refine iff_of_false (by simp) ?_
    rintro ⟨k, hk⟩
    rw [Diverging, valueAt_beq hsame k] at hk
    exact absurd hk.2.1 (by decide)
  · refine iff_of_false (by simp) ?_
    rintro ⟨k, hk⟩
    rw [Diverging, valueAt_beq hsame' k] at hk
    exact absurd hk.2.2 (by decide)
  · exact absurd ‹_› (by decide)
  · rw [← diverging_mergeObjects]
    refine ⟨fun h ↦ h.resolve_left ?_, Or.inr⟩
    rw [mergeObjects]
    exact Bool.false_ne_true

end Law

/-! ## Both copies -/

theorem mergeProperties_conflicts (id : Id128) (base ours theirs : Option JsonValue) :
    (mergeProperties id base ours theirs).2 ≠ [] ↔
      (mergePayload base ours theirs).atomic = true ∨
        (mergePayload base ours theirs).diverging ≠ [] := by
  rw [mergeProperties_eq, Khive.mergeProperties]
  dsimp only
  cases (mergePayload base ours theirs).atomic with
  | true => simp
  | false => simp

theorem mergeEdgeProperties_conflicts (key : EdgeKey) (base ours theirs : Option JsonValue) :
    (mergeEdgeProperties key base ours theirs).2 ≠ [] ↔
      (mergePayload base ours theirs).atomic = true ∨
        (mergePayload base ours theirs).diverging ≠ [] := by
  rw [mergeEdgeProperties_eq, Khive.mergeEdgeProperties]
  dsimp only
  cases (mergePayload base ours theirs).atomic with
  | true => simp
  | false =>
    cases (mergePayload base ours theirs).diverging with
    | nil => simp
    | cons d ds => simp

/-- **The two copies agree, and follow one law per key.** Whatever the payloads, entities and edges
merge them alike and conflict alike. Where all three are absent or objects, every key follows the
three-way law, a conflict is reported exactly when some key has three different values, and a key
deleted on one side and untouched on the other stays away. -/
theorem payload_merges_agree (id : Id128) (key : EdgeKey) (base ours theirs : Option JsonValue) :
    (mergeProperties id base ours theirs).1 = (mergeEdgeProperties key base ours theirs).1 ∧
    ((mergeProperties id base ours theirs).2 ≠ [] ↔
      (mergeEdgeProperties key base ours theirs).2 ≠ []) ∧
    (isObjectLike base = true → isObjectLike ours = true → isObjectLike theirs = true →
      (∀ k, PerKey (valueAt base k) (valueAt ours k) (valueAt theirs k)
        (valueAt (mergeProperties id base ours theirs).1 k)) ∧
      ((mergeProperties id base ours theirs).2 ≠ [] ↔
        ∃ k, Diverging (valueAt base k) (valueAt ours k) (valueAt theirs k)) ∧
      ∀ k, valueAt base k ≠ none →
        (valueAt ours k = none ∧ (valueAt theirs k == valueAt base k) = true ∨
          valueAt theirs k = none ∧ (valueAt ours k == valueAt base k) = true) →
        valueAt (mergeProperties id base ours theirs).1 k = none) := by
  have hmerged : (mergeProperties id base ours theirs).1 =
      (mergePayload base ours theirs).merged := by
    rw [mergeProperties_eq, Khive.mergeProperties]
  have hmerged' : (mergeEdgeProperties key base ours theirs).1 =
      (mergePayload base ours theirs).merged := by
    rw [mergeEdgeProperties_eq, Khive.mergeEdgeProperties]
  rw [hmerged, hmerged', mergeProperties_conflicts, mergeEdgeProperties_conflicts]
  refine ⟨rfl, Iff.rfl, fun hbase hours htheirs ↦ ?_⟩
  have hlaw := perKey_mergePayload hbase hours htheirs
  refine ⟨hlaw, diverging_mergePayload hbase hours htheirs, fun k hk h ↦ ?_⟩
  obtain ⟨v, hv⟩ := Option.ne_none_iff_exists'.mp hk
  have hgone : (valueAt (mergePayload base ours theirs).merged k == none) = true := by
    rcases h with ⟨hnone, hsame⟩ | ⟨hnone, hsame⟩
    · rw [← hnone]
      refine (hlaw k).takesOurs hsame ?_
      rw [hnone, hv]
      rfl
    · rw [← hnone]
      refine (hlaw k).takesTheirs hsame ?_
      rw [hnone, hv]
      rfl
  cases hvalue : valueAt (mergePayload base ours theirs).merged k with
  | none => rfl
  | some w =>
    rw [hvalue] at hgone
    cases hgone

/-- Theirs deleted `a` and ours changed `b`: `a` stays deleted. -/
theorem deleted_key_stays_deleted :
    valueAt (mergeProperties 0 (some (.object [("a", .null), ("b", .null)]))
      (some (.object [("a", .null), ("b", .bool true)])) (some (.object [("b", .null)]))).1 "a" =
      none :=
  ((payload_merges_agree 0 ⟨0, 0, "links_to"⟩ _ _ _).2.2 rfl rfl rfl).2.2 "a"
    (Option.some_ne_none Json.null) (Or.inr ⟨rfl, rfl⟩)

end Payload

end Khive
