import Khive.Foundation.Checks
import Khive.Query.Sparql

/-!
# What the triples say

A triple is an edge, a kind, a string constraint or a numeric condition. Triples can be collected
when each is well formed and no two of them contradict each other, whatever their order. What is
collected then says what the triples say: the kinds and the conditions are theirs, and of string
constraints that agree, the value of one of them is kept.
-/

namespace Khive

namespace Query

namespace Sparql

/-! ## Readings of a triple -/

def Triple.edge? (t : Triple) : Option RelationEdge :=
  match t.predicate, t.object with
  | .relation name minHops maxHops, .variable target =>
    some ⟨t.subject, target, name, minHops, maxHops⟩
  | _, _ => none

def Triple.kind? (t : Triple) : Option String :=
  match t.predicate, t.object with
  | .type, .kind kind => some kind
  | _, _ => none

/-- The name and the value of a string constraint. -/
def Triple.property? (t : Triple) : Option (String × String) :=
  match t.predicate, t.object with
  | .relation name _ _, .stringLiteral value | .relation name _ _, .kind value => some (name, value)
  | _, _ => none

def Triple.number? (t : Triple) : Option Condition :=
  match t.predicate, t.object with
  | .relation name _ _, .numberLiteral value => some ⟨t.subject, .jsonPath [name], .eq, value⟩
  | _, _ => none

/-- A type is a kind, and only an edge has hops to choose. -/
def Triple.WellFormed (t : Triple) : Prop :=
  match t.predicate, t.object with
  | .type, object => ∃ kind, object = .kind kind
  | .relation _ _ _, .variable _ => True
  | .relation _ minHops maxHops, _ => minHops = 1 ∧ maxHops = 1

/-- The values are equal where the compiled query compares the property: without case, but for the
entity type, which is a column of its own. -/
def Agree (name left right : String) : Prop :=
  Sql.compareValues (decide (name ≠ "entity_type")) (.text left) (.text right) = some .eq

theorem agree_iff {name left right : String} : Agree name left right ↔
    if name = "entity_type" then left = right else Sql.foldCase left = Sql.foldCase right := by
  by_cases h : name = "entity_type"
  · simp [Agree, Sql.compareValues, h]
  · simp [Agree, Sql.compareValues, h]

theorem Agree.refl (name value : String) : Agree name value value := by
  rw [agree_iff]
  split_ifs <;> rfl

theorem Agree.symm {name left right : String} (h : Agree name left right) :
    Agree name right left := by
  rw [agree_iff] at h ⊢
  split_ifs at h ⊢ <;> exact h.symm

theorem Agree.trans {name a b c : String} (h : Agree name a b) (h' : Agree name b c) :
    Agree name a c := by
  rw [agree_iff] at h h' ⊢
  split_ifs at h h' ⊢ <;> exact h.trans h'

theorem equivalent_iff {name right : String} {existing : ConditionValue} :
    equivalent name existing right = true ↔
      ∃ left, existing = .string left ∧ Agree name left right := by
  rcases existing with left | _ | _ | _ | _ | _
  · by_cases h : name = "entity_type"
    · simp [equivalent, agree_iff, h]
    · simp [equivalent, agree_iff, h]
  all_goals simp [equivalent]

/-! ## Kinds -/

/-- The map has the kinds of one level that the triples give. -/
def KindsOf (level : String → Bool) (ts : List Triple) (kinds : OrderedMap String String) : Prop :=
  ∀ v kind, kinds.get v = some kind ↔
    ∃ t ∈ ts, t.subject = v ∧ t.kind? = some kind ∧ level kind = true

section Kinds

variable {level : String → Bool} {ts ts' : List Triple} {t : Triple}
  {kinds kinds' : OrderedMap String String} {kind : String}

theorem KindsOf.skip (h : KindsOf level ts kinds)
    (hskip : ∀ kind, t.kind? = some kind → level kind = false) :
    KindsOf level (ts ++ [t]) kinds := by
  intro v kind
  rw [h v kind]
  constructor
  · rintro ⟨u, hu, hread⟩
    exact ⟨u, List.mem_append_left _ hu, hread⟩
  · rintro ⟨u, hu, hsubject, hkind, hlevel⟩
    rcases List.mem_append.mp hu with hu | hu
    · exact ⟨u, hu, hsubject, hkind, hlevel⟩
    · obtain rfl := List.mem_singleton.mp hu
      rw [hskip kind hkind] at hlevel
      cases hlevel

theorem KindsOf.insert (h : KindsOf level ts kinds) (hkind : t.kind? = some kind)
    (hlevel : level kind = true) (hinsert : insertKind kinds t.subject kind = .ok kinds') :
    KindsOf level (ts ++ [t]) kinds' := by
  have hget : ∀ v, kinds'.get v = if v = t.subject then some kind else kinds.get v := by
    intro v
    rw [insertKind] at hinsert
    rcases hfound : kinds.get t.subject with - | existing
    · rw [hfound] at hinsert
      obtain rfl := Except.ok.inj hinsert
      exact kinds.get_insert _ _ _
    · rw [hfound] at hinsert
      by_cases hne : existing = kind
      · simp only [hne, ne_eq, not_true_eq_false, if_false] at hinsert
        obtain rfl := Except.ok.inj hinsert
        split_ifs with hv
        · rw [hv, hfound, hne]
        · rfl
      · simp only [hne, ne_eq, not_false_eq_true, if_true] at hinsert
        cases hinsert
  -- the kinds collected before are of one subject each, so the new one agrees with them
  have hsame : ∀ other, kinds.get t.subject = some other → other = kind := by
    intro other hother
    rw [insertKind, hother] at hinsert
    by_contra hne
    simp only [hne, ne_eq, not_false_eq_true, if_true] at hinsert
    cases hinsert
  intro v other
  rw [hget]
  constructor
  · intro hother
    split_ifs at hother with hv
    · obtain rfl := Option.some.inj hother
      exact ⟨t, List.mem_append_right _ (List.mem_singleton_self t), hv.symm, hkind, hlevel⟩
    · obtain ⟨u, hu, hread⟩ := (h v other).mp hother
      exact ⟨u, List.mem_append_left _ hu, hread⟩
  · rintro ⟨u, hu, rfl, hread⟩
    rcases List.mem_append.mp hu with hu | hu
    · have hother := (h u.subject other).mpr ⟨u, hu, rfl, hread⟩
      split_ifs with hv
      · rw [hv] at hother
        rw [hsame other hother]
      · exact hother
    · obtain rfl := List.mem_singleton.mp hu
      rw [if_pos rfl, ← hread.1, hkind]

theorem insertKind_ok (h : ∀ other, kinds.get t.subject = some other → other = kind) :
    ∃ kinds', insertKind kinds t.subject kind = .ok kinds' := by
  rw [insertKind]
  rcases hfound : kinds.get t.subject with - | existing
  · exact ⟨_, rfl⟩
  · obtain rfl := h existing hfound
    exact ⟨kinds, by simp⟩

/-- The kinds are those of the triples in any order. -/
theorem KindsOf.unique (h : KindsOf level ts kinds) (h' : KindsOf level ts' kinds')
    (hperm : ts.Perm ts') : kinds = kinds' := by
  apply OrderedMap.ext_get
  intro v
  apply Option.ext
  intro kind
  rw [h v kind, h' v kind]
  simp only [hperm.mem_iff]

end Kinds

/-! ## String constraints -/

/-- The value that is kept for a constraint. -/
def kept (nodeProps : OrderedMap String (OrderedMap String ConditionValue)) (v name : String) :
    Option ConditionValue :=
  (propsOf nodeProps v).get name

/-- Each value that is kept is one of the triples', and agrees with all of its name. -/
structure PropsOf (ts : List Triple)
    (nodeProps : OrderedMap String (OrderedMap String ConditionValue)) : Prop where
  stored : ∀ v name value, kept nodeProps v name = some value →
    ∃ t ∈ ts, t.subject = v ∧ ∃ s, t.property? = some (name, s) ∧ value = .string s
  agrees : ∀ t ∈ ts, ∀ name s, t.property? = some (name, s) →
    ∃ left, kept nodeProps t.subject name = some (.string left) ∧ Agree name left s
  keyed : ∀ v, (nodeProps.get v).isSome → ∃ t ∈ ts, t.subject = v ∧ t.property?.isSome

section Props

variable {ts : List Triple} {t : Triple} {name s : String}
  {nodeProps nodeProps' : OrderedMap String (OrderedMap String ConditionValue)}

theorem PropsOf.skip (h : PropsOf ts nodeProps) (hskip : t.property? = none) :
    PropsOf (ts ++ [t]) nodeProps where
  stored v name value hvalue := by
    obtain ⟨u, hu, hread⟩ := h.stored v name value hvalue
    exact ⟨u, List.mem_append_left _ hu, hread⟩
  agrees u hu name s hread := by
    rcases List.mem_append.mp hu with hu | hu
    · exact h.agrees u hu name s hread
    · rw [List.mem_singleton.mp hu, hskip] at hread
      cases hread
  keyed v hv := by
    obtain ⟨u, hu, hread⟩ := h.keyed v hv
    exact ⟨u, List.mem_append_left _ hu, hread⟩

/-- The property is there afterwards, agrees, and nothing else has changed. -/
theorem insertStringPropertyConstraint_spec {subject : String}
    (h : insertStringPropertyConstraint nodeProps subject name s = .ok nodeProps') :
    (∃ left, kept nodeProps' subject name = some (.string left) ∧ Agree name left s ∧
      (kept nodeProps subject name = some (.string left) ∨
        kept nodeProps subject name = none ∧ left = s)) ∧
      (∀ v other, ¬(v = subject ∧ other = name) →
        kept nodeProps' v other = kept nodeProps v other) ∧
      ∀ v, (nodeProps'.get v).isSome → v = subject ∨ (nodeProps.get v).isSome := by
  rw [insertStringPropertyConstraint] at h
  rcases hfound : (propsOf nodeProps subject).get name with - | existing
  · rw [hfound] at h
    obtain rfl := Except.ok.inj h
    refine ⟨⟨s, ?_, Agree.refl name s, Or.inr ⟨hfound, rfl⟩⟩, ?_, ?_⟩
    · rw [kept, propsOf, OrderedMap.get_insert, if_pos rfl, Option.getD_some,
        OrderedMap.get_insert, if_pos rfl]
    · intro v other hne
      rw [kept, propsOf, OrderedMap.get_insert]
      by_cases hv : v = subject
      · subst hv
        have hother : other ≠ name := fun heq ↦ hne ⟨rfl, heq⟩
        rw [if_pos rfl, Option.getD_some, OrderedMap.get_insert, if_neg hother, kept]
      · rw [if_neg hv]
        rfl
    · intro v hv
      rw [OrderedMap.get_insert] at hv
      by_cases heq : v = subject
      · exact Or.inl heq
      · rw [if_neg heq] at hv
        exact Or.inr hv
  · rw [hfound] at h
    by_cases hequiv : equivalent name existing s = true
    · obtain ⟨left, rfl, hagree⟩ := equivalent_iff.mp hequiv
      simp only [hequiv, if_true] at h
      obtain rfl := Except.ok.inj h
      -- the properties of the subject are put back as they are
      have hsame : ∀ v, propsOf (nodeProps.insert subject (propsOf nodeProps subject)) v =
          propsOf nodeProps v := by
        intro v
        rw [propsOf, OrderedMap.get_insert]
        by_cases hv : v = subject
        · rw [if_pos hv, Option.getD_some, hv]
        · rw [if_neg hv]
          rfl
      refine ⟨⟨left, ?_, hagree, Or.inl hfound⟩, ?_, ?_⟩
      · rw [kept, hsame, hfound]
      · intro v other _
        rw [kept, hsame, kept]
      · intro v hv
        rw [OrderedMap.get_insert] at hv
        by_cases heq : v = subject
        · exact Or.inl heq
        · rw [if_neg heq] at hv
          exact Or.inr hv
    · simp only [hequiv] at h
      cases h

theorem PropsOf.insert (h : PropsOf ts nodeProps) (hread : t.property? = some (name, s))
    (hinsert : insertStringPropertyConstraint nodeProps t.subject name s = .ok nodeProps') :
    PropsOf (ts ++ [t]) nodeProps' := by
  obtain ⟨⟨left, hleft, hagree, hbefore⟩, hframe, hkeys⟩ :=
    insertStringPropertyConstraint_spec hinsert
  refine ⟨fun v other value hvalue ↦ ?_, fun u hu other r hu' ↦ ?_, fun v hv ↦ ?_⟩
  · by_cases heq : v = t.subject ∧ other = name
    · obtain ⟨rfl, rfl⟩ := heq
      obtain rfl := Option.some.inj (hleft.symm.trans hvalue)
      rcases hbefore with hbefore | ⟨-, rfl⟩
      · obtain ⟨u, hu, hrest⟩ := h.stored _ _ _ hbefore
        exact ⟨u, List.mem_append_left _ hu, hrest⟩
      · exact ⟨t, List.mem_append_right _ (List.mem_singleton_self t), rfl, left, hread, rfl⟩
    · rw [hframe v other heq] at hvalue
      obtain ⟨u, hu, hrest⟩ := h.stored _ _ _ hvalue
      exact ⟨u, List.mem_append_left _ hu, hrest⟩
  · rcases List.mem_append.mp hu with hu | hu
    · obtain ⟨old, hold, hagrees⟩ := h.agrees u hu other r hu'
      by_cases heq : u.subject = t.subject ∧ other = name
      · obtain ⟨hsubject, rfl⟩ := heq
        rw [hsubject] at hold ⊢
        -- the value that is there stays
        rcases hbefore with hbefore | ⟨hnone, -⟩
        · rw [hold] at hbefore
          obtain rfl := ConditionValue.string.inj (Option.some.inj hbefore)
          exact ⟨old, hleft, hagrees⟩
        · rw [hold] at hnone
          cases hnone
      · exact ⟨old, (hframe _ _ heq).trans hold, hagrees⟩
    · obtain rfl := List.mem_singleton.mp hu
      obtain ⟨rfl, rfl⟩ := Prod.mk.inj (Option.some.inj (hread.symm.trans hu'))
      exact ⟨left, hleft, hagree⟩
  · rcases hkeys v hv with rfl | hv
    · exact ⟨t, List.mem_append_right _ (List.mem_singleton_self t), rfl, by rw [hread]; rfl⟩
    · obtain ⟨u, hu, hrest⟩ := h.keyed v hv
      exact ⟨u, List.mem_append_left _ hu, hrest⟩

theorem insertStringPropertyConstraint_ok {subject : String}
    (h : ∀ value, kept nodeProps subject name = some value →
      ∃ left, value = .string left ∧ Agree name left s) :
    ∃ nodeProps', insertStringPropertyConstraint nodeProps subject name s = .ok nodeProps' := by
  rw [insertStringPropertyConstraint]
  rcases hfound : (propsOf nodeProps subject).get name with - | existing
  · exact ⟨_, rfl⟩
  · have hequiv := equivalent_iff.mpr (h existing hfound)
    refine ⟨nodeProps.insert subject (propsOf nodeProps subject), ?_⟩
    simp only [hequiv, if_true]

end Props

/-! ## The loop -/

/-- What has been collected is what the triples say. -/
structure Describes (ts : List Triple) (s : Collected) : Prop where
  wellFormed : ∀ t ∈ ts, t.WellFormed
  substrate : KindsOf isSubstrate ts s.substrateKinds
  granular : KindsOf (fun kind ↦ !isSubstrate kind) ts s.granularKinds
  props : PropsOf ts s.nodeProps
  edges : s.edges = ts.filterMap Triple.edge?
  conditions : s.conditions = ts.filterMap Triple.number?

/-- No two triples contradict each other. -/
structure Consistent (ts : List Triple) : Prop where
  wellFormed : ∀ t ∈ ts, t.WellFormed
  kinds : ∀ t ∈ ts, ∀ u ∈ ts, t.subject = u.subject → ∀ k l, t.kind? = some k → u.kind? = some l →
    isSubstrate k = isSubstrate l → k = l
  properties : ∀ t ∈ ts, ∀ u ∈ ts, t.subject = u.subject → ∀ name v w,
    t.property? = some (name, v) → u.property? = some (name, w) → Agree name v w

section Loop

variable {ts ts' : List Triple} {t : Triple} {s s' : Collected}

theorem Consistent.perm (h : Consistent ts) (hperm : ts.Perm ts') : Consistent ts' := by
  refine ⟨fun t ht ↦ h.wellFormed t (hperm.mem_iff.mpr ht), ?_, ?_⟩
  · intro t ht u hu
    exact h.kinds t (hperm.mem_iff.mpr ht) u (hperm.mem_iff.mpr hu)
  · intro t ht u hu
    exact h.properties t (hperm.mem_iff.mpr ht) u (hperm.mem_iff.mpr hu)

theorem KindsOf.functional {level : String → Bool} {kinds : OrderedMap String String}
    (h : KindsOf level ts kinds) {t u : Triple} (ht : t ∈ ts) (hu : u ∈ ts)
    (hsubject : t.subject = u.subject) {k l : String} (hk : t.kind? = some k)
    (hl : u.kind? = some l) (hlevel : level k = true) (hlevel' : level l = true) : k = l := by
  have hfirst := (h t.subject k).mpr ⟨t, ht, rfl, hk, hlevel⟩
  have hsecond := (h t.subject l).mpr ⟨u, hu, hsubject.symm, hl, hlevel'⟩
  exact Option.some.inj (hfirst.symm.trans hsecond)

/-- What can be collected is consistent: one map holds the constraints of both triples. -/
theorem Describes.consistent (h : Describes ts s) : Consistent ts := by
  refine ⟨h.wellFormed, ?_, ?_⟩
  · intro t ht u hu hsubject k l hk hl hlevel
    rcases hsubstrate : isSubstrate k with - | -
    · exact h.granular.functional ht hu hsubject hk hl (by rw [hsubstrate]; rfl)
        (by rw [← hlevel, hsubstrate]; rfl)
    · exact h.substrate.functional ht hu hsubject hk hl hsubstrate (hlevel ▸ hsubstrate)
  · intro t ht u hu hsubject name v w hv hw
    obtain ⟨left, hleft, hagree⟩ := h.props.agrees t ht name v hv
    obtain ⟨left', hleft', hagree'⟩ := h.props.agrees u hu name w hw
    rw [hsubject, hleft'] at hleft
    obtain rfl := ConditionValue.string.inj (Option.some.inj hleft)
    exact hagree.symm.trans hagree'

theorem describes_start : Describes [] Collected.start := by
  have hkinds : ∀ level, KindsOf level [] OrderedMap.empty := by
    intro level v kind
    simp
  refine ⟨by simp, hkinds _, hkinds _, ⟨?_, by simp, ?_⟩, rfl, rfl⟩
  · intro v name value hvalue
    cases hvalue
  · intro v hv
    cases hv

/-- Every triple that is well formed is read in one way. -/
theorem Triple.WellFormed.readings (h : t.WellFormed) :
    (∃ kind, t.kind? = some kind ∧ t.edge? = none ∧ t.property? = none ∧ t.number? = none) ∨
      (∃ e, t.edge? = some e ∧ t.kind? = none ∧ t.property? = none ∧ t.number? = none) ∨
      (∃ p, t.property? = some p ∧ t.kind? = none ∧ t.edge? = none ∧ t.number? = none) ∨
      ∃ c, t.number? = some c ∧ t.kind? = none ∧ t.edge? = none ∧ t.property? = none := by
  obtain ⟨subject, predicate, object⟩ := t
  rcases predicate with - | ⟨name, minHops, maxHops⟩
  · obtain ⟨kind, rfl⟩ := h
    exact Or.inl ⟨kind, rfl, rfl, rfl, rfl⟩
  · rcases object with target | value | value | value
    · exact Or.inr (Or.inl ⟨_, rfl, rfl, rfl, rfl⟩)
    · exact Or.inr (Or.inr (Or.inl ⟨_, rfl, rfl, rfl, rfl⟩))
    · exact Or.inr (Or.inr (Or.inl ⟨_, rfl, rfl, rfl, rfl⟩))
    · exact Or.inr (Or.inr (Or.inr ⟨_, rfl, rfl, rfl, rfl⟩))

theorem wellFormed_of_addTriple (h : addTriple s t = .ok s') : t.WellFormed := by
  obtain ⟨subject, predicate, object⟩ := t
  rcases predicate with - | ⟨name, minHops, maxHops⟩
  · rcases object with target | kind | value | value
    · exact absurd h (by simp [addTriple])
    · exact ⟨kind, rfl⟩
    · exact absurd h (by simp [addTriple])
    · exact absurd h (by simp [addTriple])
  · by_cases hhops : minHops ≠ 1 ∨ maxHops ≠ 1
    · rcases object with target | value | value | value
      · trivial
      all_goals
        rw [addTriple] at h
        simp only [if_pos hhops] at h
        cases h
    · obtain ⟨hmin, hmax⟩ : minHops = 1 ∧ maxHops = 1 := by simpa using hhops
      rcases object with target | value | value | value
      · trivial
      all_goals exact ⟨hmin, hmax⟩

theorem addTriple_kind {kind : String} (h : t.kind? = some kind) : addTriple s t =
    if isSubstrate kind then
      (insertKind s.substrateKinds t.subject kind).map fun kinds ↦
        { s with substrateKinds := kinds }
    else
      (insertKind s.granularKinds t.subject kind).map fun kinds ↦
        { s with granularKinds := kinds } := by
  obtain ⟨subject, predicate, object⟩ := t
  rcases predicate with - | ⟨name, minHops, maxHops⟩
  · rcases object with target | kind | value | value <;> cases h
    rfl
  · rcases object with target | kind | value | value <;> cases h

theorem addTriple_edge {e : RelationEdge} (h : t.edge? = some e) :
    addTriple s t = .ok { s with edges := s.edges ++ [e] } := by
  obtain ⟨subject, predicate, object⟩ := t
  rcases predicate with - | ⟨name, minHops, maxHops⟩
  · rcases object with target | kind | value | value <;> cases h
  · rcases object with target | kind | value | value <;> cases h
    rfl

theorem addTriple_property {name value : String} (hwf : t.WellFormed)
    (h : t.property? = some (name, value)) : addTriple s t =
      (insertStringPropertyConstraint s.nodeProps t.subject name value).map fun nodeProps ↦
        { s with nodeProps } := by
  obtain ⟨subject, predicate, object⟩ := t
  rcases predicate with - | ⟨name, minHops, maxHops⟩
  · rcases object with target | kind | value | value <;> cases h
  · rcases object with target | kind | value | value <;> cases h
    all_goals
      obtain ⟨rfl, rfl⟩ := hwf
      rfl

theorem addTriple_number {c : Condition} (hwf : t.WellFormed) (h : t.number? = some c) :
    addTriple s t = .ok { s with conditions := s.conditions ++ [c] } := by
  obtain ⟨subject, predicate, object⟩ := t
  rcases predicate with - | ⟨name, minHops, maxHops⟩
  · rcases object with target | kind | value | value <;> cases h
  · rcases object with target | kind | value | value <;> cases h
    obtain ⟨rfl, rfl⟩ := hwf
    rfl

/-- A triple with none of a reading leaves what was read of it. -/
theorem filterMap_append_of_none {β : Type} {f : Triple → Option β} (h : f t = none) :
    ts.filterMap f = (ts ++ [t]).filterMap f := by
  simp [h]

theorem filterMap_append_of_some {β : Type} {f : Triple → Option β} {b : β} (h : f t = some b) :
    ts.filterMap f ++ [b] = (ts ++ [t]).filterMap f := by
  simp [h]

theorem KindsOf.skip_none {level : String → Bool} {kinds : OrderedMap String String}
    (h : KindsOf level ts kinds) (hnone : t.kind? = none) : KindsOf level (ts ++ [t]) kinds := by
  apply h.skip
  intro kind hkind
  rw [hnone] at hkind
  cases hkind

/-- One turn keeps the description, whichever reading the triple has. -/
theorem Describes.step (h : Describes ts s) (hadd : addTriple s t = .ok s') :
    Describes (ts ++ [t]) s' := by
  have hwf := wellFormed_of_addTriple hadd
  have hall : ∀ u ∈ ts ++ [t], u.WellFormed := by
    intro u hu
    rcases List.mem_append.mp hu with hu | hu
    · exact h.wellFormed u hu
    · exact List.mem_singleton.mp hu ▸ hwf
  rcases hwf.readings with ⟨kind, hkind, hedge, hprop, hnumber⟩ |
    ⟨e, hedge, hkind, hprop, hnumber⟩ | ⟨⟨name, value⟩, hprop, hkind, hedge, hnumber⟩ |
    ⟨c, hnumber, hkind, hedge, hprop⟩
  · have hedges := h.edges.trans (filterMap_append_of_none hedge)
    have hconditions := h.conditions.trans (filterMap_append_of_none hnumber)
    have honly : ∀ other, t.kind? = some other → other = kind := fun other hother ↦
      Option.some.inj (hother.symm.trans hkind)
    rw [addTriple_kind hkind] at hadd
    -- a kind goes into one of two maps, and the other one does not see it
    by_cases hlevel : isSubstrate kind = true
    · rw [if_pos hlevel] at hadd
      obtain ⟨kinds, hinsert, rfl⟩ := map_eq_ok.mp hadd
      refine ⟨hall, h.substrate.insert hkind hlevel hinsert, h.granular.skip ?_,
        h.props.skip hprop, hedges, hconditions⟩
      intro other hother
      rw [honly other hother, hlevel]
      rfl
    · rw [if_neg hlevel] at hadd
      obtain ⟨kinds, hinsert, rfl⟩ := map_eq_ok.mp hadd
      have hgranular : (!isSubstrate kind) = true := by simpa using hlevel
      refine ⟨hall, h.substrate.skip ?_, h.granular.insert hkind hgranular hinsert,
        h.props.skip hprop, hedges, hconditions⟩
      intro other hother
      rw [honly other hother]
      simpa using hlevel
  · rw [addTriple_edge hedge] at hadd
    obtain rfl := Except.ok.inj hadd
    refine ⟨hall, h.substrate.skip_none hkind, h.granular.skip_none hkind, h.props.skip hprop, ?_,
      h.conditions.trans (filterMap_append_of_none hnumber)⟩
    rw [← filterMap_append_of_some hedge, ← h.edges]
  · rw [addTriple_property hwf hprop] at hadd
    obtain ⟨nodeProps, hinsert, rfl⟩ := map_eq_ok.mp hadd
    exact ⟨hall, h.substrate.skip_none hkind, h.granular.skip_none hkind,
      h.props.insert hprop hinsert, h.edges.trans (filterMap_append_of_none hedge),
      h.conditions.trans (filterMap_append_of_none hnumber)⟩
  · rw [addTriple_number hwf hnumber] at hadd
    obtain rfl := Except.ok.inj hadd
    refine ⟨hall, h.substrate.skip_none hkind, h.granular.skip_none hkind, h.props.skip hprop,
      h.edges.trans (filterMap_append_of_none hedge), ?_⟩
    rw [← filterMap_append_of_some hnumber, ← h.conditions]

/-- A triple that contradicts none before it is taken. -/
theorem Describes.progress (h : Describes ts s) (hconsistent : Consistent (ts ++ [t])) :
    ∃ s', addTriple s t = .ok s' := by
  have hlast : t ∈ ts ++ [t] := List.mem_append_right _ (List.mem_singleton_self t)
  have hwf := hconsistent.wellFormed t hlast
  rcases hwf.readings with ⟨kind, hkind, -⟩ | ⟨e, hedge, -⟩ | ⟨⟨name, value⟩, hprop, -⟩ |
    ⟨c, hnumber, -⟩
  · have hagrees : ∀ level (kinds : OrderedMap String String), KindsOf level ts kinds →
        (∀ k, level k = true → isSubstrate k = isSubstrate kind) →
        ∀ other, kinds.get t.subject = some other → other = kind := by
      intro level kinds hkinds hlevel other hother
      obtain ⟨u, hu, hsubject, hread, hother⟩ := (hkinds t.subject other).mp hother
      exact hconsistent.kinds u (List.mem_append_left _ hu) t hlast hsubject other kind hread hkind
        (hlevel other hother)
    rw [addTriple_kind hkind]
    by_cases hlevel : isSubstrate kind = true
    · have hsame := hagrees _ _ h.substrate fun k hk ↦ hk.trans hlevel.symm
      obtain ⟨kinds, hinsert⟩ := insertKind_ok hsame
      exact ⟨_, by rw [if_pos hlevel, hinsert]; rfl⟩
    · have hsame := hagrees _ _ h.granular fun k hk ↦ by
        rw [Bool.eq_false_iff.mpr hlevel]
        simpa using hk
      obtain ⟨kinds, hinsert⟩ := insertKind_ok hsame
      exact ⟨_, by rw [if_neg hlevel, hinsert]; rfl⟩
  · exact ⟨_, addTriple_edge hedge⟩
  · have hstored : ∀ stored, kept s.nodeProps t.subject name = some stored →
        ∃ left, stored = .string left ∧ Agree name left value := by
      intro stored hkept
      obtain ⟨u, hu, hsubject, left, hread, rfl⟩ := h.props.stored _ _ _ hkept
      exact ⟨left, rfl, hconsistent.properties u (List.mem_append_left _ hu) t hlast hsubject name
        left value hread hprop⟩
    obtain ⟨nodeProps, hinsert⟩ := insertStringPropertyConstraint_ok hstored
    exact ⟨_, by rw [addTriple_property hwf hprop, hinsert]; rfl⟩
  · exact ⟨_, addTriple_number hwf hnumber⟩

theorem collect_concat (ts : List Triple) (t : Triple) :
    collect (ts ++ [t]) = collect ts >>= fun s ↦ addTriple s t := by
  rw [collect, List.foldlM_append]
  exact bind_congr fun s ↦ by rw [List.foldlM_cons]; exact bind_pure _

/-- Every run of the loop that succeeds collects what the triples say. -/
theorem describes_of_collect (h : collect ts = .ok s) : Describes ts s := by
  induction ts using List.reverseRecOn generalizing s with
  | nil =>
    obtain rfl := Except.ok.inj h
    exact describes_start
  | append_singleton ts t ih =>
    rw [collect_concat] at h
    obtain ⟨before, hbefore, hadd⟩ := bind_eq_ok.mp h
    exact (ih hbefore).step hadd

/-- The loop succeeds on triples that do not contradict each other. -/
theorem Consistent.collect_ok (h : Consistent ts) : ∃ s, collect ts = .ok s := by
  induction ts using List.reverseRecOn with
  | nil => exact ⟨_, rfl⟩
  | append_singleton ts t ih =>
    have hbefore : Consistent ts := by
      refine ⟨fun u hu ↦ h.wellFormed u (List.mem_append_left _ hu), ?_, ?_⟩
      · intro u hu w hw
        exact h.kinds u (List.mem_append_left _ hu) w (List.mem_append_left _ hw)
      · intro u hu w hw
        exact h.properties u (List.mem_append_left _ hu) w (List.mem_append_left _ hw)
    obtain ⟨s, hs⟩ := ih hbefore
    obtain ⟨s', hs'⟩ := (describes_of_collect hs).progress h
    exact ⟨s', by rw [collect_concat, hs]; exact hs'⟩

theorem consistent_iff : Consistent ts ↔ ∃ s, collect ts = .ok s :=
  ⟨Consistent.collect_ok, fun ⟨_, hs⟩ ↦ (describes_of_collect hs).consistent⟩

end Loop

end Sparql

end Query

end Khive
