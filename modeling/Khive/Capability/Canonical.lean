import Khive.Capability.Codec

/-!
# The wire format is canonical

Every writer of the durable format is inverse to its reader, type by type from the integers up to
a whole grant. It follows that `decode` undoes `encode`, and that `decode` accepts nothing but what
`encode` returns.
-/

namespace Khive

namespace Capability

open Binary

/-- The writer and the reader of the type are inverse to each other. -/
class LawfulWire (α : Type) [Wire α] : Prop where
  inverse : Inverse wireLimits (write : α → Put EnvelopeError Unit) read

/-! ## Integers -/

theorem lawful_integer {α : Type} {width : Nat} {toNat : α → Nat} {ofNat : Nat → α}
    (hlt : ∀ v, toNat v < 256 ^ width) (hofNat : ∀ v, ofNat (toNat v) = v)
    (htoNat : ∀ n, n < 256 ^ width → toNat (ofNat n) = n) :
    @LawfulWire α (.integer width toNat ofNat) := by
  refine @LawfulWire.mk α (.integer width toNat ofNat) (inverse_fixed ?_ ?_ ?_)
  · exact fun v ↦ length_bigEndian width (toNat v)
  · intro v
    rw [bigEndianValue_bigEndian (hlt v), hofNat]
  · rintro b rfl
    rw [htoNat _ (bigEndianValue_lt b), bigEndian_bigEndianValue]

instance : LawfulWire UInt8 :=
  lawful_integer (fun v ↦ v.toNat_lt) (fun _ ↦ UInt8.ofNat_toNat) fun _ hn ↦
    UInt8.toNat_ofNat_of_lt' hn

instance : LawfulWire UInt16 :=
  lawful_integer (fun v ↦ v.toNat_lt) (fun _ ↦ UInt16.ofNat_toNat) fun _ hn ↦
    UInt16.toNat_ofNat_of_lt' hn

instance : LawfulWire UInt32 :=
  lawful_integer (fun v ↦ v.toNat_lt) (fun _ ↦ UInt32.ofNat_toNat) fun _ hn ↦
    UInt32.toNat_ofNat_of_lt' hn

instance : LawfulWire UInt64 :=
  lawful_integer (fun v ↦ v.toNat_lt) (fun _ ↦ UInt64.ofNat_toNat) fun _ hn ↦
    UInt64.toNat_ofNat_of_lt' hn

instance : LawfulWire UInt128 :=
  lawful_integer (fun v ↦ v.isLt) (fun v ↦ Fin.ofNat_val_eq_self v) fun _ hn ↦ Nat.mod_eq_of_lt hn

instance : LawfulWire Int64 := by
  refine @lawful_integer Int64 8 (fun v ↦ v.toUInt64.toNat)
    (fun n ↦ (UInt64.ofNat n).toInt64) ?_ ?_ ?_
  · exact fun v ↦ v.toUInt64.toNat_lt
  · intro v
    rw [UInt64.ofNat_toNat, Int64.toInt64_toUInt64]
  · intro n hn
    rw [UInt64.toUInt64_toInt64, UInt64.toNat_ofNat_of_lt' hn]

/-! ## Enumerations -/

/-- It suffices to look at one tag at a time. -/
theorem lawful_tagged {α : Type} {w : α → UInt8 × Put EnvelopeError Unit}
    {r : UInt8 → Get EnvelopeError α}
    (h : ∀ t, InverseOn wireLimits (fun v ↦ (w v).1 = t) (fun v ↦ (w v).2) (r t)) :
    @LawfulWire α (.tagged w r) := by
  refine @LawfulWire.mk α (.tagged w r) ?_
  refine InverseOn.bind (w := fun v ↦ (w v).2) LawfulWire.inverse (fun v ↦ (w v).1) fun t ↦ ?_
  simpa using h t

theorem lawful_unitEnum {α : Type} {tag : α → UInt8} {variants : List α}
    (hmem : ∀ v, v ∈ variants) (hinj : Function.Injective tag) :
    @LawfulWire α (.unitEnum tag variants) := by
  refine lawful_tagged fun t ↦ ?_
  cases hfind : variants.find? fun v ↦ tag v = t with
  | some v =>
    obtain rfl : tag v = t := by simpa using List.find?_some hfind
    exact inverseOn_pure (fun v' ↦ hinj.eq_iff) rfl
  | none =>
    refine inverseOn_throw badTag fun v hv ↦ ?_
    exact absurd hv (by simpa using List.find?_eq_none.mp hfind v (hmem v))

instance : LawfulWire Bool := lawful_unitEnum (by decide) (by decide)

/-- A tag whose variant carries a payload. -/
theorem inverseOn_payload {α β : Type} [Wire β] [LawfulWire β] {S : α → Prop}
    {w : α → Put EnvelopeError Unit} (make : β → α) (hS : ∀ v, S v → ∃ p, make p = v)
    (hmake : ∀ p, S (make p) ∧ w (make p) = write p) : InverseOn wireLimits S w (make <$> read) :=
  LawfulWire.inverse.map make (fun v hv ↦ (hS v hv).imp fun _ hp ↦ ⟨trivial, hp⟩)
    fun p _ ↦ hmake p

instance {α : Type} [Wire α] [LawfulWire α] : LawfulWire (Option α) := by
  refine lawful_tagged fun t ↦ ?_
  split
  · exact inverseOn_pure (fun v ↦ by cases v <;> simp) rfl
  · exact inverseOn_payload some (fun v hv ↦ by cases v <;> simp_all) (by simp)
  · exact inverseOn_throw badTag fun v hv ↦ by cases v <;> simp_all

/-! ## Texts, byte strings and collections -/

theorem toNat_ofNat_length {n maximum : Nat} (h : n ≤ maximum) (hmax : maximum < 2 ^ 32) :
    (UInt32.ofNat n).toNat = n :=
  UInt32.toNat_ofNat_of_lt' (h.trans_lt hmax)

/-- A number of items up to a bound, and then the items. -/
theorem inverse_counted {α : Type} {field : String} {maximum : Nat} (hmax : maximum < 2 ^ 32)
    {w : List α → Put EnvelopeError Unit} {r : Nat → Get EnvelopeError (List α)}
    (h : ∀ n, InverseOn wireLimits (fun vs : List α ↦ vs.length = n) w (r n)) :
    Inverse wireLimits
      (fun vs ↦ do
        bound field vs.length maximum
        write (UInt32.ofNat vs.length)
        w vs)
      (do
        let length ← (read : Get EnvelopeError UInt32)
        bound field length.toNat maximum
        r length.toNat) := by
  refine InverseOn.check (S := fun vs : List α ↦ vs.length ≤ maximum) ?_ fun vs ↦ bound_eq_ok
  refine InverseOn.bind (w := w) LawfulWire.inverse (fun vs ↦ UInt32.ofNat vs.length) fun k ↦ ?_
  -- within the bound the count is not truncated
  have hkey : ∀ vs : List α, vs.length ≤ maximum ∧ UInt32.ofNat vs.length = k →
      vs.length = k.toNat := by
    rintro vs ⟨hle, rfl⟩
    exact (toNat_ofNat_length hle hmax).symm
  refine InverseOn.checkRead (fun hpass ↦ ?_) fun vs hvs ↦ ?_
  · have hk : k.toNat ≤ maximum := bound_eq_ok.mp hpass
    have hitems := (h k.toNat).map (S := fun vs ↦ vs.length ≤ maximum ∧ UInt32.ofNat vs.length = k)
      (w := w) id (fun vs hvs ↦ ⟨vs, hkey vs hvs, rfl⟩) fun vs hvs ↦ ⟨⟨hvs.trans_le hk, ?_⟩, rfl⟩
    · simpa using hitems
    · rw [id, hvs, UInt32.ofNat_toNat]
  · rw [bound_eq_ok, ← hkey vs hvs]
    exact hvs.1

theorem inverse_blob : Inverse wireLimits putBlob getBlob :=
  inverse_counted (by decide) inverseOn_take

instance : LawfulWire String where
  inverse := by
    let parse (bytes : Bytes) : EnvelopeResult String :=
      match utf8Text bytes with
      | some text => .ok (String.ofList text)
      | none => .error (.reject "invalid UTF-8")
    have hread : (read : Get EnvelopeError String) = getBlob >>= fun b ↦ liftM (parse b) := by
      refine bind_congr fun b ↦ ?_
      simp only [parse]
      cases utf8Text b <;> rfl
    rw [hread]
    refine inverse_blob.filterMap parse (fun s ↦ utf8Bytes s.toList) (fun s _ ↦ ⟨trivial, ?_⟩)
      fun b s _ h ↦ ⟨trivial, ?_⟩
    · simp [parse, utf8Text_utf8Bytes]
    · simp only [parse] at h
      split at h
      · rename_i text htext
        obtain rfl := Except.ok.inj h
        rw [String.toList_ofList, utf8Bytes_of_utf8Text htext]
      · cases h

instance : LawfulWire ExactBytes where
  inverse := inverse_blob.map ExactBytes.mk (fun v _ ↦ ⟨v.bytes, trivial, rfl⟩)
    fun _ _ ↦ ⟨trivial, rfl⟩

instance {α : Type} [Wire α] [LawfulWire α] : LawfulWire (List α) where
  inverse := inverse_counted (by decide) (Inverse.many LawfulWire.inverse)

instance : LawfulWire (FixedBytes 32) where
  inverse := by
    let parse (bytes : Bytes) : EnvelopeResult (FixedBytes 32) :=
      if h : bytes.length = 32 then .ok ⟨bytes, h⟩ else .error (.reject "digest width")
    have hread : (read : Get EnvelopeError (FixedBytes 32)) =
        take wireLimits 32 >>= fun b ↦ liftM (parse b) := by
      refine bind_congr fun b ↦ ?_
      simp only [parse]
      split <;> rfl
    rw [hread]
    refine (inverseOn_take 32).filterMap parse Subtype.val (fun v _ ↦ ⟨v.property, ?_⟩)
      fun b v hb h ↦ ⟨trivial, ?_⟩
    · simp [parse, v.property]
    · simp only [parse, hb, dite_true] at h
      rw [← Except.ok.inj h]

instance : LawfulWire ContractDigest := by
  refine lawful_tagged fun t ↦ ?_
  by_cases ht : t = 1
  · subst ht
    exact inverseOn_payload ContractDigest.mk (fun v _ ↦ ⟨v.bytes, rfl⟩) fun _ ↦ ⟨rfl, rfl⟩
  · rw [if_pos ht]
    exact inverseOn_throw badTag fun v hv ↦ ht hv.symm

/-! ## Structures -/

/-- Two fields, one after the other. -/
instance {α β : Type} [Wire α] [Wire β] : Wire (α × β) where
  write p := do write p.1; write p.2
  read := read >>= fun a ↦ (fun b ↦ (a, b)) <$> read

instance {α β : Type} [Wire α] [Wire β] [LawfulWire α] [LawfulWire β] : LawfulWire (α × β) where
  inverse := Inverse.pair LawfulWire.inverse LawfulWire.inverse

theorem write_prod {α β : Type} [Wire α] [Wire β] (p : α × β) :
    (write p : Put EnvelopeError Unit) = (do write p.1; write p.2) := rfl

theorem map_read_prod {α β γ : Type} [Wire α] [Wire β] (make : α × β → γ) :
    (make <$> read : Get EnvelopeError γ) = read >>= fun a ↦ (fun b ↦ make (a, b)) <$> read := by
  change make <$> (read >>= fun a ↦ (fun b ↦ (a, b)) <$> read) = _
  simp

/-- A structure is written and read as the tuple of its fields. -/
theorem lawful_fields {α β : Type} [Wire α] [Wire β] [LawfulWire β] (make : β → α) (fields : α → β)
    (hmake : ∀ v, make (fields v) = v)
    (hwrite : ∀ p, (write (make p) : Put EnvelopeError Unit) = write p)
    (hread : make <$> read = (read : Get EnvelopeError α)) : LawfulWire α where
  inverse := by
    rw [← hread]
    exact inverseOn_payload make (fun v _ ↦ ⟨fields v, hmake v⟩) fun p ↦ ⟨trivial, hwrite p⟩

/-- A variant with several fields. -/
theorem inverseOn_fields {α β : Type} [Wire β] [LawfulWire β] {S : α → Prop}
    {w : α → Put EnvelopeError Unit} {r : Get EnvelopeError α} (make : β → α)
    (hS : ∀ v, S v → ∃ p, make p = v) (hmake : ∀ p, S (make p) ∧ w (make p) = write p)
    (hread : make <$> read = r) : InverseOn wireLimits S w r :=
  hread ▸ inverseOn_payload make hS hmake

/-! ## Permissions -/

instance : LawfulWire Principal := by
  refine lawful_fields (fun p ↦ ⟨p.1, p.2.1, p.2.2⟩) (fun v ↦ (v.kind, v.id, v.leg)) (fun _ ↦ rfl)
    (fun p ↦ ?_) ?_
  · simp only [write_prod]
    rfl
  · simp only [map_read_prod]
    simp only [map_eq_pure_bind]
    rfl

instance : LawfulWire ContractRef := by
  refine lawful_fields (fun p ↦ ⟨p.1, p.2.1, p.2.2⟩)
    (fun v ↦ (v.name, v.version, v.digest))
    (fun _ ↦ rfl) (fun p ↦ ?_) ?_
  · simp only [write_prod]
    rfl
  · simp only [map_read_prod]
    simp only [map_eq_pure_bind]
    rfl

instance : LawfulWire RepositoryIdentity := by
  refine lawful_fields (fun p ↦ ⟨p.1, p.2⟩) (fun v ↦ (v.forge, v.immutableId)) (fun _ ↦ rfl)
    (fun p ↦ ?_) ?_
  · simp only [write_prod]
    rfl
  · simp only [map_read_prod]
    simp only [map_eq_pure_bind]
    rfl

instance : LawfulWire Validity := by
  refine lawful_fields (fun p ↦ ⟨p.1, p.2⟩) (fun v ↦ (v.notBefore, v.expiresAt)) (fun _ ↦ rfl)
    (fun p ↦ ?_) ?_
  · simp only [write_prod]
    rfl
  · simp only [map_read_prod]
    simp only [map_eq_pure_bind]
    rfl

instance : LawfulWire RunRef := by
  refine lawful_fields (fun p ↦ ⟨p⟩) (fun v ↦ v.id) (fun _ ↦ rfl)
    (fun p ↦ ?_) ?_
  · rfl
  · rw [map_eq_pure_bind]
    rfl

instance : LawfulWire PhaseVisit := by
  refine lawful_fields (fun p ↦ ⟨p.1, p.2⟩) (fun v ↦ (v.phaseId, v.round)) (fun _ ↦ rfl)
    (fun p ↦ ?_) ?_
  · simp only [write_prod]
    rfl
  · simp only [map_read_prod]
    simp only [map_eq_pure_bind]
    rfl

instance : LawfulWire ActionOccurrence := by
  refine lawful_fields (fun p ↦ ⟨p.1, p.2⟩) (fun v ↦ (v.visit, v.actionName)) (fun _ ↦ rfl)
    (fun p ↦ ?_) ?_
  · simp only [write_prod]
    rfl
  · simp only [map_read_prod]
    simp only [map_eq_pure_bind]
    rfl

instance : LawfulWire ArgumentValue := by
  refine lawful_tagged fun t ↦ ?_
  split
  · exact inverseOn_payload ArgumentValue.string (fun v hv ↦ by cases v <;> simp_all)
      fun _ ↦ ⟨rfl, rfl⟩
  · exact inverseOn_payload ArgumentValue.integer (fun v hv ↦ by cases v <;> simp_all)
      fun _ ↦ ⟨rfl, rfl⟩
  · exact inverseOn_payload ArgumentValue.duration (fun v hv ↦ by cases v <;> simp_all)
      fun _ ↦ ⟨rfl, rfl⟩
  · exact inverseOn_payload ArgumentValue.bool (fun v hv ↦ by cases v <;> simp_all)
      fun _ ↦ ⟨rfl, rfl⟩
  · exact inverseOn_payload ArgumentValue.word (fun v hv ↦ by cases v <;> simp_all)
      fun _ ↦ ⟨rfl, rfl⟩
  · exact inverseOn_throw badTag fun v hv ↦ by cases v <;> simp_all

instance : LawfulWire ArgumentBinding := by
  refine lawful_fields (fun p ↦ ⟨p.1, p.2⟩) (fun v ↦ (v.name, v.value)) (fun _ ↦ rfl)
    (fun p ↦ ?_) ?_
  · simp only [write_prod]
    rfl
  · simp only [map_read_prod]
    simp only [map_eq_pure_bind]
    rfl

instance : LawfulWire ExactArguments := by
  refine lawful_fields (fun p ↦ ⟨p⟩) (fun v ↦ v.bindings) (fun _ ↦ rfl)
    (fun p ↦ ?_) ?_
  · rfl
  · rw [map_eq_pure_bind]
    rfl

instance : LawfulWire ProducerClass :=
  lawful_unitEnum (fun v ↦ by cases v <;> decide) fun v v' h ↦ by cases v <;> cases v' <;> simp_all

instance : LawfulWire SubmissionChannel :=
  lawful_unitEnum (fun v ↦ by cases v <;> decide) fun v v' h ↦ by cases v <;> cases v' <;> simp_all

instance : LawfulWire SubjectSelector := by
  refine lawful_tagged fun t ↦ ?_
  split
  · exact inverseOn_payload SubjectSelector.exact (fun v hv ↦ by cases v <;> simp_all)
      fun _ ↦ ⟨rfl, rfl⟩
  · exact inverseOn_payload SubjectSelector.repositories (fun v hv ↦ by cases v <;> simp_all)
      fun _ ↦ ⟨rfl, rfl⟩
  · exact inverseOn_pure (fun v ↦ by cases v <;> simp) rfl
  · exact inverseOn_throw badTag fun v hv ↦ by cases v <;> simp_all

instance : LawfulWire SubjectScope := by
  refine lawful_fields (fun p ↦ ⟨p.1, p.2⟩) (fun v ↦ (v.kind, v.selector)) (fun _ ↦ rfl)
    (fun p ↦ ?_) ?_
  · simp only [write_prod]
    rfl
  · simp only [map_read_prod]
    simp only [map_eq_pure_bind]
    rfl

instance : LawfulWire SourceBinding := by
  refine lawful_fields (fun p ↦ ⟨p.1, p.2.1, p.2.2⟩)
    (fun v ↦ (v.contract, v.identities, v.arguments))
    (fun _ ↦ rfl) (fun p ↦ ?_) ?_
  · simp only [write_prod]
    rfl
  · simp only [map_read_prod]
    simp only [map_eq_pure_bind]
    rfl

instance : LawfulWire ReportingBinding := by
  refine lawful_tagged fun t ↦ ?_
  split
  · exact inverseOn_payload ReportingBinding.role (fun v hv ↦ by cases v <;> simp_all)
      fun _ ↦ ⟨rfl, rfl⟩
  · exact inverseOn_payload ReportingBinding.initiator (fun v hv ↦ by cases v <;> simp_all)
      fun _ ↦ ⟨rfl, rfl⟩
  · exact inverseOn_throw badTag fun v hv ↦ by cases v <;> simp_all

instance : LawfulWire SubmissionBinding := by
  refine lawful_tagged fun t ↦ ?_
  split
  · refine inverseOn_fields (fun p : RunRef × ContractDigest × String ↦
      SubmissionBinding.actorReport p.1 p.2.1 p.2.2) (fun v hv ↦ ?_) (fun p ↦ ⟨rfl, ?_⟩) ?_
    · cases v <;> simp_all
    · simp only [write_prod]
    · simp only [map_read_prod]
      simp only [map_eq_pure_bind]
  · refine inverseOn_fields (fun p : RunRef × ContractDigest × ActionOccurrence × ReportingBinding × ExactArguments ↦
      SubmissionBinding.actionResult p.1 p.2.1 p.2.2.1 p.2.2.2.1 p.2.2.2.2) (fun v hv ↦ ?_) (fun p ↦ ⟨rfl, ?_⟩) ?_
    · cases v <;> simp_all
    · simp only [write_prod]
    · simp only [map_read_prod]
      simp only [map_eq_pure_bind]
  · exact inverseOn_payload SubmissionBinding.instrument (fun v hv ↦ by cases v <;> simp_all)
      fun _ ↦ ⟨rfl, rfl⟩
  · refine inverseOn_fields (fun p : SourceBinding × ContractRef ↦
      SubmissionBinding.platformRelay p.1 p.2) (fun v hv ↦ ?_) (fun p ↦ ⟨rfl, ?_⟩) ?_
    · cases v <;> simp_all
    · simp only [write_prod]
    · simp only [map_read_prod]
      simp only [map_eq_pure_bind]
  · exact inverseOn_pure (fun v ↦ by cases v <;> simp) rfl
  · exact inverseOn_throw badTag fun v hv ↦ by cases v <;> simp_all

instance : LawfulWire ObservationPermission := by
  refine lawful_fields (fun p ↦ ⟨p.1, p.2.1, p.2.2.1, p.2.2.2.1, p.2.2.2.2.1, p.2.2.2.2.2⟩)
    (fun v ↦ (v.policyDomain, v.entry, v.producerClass, v.channel, v.subject, v.binding))
    (fun _ ↦ rfl) (fun p ↦ ?_) ?_
  · simp only [write_prod]
    rfl
  · simp only [map_read_prod]
    simp only [map_eq_pure_bind]
    rfl

instance : LawfulWire ObservationScope := by
  refine lawful_fields (fun p ↦ ⟨p⟩) (fun v ↦ v.permissions) (fun _ ↦ rfl)
    (fun p ↦ ?_) ?_
  · rfl
  · rw [map_eq_pure_bind]
    rfl

/-! ## Rights -/

instance : LawfulWire AdminTarget := by
  refine lawful_tagged fun t ↦ ?_
  split
  · exact inverseOn_pure (fun v ↦ by cases v <;> simp) rfl
  · exact inverseOn_pure (fun v ↦ by cases v <;> simp) rfl
  · exact inverseOn_pure (fun v ↦ by cases v <;> simp) rfl
  · exact inverseOn_pure (fun v ↦ by cases v <;> simp) rfl
  · exact inverseOn_pure (fun v ↦ by cases v <;> simp) rfl
  · exact inverseOn_payload AdminTarget.recordObservation (fun v hv ↦ by cases v <;> simp_all)
      fun _ ↦ ⟨rfl, rfl⟩
  · exact inverseOn_throw badTag fun v hv ↦ by cases v <;> simp_all

instance : LawfulWire AdminScope := by
  refine lawful_fields (fun p ↦ ⟨p.1, p.2⟩) (fun v ↦ (v.namespace, v.target)) (fun _ ↦ rfl)
    (fun p ↦ ?_) ?_
  · simp only [write_prod]
    rfl
  · simp only [map_read_prod]
    simp only [map_eq_pure_bind]
    rfl

instance : LawfulWire RightSpec := by
  refine lawful_tagged fun t ↦ ?_
  split
  · exact inverseOn_pure (fun v ↦ by cases v <;> simp) rfl
  · exact inverseOn_pure (fun v ↦ by cases v <;> simp) rfl
  · exact inverseOn_pure (fun v ↦ by cases v <;> simp) rfl
  · exact inverseOn_pure (fun v ↦ by cases v <;> simp) rfl
  · exact inverseOn_pure (fun v ↦ by cases v <;> simp) rfl
  · exact inverseOn_payload RightSpec.recordObservation (fun v hv ↦ by cases v <;> simp_all)
      fun _ ↦ ⟨rfl, rfl⟩
  · exact inverseOn_payload RightSpec.grantAdmin (fun v hv ↦ by cases v <;> simp_all)
      fun _ ↦ ⟨rfl, rfl⟩
  · exact inverseOn_throw badTag fun v hv ↦ by cases v <;> simp_all

/-! ## Grants -/

instance : LawfulWire KeyRef := by
  refine lawful_fields (fun p ↦ ⟨p.1, p.2⟩) (fun v ↦ (v.id, v.generation)) (fun _ ↦ rfl)
    (fun p ↦ ?_) ?_
  · simp only [write_prod]
    rfl
  · simp only [map_read_prod]
    simp only [map_eq_pure_bind]
    rfl

instance : LawfulWire IssuanceAssurance :=
  lawful_unitEnum (fun .configuredLocal ↦ by decide) fun .configuredLocal .configuredLocal _ ↦ rfl

instance : LawfulWire CreationOperation :=
  lawful_unitEnum (fun v ↦ by cases v <;> decide) fun v v' h ↦ by cases v <;> cases v' <;> simp_all

instance : LawfulWire EnvelopeDraft := by
  refine lawful_fields
    (fun p ↦ ⟨p.1, p.2.1, p.2.2.1, p.2.2.2.1, p.2.2.2.2.1, p.2.2.2.2.2.1, p.2.2.2.2.2.2.1,
      p.2.2.2.2.2.2.2.1, p.2.2.2.2.2.2.2.2.1, p.2.2.2.2.2.2.2.2.2.1,
      p.2.2.2.2.2.2.2.2.2.2.1, p.2.2.2.2.2.2.2.2.2.2.2.1, p.2.2.2.2.2.2.2.2.2.2.2.2.1,
      p.2.2.2.2.2.2.2.2.2.2.2.2.2.1, p.2.2.2.2.2.2.2.2.2.2.2.2.2.2.1,
      p.2.2.2.2.2.2.2.2.2.2.2.2.2.2.2⟩)
    (fun v ↦ (v.id, v.storeId, v.epochId, v.rootAnchorId, v.issuer, v.grantee, v.namespace,
      v.rights, v.validity, v.createdAt, v.assurance, v.operation, v.actionId,
      v.configurationSource, v.issuanceId, v.key))
    (fun _ ↦ rfl) (fun p ↦ ?_) ?_
  · simp only [write_prod]
    rfl
  · simp only [map_read_prod]
    simp only [map_eq_pure_bind]
    rfl

instance : LawfulWire IssuanceContext := by
  refine lawful_fields (fun p ↦ ⟨p.1, p.2.1, p.2.2.1, p.2.2.2.1, p.2.2.2.2⟩)
    (fun v ↦ (v.id, v.holder, v.holderPrincipal, v.target, v.namespace))
    (fun _ ↦ rfl) (fun p ↦ ?_) ?_
  · simp only [write_prod]
    rfl
  · simp only [map_read_prod]
    simp only [map_eq_pure_bind]
    rfl

instance : LawfulWire NativeCapability := by
  refine lawful_fields
    (fun p ↦ ⟨p.1, p.2.1, p.2.2.1, p.2.2.2.1, p.2.2.2.2.1, p.2.2.2.2.2.1, p.2.2.2.2.2.2⟩)
    (fun v ↦ (v.id, v.holder, v.target, v.rights, v.parent, v.epoch, v.signature))
    (fun _ ↦ rfl) (fun p ↦ ?_) ?_
  · simp only [write_prod]
    rfl
  · simp only [map_read_prod]
    simp only [map_eq_pure_bind]
    rfl

instance : LawfulWire ParentBinding := by
  refine lawful_tagged fun t ↦ ?_
  split
  · refine inverseOn_fields (fun p : Id128 × Id128 × UInt128 × UInt128 × ContractDigest ↦
      ParentBinding.grant p.1 p.2.1 p.2.2.1 p.2.2.2.1 p.2.2.2.2) (fun v hv ↦ ?_) (fun p ↦ ⟨rfl, ?_⟩) ?_
    · cases v <;> simp_all
    · simp only [write_prod]
    · simp only [map_read_prod]
      simp only [map_eq_pure_bind]
  · refine inverseOn_fields (fun p : String × ContractDigest × UInt128 ↦
      ParentBinding.bootstrapSlot p.1 p.2.1 p.2.2) (fun v hv ↦ ?_) (fun p ↦ ⟨rfl, ?_⟩) ?_
    · cases v <;> simp_all
    · simp only [write_prod]
    · simp only [map_read_prod]
      simp only [map_eq_pure_bind]
  · exact inverseOn_throw badTag fun v hv ↦ by cases v <;> simp_all

instance : LawfulWire GrantBody := by
  refine lawful_fields
    (fun p ↦ ⟨p.1, p.2.1, p.2.2.1, p.2.2.2.1, p.2.2.2.2.1, p.2.2.2.2.2.1, p.2.2.2.2.2.2⟩)
    (fun v ↦ (v.schemaVersion, v.profileVersion, v.carrierVersion, v.grant, v.parent, v.context,
      v.native))
    (fun _ ↦ rfl) (fun p ↦ ?_) ?_
  · simp only [write_prod]
    rfl
  · simp only [map_read_prod]
    simp only [map_eq_pure_bind]
    rfl

/-! ## Whole values -/

theorem encodedLen_eq_ok {α : Type} [Wire α] {v : α} {b : Bytes}
    (h : Emits wireLimits (write v) b) : encodedLen v = .ok b.length := by
  rw [encodedLen, h.run_empty none]
  rfl

section Whole

variable {α : Type} [Wire α] [LawfulWire α]

/-- What an encoding is. -/
theorem encode_eq_ok {v : α} {b : Bytes} :
    encode v = .ok b ↔ Emits wireLimits (write v) b ∧ b.length ≤ maxRecordBytes := by
  constructor
  · intro h
    simp only [encode, encodedLen, bind_eq_ok, pure_eq_ok] at h
    obtain ⟨length, ⟨⟨u, counted⟩, hcount, rfl⟩, ⟨⟩, hbound, ⟨u', kept⟩, hkeep, hbytes⟩ := h
    obtain ⟨b', hb'⟩ := LawfulWire.inverse.regular v trivial _ _ (by decide) hkeep
    have hcounted := (hb'.run_empty none).symm.trans hcount
    have hkept := (hb'.run_empty (some [])).symm.trans hkeep
    obtain ⟨-, rfl⟩ : () = u ∧ (⟨none, b'.length⟩ : Encoder) = counted := by simpa using hcounted
    obtain ⟨-, rfl⟩ : () = u' ∧ (⟨some b', b'.length⟩ : Encoder) = kept := by simpa using hkept
    obtain rfl : b' = b := by simpa [pure_eq_ok] using hbytes
    exact ⟨hb', bound_eq_ok.mp hbound⟩
  · rintro ⟨hemits, hlength⟩
    have hbound : bound "encoded body" b.length maxRecordBytes = .ok () := bound_eq_ok.mpr hlength
    simp only [encode, encodedLen, hemits.run_empty, ok_bind, Option.map_none, Option.map_some,
      List.nil_append, pure_bind, hbound]
    rfl

/-- What an encoding decodes to. -/
theorem decode_eq_ok {v : α} {b : Bytes} :
    decode α b = .ok v ↔ Emits wireLimits (write v) b ∧ b.length ≤ maxRecordBytes := by
  have hvalid : b.length ≤ maxRecordBytes → (⟨b, 0⟩ : Decoder).Valid wireLimits :=
    fun h ↦ ⟨Nat.zero_le _, h.trans_lt (by decide)⟩
  constructor
  · intro h
    simp only [decode, bind_eq_ok] at h
    obtain ⟨⟨⟩, hbound, ⟨v', input⟩, hread, hend⟩ := h
    have hlength : b.length ≤ maxRecordBytes := bound_eq_ok.mp hbound
    obtain ⟨-, c, tail, hc, hrest, rfl⟩ := LawfulWire.inverse.forth (hvalid hlength) hread
    split at hend
    · cases hend
    · rename_i hcursor
      obtain rfl : v' = v := by simpa [pure_eq_ok] using hend
      -- the cursor stands at the end, so nothing is left
      have hsplit : b = c ++ tail := hrest
      have hsize : 0 + c.length = b.length := not_not.mp hcursor
      have htail : tail = [] := by
        rw [hsplit, List.length_append] at hsize
        exact List.length_eq_zero_iff.mp (by omega)
      rw [htail, List.append_nil] at hsplit
      exact ⟨hsplit ▸ hc, hlength⟩
  · rintro ⟨hemits, hlength⟩
    have hbound : bound "encoded body" b.length maxRecordBytes = .ok () := bound_eq_ok.mpr hlength
    have hrest : (⟨b, 0⟩ : Decoder).rest = b ++ [] := by simp [Decoder.rest]
    have hread := LawfulWire.inverse.back trivial hemits (hvalid hlength) hrest
    rw [decode, hbound, ok_bind, hread, ok_bind]
    simp [Decoder.advance, pure, Except.pure]

end Whole

/-- Values and byte strings of a format correspond to each other one to one. -/
structure CanonicalFormat (α : Type) [Wire α] : Prop where
  decode_encode : ∀ (v : α) b, encode v = .ok b → decode α b = .ok v
  encodedLen_encode : ∀ (v : α) b, encode v = .ok b → encodedLen v = .ok b.length
  encode_decode : ∀ (v : α) b, decode α b = .ok v → encode v = .ok b
  encode_injective : ∀ (v v' : α) b, encode v = .ok b → encode v' = .ok b → v = v'
  decode_injective : ∀ (v : α) b b', decode α b = .ok v → decode α b' = .ok v → b = b'

theorem canonicalFormat (α : Type) [Wire α] [LawfulWire α] : CanonicalFormat α where
  decode_encode v b h := decode_eq_ok.mpr (encode_eq_ok.mp h)
  encodedLen_encode v b h := encodedLen_eq_ok (encode_eq_ok.mp h).1
  encode_decode v b h := encode_eq_ok.mpr (decode_eq_ok.mp h)
  encode_injective v v' b h h' := by
    have hv : decode α b = .ok v := decode_eq_ok.mpr (encode_eq_ok.mp h)
    have hv' : decode α b = .ok v' := decode_eq_ok.mpr (encode_eq_ok.mp h')
    exact Except.ok.inj (hv.symm.trans hv')
  decode_injective v b b' h h' := (decode_eq_ok.mp h).1.unique (decode_eq_ok.mp h').1

/-- **The grant format is canonical**, and so are the formats of principals and of rights. -/
theorem canonical_grants :
    CanonicalFormat GrantBody ∧ CanonicalFormat Principal ∧ CanonicalFormat (List RightSpec) :=
  ⟨canonicalFormat GrantBody, canonicalFormat Principal, canonicalFormat (List RightSpec)⟩

section Sample

def plainDigest : ContractDigest := ⟨⟨List.replicate 32 7, List.length_replicate⟩⟩

/-- A grant that passes on the right to record observations of one subject. -/
def plainGrant : GrantBody where
  schemaVersion := 1
  profileVersion := 1
  carrierVersion := 1
  grant :=
    { id := 5
      storeId := 1
      epochId := 2
      rootAnchorId := 3
      issuer := ⟨"actor", "owner", none⟩
      grantee := ⟨"actor", "grantee", some "leg"⟩
      «namespace» := "ns"
      rights := [.read, .recordObservation ⟨[⟨"domain", ⟨"entry", 1, plainDigest⟩, .instrument,
        .observe, ⟨⟨"subject", 1, plainDigest⟩, .exact [⟨[7]⟩]⟩,
        .instrument ⟨⟨"source", 1, plainDigest⟩, [⟨[1]⟩], [⟨[⟨"depth", .integer 2⟩]⟩]⟩⟩]⟩]
      validity := ⟨0, some 10⟩
      createdAt := 0
      assurance := .configuredLocal
      operation := .grant
      actionId := 4
      configurationSource := none
      issuanceId := 5
      key := ⟨"key", 0⟩ }
  parent := .bootstrapSlot "slot" plainDigest 9
  context := ⟨5, 1, ⟨"actor", "grantee", some "leg"⟩, 2, "ns"⟩
  native := ⟨8, 1, 2, 3, some 9, 0, ⟨List.replicate 32 0, List.length_replicate⟩⟩

/-- The grant has a canonical encoding, from which it is read back. -/
theorem canonical_grants_plainGrant :
    ∃ b, encode plainGrant = .ok b ∧ encodedLen plainGrant = .ok b.length ∧
      decode GrantBody b = .ok plainGrant := by
  have hsome : (encode plainGrant).toOption.isSome = true := by decide +kernel
  obtain ⟨b, hb⟩ : ∃ b, encode plainGrant = .ok b := by
    cases h : encode plainGrant with
    | error e =>
      rw [h] at hsome
      cases hsome
    | ok b => exact ⟨b, rfl⟩
  exact ⟨b, hb, canonical_grants.1.encodedLen_encode plainGrant b hb,
    canonical_grants.1.decode_encode plainGrant b hb⟩

end Sample

end Capability

end Khive
