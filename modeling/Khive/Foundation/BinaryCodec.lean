import Khive.Foundation.Bytes

/-!
# Binary codecs

A writer appends bytes to an output, a reader takes bytes from an input, and both may fail. The
output may keep the bytes or only count them, so that one writer serves for the encoding and for
its length.

A writer *emits* some bytes when it does nothing else than append them. `InverseOn S w r` says that
on the values in `S` the writer `w` and the reader `r` are inverse to each other: the reader takes
back what the writer emits, whatever follows, and it takes nothing that the writer does not emit.
The rules below build such pairs: fixed widths, sequences of fields, a key that selects how to go
on, checks, and repetitions.
-/

namespace Khive

/-! ## Big-endian numbers -/

/-- The last `width` digits of `n` in base 256, the most significant first. -/
def bigEndian : Nat → Nat → Bytes
  | 0, _ => []
  | width + 1, n => bigEndian width (n / 256) ++ [UInt8.ofNat n]

/-- The number that the bytes spell. -/
def bigEndianValue (bytes : Bytes) : Nat := bytes.foldl (fun n b ↦ n * 256 + b.toNat) 0

theorem length_bigEndian (width n : Nat) : (bigEndian width n).length = width := by
  induction width generalizing n with
  | zero => rfl
  | succ width ih => simp [bigEndian, ih]

theorem bigEndianValue_append (bytes : Bytes) (b : UInt8) :
    bigEndianValue (bytes ++ [b]) = bigEndianValue bytes * 256 + b.toNat := by
  simp [bigEndianValue]

theorem bigEndianValue_bigEndian {width n : Nat} (h : n < 256 ^ width) :
    bigEndianValue (bigEndian width n) = n := by
  induction width generalizing n with
  | zero =>
    obtain rfl : n = 0 := by simpa using h
    rfl
  | succ width ih =>
    have hdiv : n / 256 < 256 ^ width := by
      rw [Nat.div_lt_iff_lt_mul (by decide), ← Nat.pow_succ]
      exact h
    rw [bigEndian, bigEndianValue_append, ih hdiv, UInt8.toNat_ofNat']
    omega

theorem bigEndianValue_lt (bytes : Bytes) : bigEndianValue bytes < 256 ^ bytes.length := by
  induction bytes using List.reverseRecOn with
  | nil => decide
  | append_singleton bytes b ih =>
    rw [bigEndianValue_append, List.length_append, List.length_singleton, Nat.pow_succ]
    have hb := b.toNat_lt
    omega

theorem bigEndian_bigEndianValue (bytes : Bytes) :
    bigEndian bytes.length (bigEndianValue bytes) = bytes := by
  induction bytes using List.reverseRecOn with
  | nil => rfl
  | append_singleton bytes b ih =>
    have hb := b.toNat_lt
    have hdiv : (bigEndianValue bytes * 256 + b.toNat) / 256 = bigEndianValue bytes := by omega
    have hlast : UInt8.ofNat (bigEndianValue bytes * 256 + b.toNat) = b := by
      apply UInt8.toNat_inj.mp
      rw [UInt8.toNat_ofNat']
      omega
    rw [List.length_append, List.length_singleton, bigEndian, bigEndianValue_append, hdiv, ih,
      hlast]

namespace Binary

/-! ## Outputs and inputs -/

/-- Where encoded bytes go: kept, or only counted. -/
structure Encoder where
  bytes : Option Bytes
  length : Nat

/-- Where encoded bytes come from. -/
structure Decoder where
  bytes : Bytes
  cursor : Nat

abbrev Put (ε : Type) := StateT Encoder (Except ε)

abbrev Get (ε : Type) := StateT Decoder (Except ε)

/-- The lengths from which on positions overflow, and what is reported. -/
structure Limits (ε : Type) where
  limit : Nat
  putOverflow : ε
  takeOverflow : ε
  truncated : ε

def Encoder.extend (out : Encoder) (bytes : Bytes) : Encoder :=
  ⟨out.bytes.map (· ++ bytes), out.length + bytes.length⟩

def Decoder.advance (input : Decoder) (n : Nat) : Decoder := { input with cursor := input.cursor + n }

/-- What has not been taken yet. -/
def Decoder.rest (input : Decoder) : Bytes := input.bytes.drop input.cursor

section Operations

variable {ε : Type} (lim : Limits ε)

def put (bytes : Bytes) : Put ε Unit := fun out ↦
  if out.length + bytes.length < lim.limit then .ok ((), out.extend bytes)
  else .error lim.putOverflow

def take (n : Nat) : Get ε Bytes := fun input ↦
  if input.cursor + n < lim.limit then
    if input.cursor + n ≤ input.bytes.length then .ok (input.rest.take n, input.advance n)
    else .error lim.truncated
  else .error lim.takeOverflow

/-- A position inside an input of admissible length. -/
def Decoder.Valid (input : Decoder) : Prop :=
  input.cursor ≤ input.bytes.length ∧ input.bytes.length < lim.limit

end Operations

variable {ε α β : Type} {lim : Limits ε}

theorem Encoder.extend_append (out : Encoder) (b c : Bytes) :
    (out.extend b).extend c = out.extend (b ++ c) := by
  obtain ⟨bytes, length⟩ := out
  cases bytes <;> simp [Encoder.extend, Nat.add_assoc]

@[simp] theorem Decoder.advance_advance (input : Decoder) (m n : Nat) :
    (input.advance m).advance n = input.advance (m + n) := by
  simp [Decoder.advance, Nat.add_assoc]

/-- Skipping some of the rest. -/
theorem Decoder.rest_advance {input : Decoder} {b tail : Bytes} (h : input.rest = b ++ tail) :
    (input.advance b.length).rest = tail := by
  have hdrop : (input.advance b.length).rest = input.rest.drop b.length := by
    simp [Decoder.rest, Decoder.advance, List.drop_drop]
  rw [hdrop, h, List.drop_left]

theorem Decoder.Valid.advance {input : Decoder} (hvalid : input.Valid lim) {b tail : Bytes}
    (h : input.rest = b ++ tail) : (input.advance b.length).Valid lim := by
  have hlength : input.bytes.length - input.cursor = b.length + tail.length := by
    rw [← List.length_drop, ← List.length_append, ← h]
    rfl
  obtain ⟨hcursor, hlimit⟩ := hvalid
  refine ⟨?_, hlimit⟩
  change input.cursor + b.length ≤ input.bytes.length
  omega

theorem Decoder.Valid.length_lt {input : Decoder} (hvalid : input.Valid lim) {b tail : Bytes}
    (h : input.rest = b ++ tail) : b.length < lim.limit := by
  have hend : input.cursor + b.length ≤ input.bytes.length := (hvalid.advance h).1
  have hfits : input.bytes.length < lim.limit := hvalid.2
  omega

/-- The bytes at the cursor can be taken. -/
theorem run_take {input : Decoder} (hvalid : input.Valid lim) {b tail : Bytes}
    (h : input.rest = b ++ tail) :
    (take lim b.length).run input = .ok (b, input.advance b.length) := by
  have hend : input.cursor + b.length ≤ input.bytes.length := (hvalid.advance h).1
  have hlimit : input.cursor + b.length < lim.limit := hend.trans_lt hvalid.2
  change take lim b.length input = _
  rw [take, if_pos hlimit, if_pos hend, h, List.take_left]

/-- What was taken stood at the cursor. -/
theorem rest_of_run_take {input input' : Decoder} {n : Nat} {b : Bytes}
    (h : (take lim n).run input = .ok (b, input')) :
    b.length = n ∧ input' = input.advance n ∧ ∃ tail, input.rest = b ++ tail := by
  change take lim n input = _ at h
  unfold take at h
  split at h
  · split at h
    · rename_i hend
      obtain ⟨rfl, rfl⟩ : input.rest.take n = b ∧ input.advance n = input' := by simpa using h
      refine ⟨?_, rfl, input.rest.drop n, (List.take_append_drop n input.rest).symm⟩
      simp only [Decoder.rest, List.length_take, List.length_drop]
      omega
    · simp at h
  · simp at h

/-! ## Writers -/

section Writers

variable (lim)

/-- The writer appends these bytes and does nothing else. -/
def Emits (w : Put ε Unit) (b : Bytes) : Prop :=
  b.length < lim.limit ∧ ∀ out, out.length < lim.limit → w.run out = (put lim b).run out

/-- A writer that ever succeeds appends the same bytes to every output. -/
def Regular (w : Put ε Unit) : Prop :=
  ∀ out out', out.length < lim.limit → w.run out = .ok ((), out') → ∃ b, Emits lim w b

end Writers

theorem run_put (b : Bytes) (out : Encoder) :
    (put lim b).run out = if out.length + b.length < lim.limit then .ok ((), out.extend b)
      else .error lim.putOverflow := rfl

theorem run_put_eq_ok {b : Bytes} {out out' : Encoder} :
    (put lim b).run out = .ok ((), out') ↔
      out.length + b.length < lim.limit ∧ out.extend b = out' := by
  rw [run_put]
  split <;> simp_all

theorem run_put_append (b c : Bytes) (out : Encoder) :
    (put lim (b ++ c)).run out = (do put lim b; put lim c : Put ε Unit).run out := by
  rw [StateT.run_bind, run_put, run_put, List.length_append]
  by_cases hb : out.length + b.length < lim.limit
  · rw [if_pos hb, ok_bind]
    dsimp only
    rw [run_put, Encoder.extend_append]
    simp only [Encoder.extend, Nat.add_assoc]
  · have hbc : ¬ out.length + (b.length + c.length) < lim.limit := by omega
    rw [if_neg hb, if_neg hbc]
    rfl

/-- The outcome of writing to an empty output. -/
theorem Emits.run_empty {w : Put ε Unit} {b : Bytes} (h : Emits lim w b) (start : Option Bytes) :
    w.run ⟨start, 0⟩ = .ok ((), ⟨start.map (· ++ b), b.length⟩) := by
  obtain ⟨hlength, hw⟩ := h
  have hzero : (⟨start, 0⟩ : Encoder).length < lim.limit := Nat.zero_lt_of_lt hlength
  rw [hw _ hzero, run_put_eq_ok]
  simp [Encoder.extend, hlength]

theorem Emits.unique {w : Put ε Unit} {b c : Bytes} (h : Emits lim w b) (h' : Emits lim w c) :
    b = c := by
  have heq := (h.run_empty (some [])).symm.trans (h'.run_empty (some []))
  exact (by simpa using heq : b = c ∧ b.length = c.length).1

theorem regular_put (b : Bytes) : Regular lim (put lim b) := by
  intro out out' _ h
  have hlength := (run_put_eq_ok.mp h).1
  exact ⟨b, by omega, fun _ _ ↦ rfl⟩

theorem eq_of_emits_put {b c : Bytes} (h : Emits lim (put lim b) c) : c = b := by
  have hrun := (run_put_eq_ok.mp (h.run_empty (some []))).2
  exact (by simpa [Encoder.extend] using hrun : b = c ∧ b.length = c.length).1.symm

theorem eq_nil_of_emits_pure {b : Bytes} (h : Emits lim (pure ()) b) : b = [] := by
  have hrun := h.run_empty (some [])
  rw [StateT.run_pure, pure_eq_ok] at hrun
  exact (by simpa using hrun : b = [] ∧ 0 = b.length).1

/-- Writing nothing. -/
theorem Emits.nil (hlimit : 0 < lim.limit) : Emits lim (pure ()) [] := by
  refine ⟨hlimit, fun out hout ↦ ?_⟩
  have hput : (put lim []).run out = .ok ((), out) := by
    rw [run_put_eq_ok]
    obtain ⟨bytes, length⟩ := out
    refine ⟨by simpa using hout, ?_⟩
    cases bytes <;> simp [Encoder.extend]
  rw [hput]
  rfl

theorem regular_pure : Regular lim (pure ()) :=
  fun _ _ hout _ ↦ ⟨[], Emits.nil (Nat.zero_lt_of_lt hout)⟩

/-- One writer after another, from a place where both succeed. -/
theorem exists_emits_seq {w w' : Put ε Unit} (hw : Regular lim w) (hw' : Regular lim w')
    {out out' : Encoder} (hout : out.length < lim.limit)
    (h : StateT.run (do w; w' : Put ε Unit) out = .ok ((), out')) :
    ∃ b c, Emits lim w b ∧ Emits lim w' c ∧ (b ++ c).length < lim.limit := by
  rw [StateT.run_bind, bind_eq_ok] at h
  obtain ⟨⟨⟨⟩, middle⟩, hfirst, hsecond⟩ := h
  obtain ⟨b, hb⟩ := hw out middle hout hfirst
  have hmiddle := run_put_eq_ok.mp ((hb.2 out hout).symm.trans hfirst)
  have hmiddle' : middle.length < lim.limit := by
    rw [← hmiddle.2]
    exact hmiddle.1
  obtain ⟨c, hc⟩ := hw' middle out' hmiddle' hsecond
  have hend := (run_put_eq_ok.mp ((hc.2 middle hmiddle').symm.trans hsecond)).1
  refine ⟨b, c, hb, hc, ?_⟩
  rw [← hmiddle.2] at hend
  simp only [Encoder.extend] at hend
  rw [List.length_append]
  omega

theorem Emits.seq {w w' : Put ε Unit} {b c : Bytes} (h : Emits lim w b) (h' : Emits lim w' c)
    (hlength : (b ++ c).length < lim.limit) : Emits lim (do w; w') (b ++ c) := by
  refine ⟨hlength, fun out hout ↦ ?_⟩
  rw [run_put_append, StateT.run_bind, StateT.run_bind, h.2 out hout]
  by_cases hb : out.length + b.length < lim.limit
  · rw [run_put, if_pos hb, ok_bind, ok_bind]
    exact h'.2 _ hb
  · rw [run_put, if_neg hb]
    rfl

theorem Regular.seq {w w' : Put ε Unit} (hw : Regular lim w) (hw' : Regular lim w') :
    Regular lim (do w; w') := by
  intro out out' hout h
  obtain ⟨b, c, hb, hc, hlength⟩ := exists_emits_seq hw hw' hout h
  exact ⟨b ++ c, hb.seq hc hlength⟩

/-- What a sequence emits comes in two pieces. -/
theorem emits_seq {w w' : Put ε Unit} (hw : Regular lim w) (hw' : Regular lim w') {bytes : Bytes}
    (h : Emits lim (do w; w') bytes) :
    ∃ b c, bytes = b ++ c ∧ Emits lim w b ∧ Emits lim w' c := by
  obtain ⟨b, c, hb, hc, hlength⟩ :=
    exists_emits_seq hw hw' (Nat.zero_lt_of_lt h.1) (h.run_empty (some []))
  exact ⟨b, c, h.unique (hb.seq hc hlength), hb, hc⟩

/-! ## Writers and readers -/

/-- On the values in `S` the writer and the reader are inverse to each other. -/
structure InverseOn (lim : Limits ε) (S : α → Prop) (w : α → Put ε Unit) (r : Get ε α) : Prop where
  regular : ∀ v, S v → Regular lim (w v)
  /-- The reader takes what the writer emitted. -/
  back : ∀ {v b tail input}, S v → Emits lim (w v) b → input.Valid lim → input.rest = b ++ tail →
    r.run input = .ok (v, input.advance b.length)
  /-- The writer emits what the reader took. -/
  forth : ∀ {v input input'}, input.Valid lim → r.run input = .ok (v, input') →
    S v ∧ ∃ b tail, Emits lim (w v) b ∧ input.rest = b ++ tail ∧ input' = input.advance b.length

/-- A writer and a reader inverse to each other on all values. -/
abbrev Inverse (lim : Limits ε) (w : α → Put ε Unit) (r : Get ε α) : Prop :=
  InverseOn lim (fun _ ↦ True) w r

section Rules

variable {S : α → Prop} {w : α → Put ε Unit} {r : Get ε α}

/-- Bytes of a known number. -/
theorem inverseOn_take (n : Nat) :
    InverseOn lim (fun bytes : Bytes ↦ bytes.length = n) (put lim) (take lim n) where
  regular bytes _ := regular_put bytes
  back := by
    intro bytes b tail input hn hemits hvalid hrest
    obtain rfl := eq_of_emits_put hemits
    rw [← hn]
    exact run_take hvalid hrest
  forth := by
    intro bytes input input' hvalid h
    obtain ⟨hn, rfl, tail, hrest⟩ := rest_of_run_take h
    exact ⟨hn, bytes, tail, ⟨hvalid.length_lt hrest, fun _ _ ↦ rfl⟩, hrest, by rw [hn]⟩

/-- A key, and then what the key selects. -/
theorem InverseOn.bind {κ : Type} {wk : κ → Put ε Unit} {rk : Get ε κ} (hkey : Inverse lim wk rk)
    (key : α → κ) {next : κ → Get ε α}
    (hnext : ∀ k, InverseOn lim (fun v ↦ S v ∧ key v = k) w (next k)) :
    InverseOn lim S (fun v ↦ do wk (key v); w v) (rk >>= next) where
  regular v hv := (hkey.regular (key v) trivial).seq ((hnext (key v)).regular v ⟨hv, rfl⟩)
  back := by
    intro v bytes tail input hv hemits hvalid hrest
    obtain ⟨b, c, rfl, hb, hc⟩ := emits_seq (hkey.regular (key v) trivial)
      ((hnext (key v)).regular v ⟨hv, rfl⟩) hemits
    rw [List.append_assoc] at hrest
    have hfirst := hkey.back trivial hb hvalid hrest
    have hsecond := (hnext (key v)).back ⟨hv, rfl⟩ hc (hvalid.advance hrest)
      (Decoder.rest_advance hrest)
    rw [StateT.run_bind, hfirst, ok_bind, hsecond, Decoder.advance_advance, List.length_append]
  forth := by
    intro v input input' hvalid h
    rw [StateT.run_bind, bind_eq_ok] at h
    obtain ⟨⟨k, middle⟩, hfirst, hsecond⟩ := h
    obtain ⟨-, b, tail, hb, hrest, rfl⟩ := hkey.forth hvalid hfirst
    obtain ⟨⟨hv, rfl⟩, c, tail', hc, hrest', rfl⟩ :=
      (hnext k).forth (hvalid.advance hrest) hsecond
    rw [Decoder.rest_advance hrest] at hrest'
    have hsplit : input.rest = (b ++ c) ++ tail' := by rw [hrest, hrest', List.append_assoc]
    refine ⟨hv, b ++ c, tail', hb.seq hc (hvalid.length_lt hsplit), hsplit, ?_⟩
    rw [Decoder.advance_advance, List.length_append]

/-- The values that are made from a payload. -/
theorem InverseOn.map {wp : β → Put ε Unit} {rp : Get ε β} {T : β → Prop}
    (h : InverseOn lim T wp rp) (make : β → α) (hS : ∀ v, S v → ∃ p, T p ∧ make p = v)
    (hmake : ∀ p, T p → S (make p) ∧ w (make p) = wp p) : InverseOn lim S w (make <$> rp) where
  regular := by
    intro v hv
    obtain ⟨p, hp, rfl⟩ := hS v hv
    rw [(hmake p hp).2]
    exact h.regular p hp
  back := by
    intro v b tail input hv hemits hvalid hrest
    obtain ⟨p, hp, rfl⟩ := hS v hv
    rw [(hmake p hp).2] at hemits
    rw [StateT.run_map, h.back hp hemits hvalid hrest]
    rfl
  forth := by
    intro v input input' hvalid hread
    rw [StateT.run_map] at hread
    obtain ⟨⟨p, input''⟩, hp, hv⟩ := map_eq_ok.mp hread
    obtain ⟨rfl, rfl⟩ : make p = v ∧ input'' = input' := by simpa using hv
    obtain ⟨hT, b, tail, hb, hrest, rfl⟩ := h.forth hvalid hp
    rw [(hmake p hT).2]
    exact ⟨(hmake p hT).1, b, tail, hb, hrest, rfl⟩

/-- A fixed number of bytes. -/
theorem inverse_fixed {bytes : α → Bytes} {value : Bytes → α} {n : Nat}
    (hlength : ∀ v, (bytes v).length = n) (hvalue : ∀ v, value (bytes v) = v)
    (hbytes : ∀ b, b.length = n → bytes (value b) = b) :
    Inverse lim (fun v ↦ put lim (bytes v)) (value <$> take lim n) := by
  refine (inverseOn_take n).map value (fun v _ ↦ ⟨bytes v, hlength v, hvalue v⟩) fun b hb ↦ ?_
  exact ⟨trivial, congrArg (put lim) (hbytes b hb)⟩

/-- A payload that has to be understood. -/
theorem InverseOn.filterMap {wp : β → Put ε Unit} {rp : Get ε β} {T : β → Prop}
    (h : InverseOn lim T wp rp) (parse : β → Except ε α) (unparse : α → β)
    (hback : ∀ v, S v → T (unparse v) ∧ parse (unparse v) = .ok v)
    (hforth : ∀ p v, T p → parse p = .ok v → S v ∧ unparse v = p) :
    InverseOn lim S (fun v ↦ wp (unparse v)) (rp >>= fun p ↦ liftM (parse p)) where
  regular v hv := h.regular (unparse v) (hback v hv).1
  back := by
    intro v b tail input hv hemits hvalid hrest
    rw [StateT.run_bind, h.back (hback v hv).1 hemits hvalid hrest, ok_bind, (hback v hv).2]
    rfl
  forth := by
    intro v input input' hvalid hread
    rw [StateT.run_bind, bind_eq_ok] at hread
    obtain ⟨⟨p, input''⟩, hp, hparse⟩ := hread
    obtain ⟨hT, b, tail, hb, hrest, rfl⟩ := h.forth hvalid hp
    have hrun : ∃ v', parse p = .ok v' ∧ (v', input.advance b.length) = (v, input') := by
      cases hv : parse p with
      | error e =>
        rw [hv] at hparse
        cases hparse
      | ok v' =>
        rw [hv] at hparse
        exact ⟨v', rfl, Except.ok.inj hparse⟩
    obtain ⟨v', hv', heq⟩ := hrun
    obtain ⟨rfl, rfl⟩ : v' = v ∧ input.advance b.length = input' := by simpa using heq
    obtain ⟨hS, hun⟩ := hforth p v' hT hv'
    refine ⟨hS, b, tail, ?_, hrest, rfl⟩
    rw [hun]
    exact hb

/-- A key that no value has. -/
theorem inverseOn_throw (e : ε) (hS : ∀ v, ¬ S v) : InverseOn lim S w (throw e) where
  regular v hv := absurd hv (hS v)
  back hv := absurd hv (hS _)
  forth := by
    intro v input input' _ h
    cases h

/-- A check made by the writer before it writes. -/
theorem InverseOn.check {check : α → Except ε Unit} (h : InverseOn lim S w r)
    (hcheck : ∀ v, check v = .ok () ↔ S v) :
    Inverse lim (fun v ↦ do liftM (check v); w v) r := by
  have hpass : ∀ v, S v → (do liftM (check v); w v : Put ε Unit) = w v := by
    intro v hv
    rw [(hcheck v).mpr hv]
    rfl
  have hok : ∀ v out out', (do liftM (check v); w v : Put ε Unit).run out = .ok ((), out') →
      S v := by
    intro v out out' hrun
    refine (hcheck v).mp ?_
    cases hv : check v with
    | ok u => rfl
    | error e =>
      rw [hv] at hrun
      cases hrun
  refine ⟨fun v _ out out' hout hrun ↦ ?_, ?_, ?_⟩
  · have hv := hok v out out' hrun
    rw [hpass v hv] at hrun ⊢
    exact h.regular v hv out out' hout hrun
  · intro v b tail input _ hemits hvalid hrest
    have hv := hok v _ _ (hemits.run_empty none)
    rw [hpass v hv] at hemits
    exact h.back hv hemits hvalid hrest
  · intro v input input' hvalid hread
    obtain ⟨hv, b, tail, hb, hrest, hadvance⟩ := h.forth hvalid hread
    refine ⟨trivial, b, tail, ?_, hrest, hadvance⟩
    rw [hpass v hv]
    exact hb

/-- A check made by the reader before it goes on. -/
theorem InverseOn.checkRead {check : Except ε Unit} (hpass : check = .ok () → InverseOn lim S w r)
    (hfail : ∀ v, S v → check = .ok ()) : InverseOn lim S w (do liftM check; r) := by
  cases hcheck : check with
  | ok u => exact hpass hcheck
  | error e =>
    have hnone : ∀ v, ¬ S v := by
      intro v hv
      rw [hcheck] at hfail
      cases hfail v hv
    exact inverseOn_throw e hnone

/-- Nothing to write. -/
theorem inverseOn_pure {v : α} (hS : ∀ v', S v' ↔ v' = v) (hw : w v = pure ()) :
    InverseOn lim S w (pure v) where
  regular := by
    intro v' hv'
    rw [(hS v').mp hv', hw]
    exact regular_pure
  back := by
    intro v' b tail input hv' hemits _ _
    obtain rfl := (hS v').mp hv'
    rw [hw] at hemits
    obtain rfl := eq_nil_of_emits_pure hemits
    rfl
  forth := by
    intro v' input input' hvalid h
    obtain ⟨rfl, rfl⟩ : v = v' ∧ input = input' := by
      rw [StateT.run_pure, pure_eq_ok] at h
      simpa using h
    refine ⟨(hS v).mpr rfl, [], input.rest, ?_, rfl, rfl⟩
    rw [hw]
    exact Emits.nil (Nat.zero_lt_of_lt hvalid.2)

/-- One field after another. -/
theorem Inverse.pair {w' : β → Put ε Unit} {r' : Get ε β} (h : Inverse lim w r)
    (h' : Inverse lim w' r') :
    Inverse lim (fun p : α × β ↦ do w p.1; w' p.2) (r >>= fun a ↦ (fun b ↦ (a, b)) <$> r') := by
  refine InverseOn.bind (w := fun p : α × β ↦ w' p.2) h Prod.fst fun a ↦ ?_
  refine h'.map (fun b ↦ (a, b)) (fun p hp ↦ ⟨p.2, trivial, ?_⟩) fun b _ ↦ ⟨⟨trivial, rfl⟩, rfl⟩
  rw [← hp.2]

/-- A reader repeated a number of times. -/
def getMany (r : Get ε α) : Nat → Get ε (List α)
  | 0 => pure []
  | n + 1 => do
    let v ← r
    let vs ← getMany r n
    pure (v :: vs)

theorem Inverse.many (h : Inverse lim w r) (n : Nat) :
    InverseOn lim (fun vs : List α ↦ vs.length = n) (fun vs ↦ vs.forM w) (getMany r n) := by
  induction n with
  | zero => exact inverseOn_pure (fun vs ↦ List.length_eq_zero_iff) rfl
  | succ n ih =>
    -- a list that is not empty is the pair of its head and its tail
    have hpair : InverseOn lim (fun p : α × List α ↦ p.2.length = n)
        (fun p ↦ do w p.1; p.2.forM w) (r >>= fun v ↦ (fun vs ↦ (v, vs)) <$> getMany r n) := by
      refine InverseOn.bind (w := fun p : α × List α ↦ p.2.forM w) h Prod.fst fun v ↦ ?_
      refine ih.map (fun vs ↦ (v, vs)) (fun p hp ↦ ⟨p.2, hp.1, ?_⟩) fun vs hvs ↦ ⟨⟨hvs, rfl⟩, rfl⟩
      rw [← hp.2]
    have hmap := hpair.map (fun p ↦ p.1 :: p.2)
      (S := fun vs : List α ↦ vs.length = n + 1) (w := fun vs ↦ vs.forM w) ?_ ?_
    · simpa [getMany] using hmap
    · intro vs hvs
      obtain ⟨v, tail, rfl⟩ := List.exists_cons_of_length_eq_add_one hvs
      exact ⟨(v, tail), by simpa using hvs, rfl⟩
    · intro p hp
      exact ⟨by simpa using hp, rfl⟩

end Rules

end Binary

end Khive
