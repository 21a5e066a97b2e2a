import Khive.Foundation.Checks

/-!
# Texts and byte streams

Bytes are lists of `UInt8`. A text becomes bytes by UTF-8, a 32-bit count by its four bytes in
big-endian order, and both read back. Error messages quote texts in their debug form.

A decoder of one item reports how many bytes it took. Where the bytes of an item delimit it, so
that the decoder returns it whatever follows them, decoding a concatenation item by item returns
the items in order, each with the length of its own bytes, and leaves what follows the last one.
-/

namespace Khive

abbrev Bytes := List UInt8

/-! ## UTF-8 -/

/-- `str::as_bytes`. -/
def utf8Bytes (text : List Char) : Bytes := (String.ofList text).toByteArray.data.toList

/-- `str::from_utf8`. -/
def utf8Text (bytes : Bytes) : Option (List Char) :=
  (ByteArray.mk bytes.toArray).utf8Decode?.map Array.toList

theorem utf8Text_utf8Bytes (text : List Char) : utf8Text (utf8Bytes text) = some text := by
  have hbytes : ByteArray.mk (utf8Bytes text).toArray = text.utf8Encode := by
    rw [utf8Bytes, Array.toArray_toList, String.toByteArray_ofList]
  rw [utf8Text, hbytes, List.utf8Decode?_utf8Encode, Option.map_some]

theorem utf8Bytes_of_utf8Text {bytes : Bytes} {text : List Char} (h : utf8Text bytes = some text) :
    utf8Bytes text = bytes := by
  obtain ⟨chars, hchars, rfl⟩ := Option.map_eq_some_iff.mp h
  have hsome : (ByteArray.mk bytes.toArray).utf8Decode?.isSome := by rw [hchars]; rfl
  have hencode : chars.toList.utf8Encode = ByteArray.mk bytes.toArray := by
    have hget := ByteArray.utf8Encode_get_utf8Decode? (h := hsome)
    simpa only [hchars, Option.get_some] using hget
  rw [utf8Bytes, String.toByteArray_ofList, hencode]

/-- The size of a text in bytes. -/
def byteSize (text : List Char) : Nat := (utf8Bytes text).length

theorem byteSize_append (t u : List Char) : byteSize (t ++ u) = byteSize t + byteSize u := by
  simp [byteSize, utf8Bytes]

theorem byteSize_cons (c : Char) (t : List Char) : byteSize (c :: t) = byteSize [c] + byteSize t :=
  byteSize_append [c] t

/-! ## Debug texts -/

/-- `{:?}` of a character between double quotes. The unprintable characters, which are escaped by
number, are a table of the standard library. -/
def escapeDebug (unprintable : Char → Bool) (c : Char) : List Char :=
  if c = '\x00' then ['\\', '0']
  else if c = '\t' then ['\\', 't']
  else if c = '\r' then ['\\', 'r']
  else if c = '\n' then ['\\', 'n']
  else if c = '"' then ['\\', '"']
  else if c = '\\' then ['\\', '\\']
  else if unprintable c then ['\\', 'u', '{'] ++ Nat.toDigits 16 c.toNat ++ ['}']
  else [c]

/-- `{:?}` of a string. -/
def debugText (unprintable : Char → Bool) (s : List Char) : String :=
  "\"" ++ String.ofList (s.flatMap (escapeDebug unprintable)) ++ "\""

/-! ## Big-endian counts -/

/-- `u32::to_be_bytes`. -/
def toBeBytes (n : UInt32) : Bytes :=
  [(n >>> 24).toUInt8, (n >>> 16).toUInt8, (n >>> 8).toUInt8, n.toUInt8]

/-- `u32::from_be_bytes`. -/
def fromBeBytes (bytes : Bytes) : UInt32 := bytes.foldl (fun n b ↦ n * 256 + b.toUInt32) 0

theorem length_toBeBytes (n : UInt32) : (toBeBytes n).length = 4 := rfl

theorem fromBeBytes_toBeBytes (n : UInt32) : fromBeBytes (toBeBytes n) = n := by
  apply UInt32.toNat_inj.mp
  simp only [toBeBytes, fromBeBytes, List.foldl_cons, List.foldl_nil, UInt32.toNat_add,
    UInt32.toNat_mul, UInt8.toNat_toUInt32, UInt32.toNat_toUInt8, UInt32.toNat_shiftRight,
    UInt32.reduceToNat, Nat.shiftRight_eq_div_pow, Nat.reduceMod, Nat.reducePow]
  have hn := n.toNat_lt
  omega

/-! ## Items one after another -/

section Decoding

variable {ε α : Type}

/-- Decode `n` items, each from where the one before it ended. -/
def decodeRun (decode : Bytes → Except ε (α × Nat)) :
    Nat → Bytes → Except ε (List (α × Nat) × Bytes)
  | 0, buf => .ok ([], buf)
  | n + 1, buf => do
    let (item, consumed) ← decode buf
    let (items, rest) ← decodeRun decode n (buf.drop consumed)
    return ((item, consumed) :: items, rest)

/-- The decoder returns the item from these bytes, and takes no others, whatever follows. -/
def Delimits (decode : Bytes → Except ε (α × Nat)) (bytes : Bytes) (item : α) : Prop :=
  ∀ rest, decode (bytes ++ rest) = .ok (item, bytes.length)

theorem decodeRun_flatten {decode : Bytes → Except ε (α × Nat)} {encodings : List Bytes}
    {items : List α} (h : List.Forall₂ (Delimits decode) encodings items) (rest : Bytes) :
    decodeRun decode items.length (encodings.flatten ++ rest) =
      .ok (items.zip (encodings.map List.length), rest) := by
  induction h with
  | nil => rfl
  | @cons bytes item encodings items hitem _ ih =>
    have hdrop : (bytes ++ (encodings.flatten ++ rest)).drop bytes.length =
        encodings.flatten ++ rest := List.drop_left
    rw [List.flatten_cons, List.append_assoc, List.length_cons, decodeRun, hitem, ok_bind]
    dsimp only
    rw [hdrop, ih, ok_bind]
    rfl

end Decoding

end Khive
