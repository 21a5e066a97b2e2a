import Khive.Blob.PrefixIndex
import Khive.Foundation.OrderedEq
import Khive.Foundation.PrefixRange
import Khive.Types.Value

/-!
# The entries of a tree

A manifest lists files by their paths. Entries are taken in one by one: a path may not be there
already, it may not lie in the directory of an entry's path, and no entry may lie in its own. The
prefix index answers the second and the ordered map the third, since the paths in a directory are a
range of the order that begins at the name of the directory.
-/

namespace Khive.Blob.Tree

/-- `TreeEntry`. -/
structure TreeEntry where
  path : String
  contentRef : String
  mode : UInt32
deriving DecidableEq

/-- `RuntimeError::InvalidInput`. -/
structure InvalidInput where
  message : String
deriving DecidableEq

section Checks

/- The characters that the debug form of a text escapes. -/
variable (unprintable : Char → Bool)

/-- `{:?}` of a string. -/
def quote (text : String) : String := debugText unprintable text.toList

/-- `validate_relative_path`. -/
def validateRelativePath (path what : String) : Except InvalidInput String :=
  let chars := path.toList
  let refuse := fun reason : String ↦
    Except.error ⟨what ++ " path " ++ quote unprintable path ++ reason⟩
  if chars.isEmpty then .error ⟨what ++ " path is empty"⟩
  else if chars.head? = some '/' then
    refuse " is absolute; paths are relative to the tree root"
  else if chars.contains '\x00' || chars.contains '\\' then
    refuse " contains a forbidden character"
  else if (chars.splitOn '/').any fun component ↦
      component.isEmpty || component == ".".toList || component == "..".toList then
    refuse " is not normalized (empty, '.' or '..' component)"
  else .ok path

/-- `CONTENT_REF_HEX_LEN`. -/
def contentRefHexLen : ℕ := 64

/-- `is_lowercase_hex`. -/
def isLowercaseHex (value : String) : Bool :=
  (utf8Bytes value.toList).all fun byte ↦
    (48 ≤ byte && byte ≤ 57) || (97 ≤ byte && byte ≤ 102)

/-- `ContentRef::from_hex`. -/
def contentRefFromHex (hex : String) : Except String String :=
  let length := byteSize hex.toList
  if length ≠ contentRefHexLen then
    .error (s!"content_ref must be {contentRefHexLen} hex characters, got length {length} (" ++
      quote unprintable hex ++ ")")
  else if !isLowercaseHex hex then
    .error ("content_ref must be lowercase hex (0-9, a-f), got " ++ quote unprintable hex)
  else .ok hex

/-- The check of a reference in an entry. -/
def checkRef (path contentRef : String) : Except InvalidInput Unit :=
  match contentRefFromHex unprintable contentRef with
  | .ok _ => .ok ()
  | .error e => .error ⟨"entry " ++ quote unprintable path ++ " ref: " ++ e⟩

/-- The modes of entries: plain files, executable ones and links. -/
def isMode (mode : ℕ) : Bool := mode == 644 || mode == 755 || mode == 120000

def checkMode (path : String) (mode : ℕ) : Except InvalidInput Unit :=
  if isMode mode then .ok ()
  else .error ⟨"entry " ++ quote unprintable path ++
    s!" mode must be 644, 755 or 120000; got {mode}"⟩

/-- The checks of an entry in `validate_entries`. -/
def readEntry (entry : TreeEntry) : Except InvalidInput TreeEntry := do
  let path ← validateRelativePath unprintable entry.path "entry"
  checkRef unprintable path entry.contentRef
  checkMode unprintable path entry.mode.toNat
  return entry

/-! ## Wire entries -/

/-- `item.get(key)`. -/
def member (item : JsonValue) (key : String) : Option JsonValue :=
  (JsonValue.asObject item).bind fun members ↦ getMember members key

def asStr : JsonValue → Option String
  | .string s => some s
  | _ => none

/-- `Value::as_u64`. -/
def asU64 : JsonValue → Option UInt64
  | .number (.posInt n) => some n
  | _ => none

def orInvalid {α : Type} (value : Option α) (message : String) : Except InvalidInput α :=
  match value with
  | some a => .ok a
  | none => .error ⟨message⟩

/-- The checks of an item in `parse_entries`. -/
def readItem (item : JsonValue) : Except InvalidInput TreeEntry := do
  let path ← orInvalid ((member item "path").bind asStr) "entry.path must be a string"
  let path ← validateRelativePath unprintable path "entry"
  let contentRef ← orInvalid ((member item "ref").bind asStr) "entry.ref must be a string"
  checkRef unprintable path contentRef
  let mode ← orInvalid ((member item "mode").bind asU64) "entry.mode must be 644, 755 or 120000"
  checkMode unprintable path mode.toNat
  return ⟨path, contentRef, mode.toUInt32⟩

/-- The JSON form of an entry. -/
def TreeEntry.toJson (entry : TreeEntry) : JsonValue :=
  .object [("mode", .number (.posInt entry.mode.toUInt64)), ("path", .string entry.path),
    ("ref", .string entry.contentRef)]

/-! ## Collisions -/

/-- `EntryIndex`. -/
structure EntryIndex where
  entries : OrderedMap String TreeEntry
  prefixes : PrefixIndex

/-- `EntryIndex::default`. -/
def EntryIndex.empty : EntryIndex := ⟨.empty, PrefixIndex.empty⟩

def conflict (path existing : String) : InvalidInput :=
  ⟨"entry " ++ quote unprintable path ++ " conflicts with entry " ++ quote unprintable existing ++
    " (file and directory at one path)"⟩

/-- The first entry in order from the directory of the path on, if it lies in it. -/
def firstDescendant (entries : OrderedMap String TreeEntry) (path : String) :
    Option (String × TreeEntry) :=
  let directory := path ++ "/"
  (entries.entries.find? fun e ↦ decide (directory ≤ e.1)).filter fun e ↦
    directory.toList.isPrefixOf e.1.toList

/-- `insert_entry`; the outer `none` is a prefix index that fails. -/
def insertEntry (seen : EntryIndex) (entry : TreeEntry) :
    Option (Except InvalidInput EntryIndex) :=
  let path := entry.path
  if (seen.entries.get path).isSome then
    some (.error ⟨"duplicate entry path " ++ quote unprintable path⟩)
  else
    (PrefixIndex.firstParent seen.prefixes path.toList).bind fun parent ↦
      match parent with
      | some existing => some (.error (conflict unprintable path (String.ofList existing)))
      | none =>
        match firstDescendant seen.entries path with
        | some (existing, _) => some (.error (conflict unprintable path existing))
        | none =>
          (PrefixIndex.insert seen.prefixes path.toList).map fun prefixes ↦
            .ok ⟨seen.entries.insert path entry, prefixes⟩

/-- The loop of `parse_entries` and of `validate_entries`. -/
def insertEach {β : Type} (read : β → Except InvalidInput TreeEntry) (seen : EntryIndex) :
    List β → Option (Except InvalidInput EntryIndex)
  | [] => some (.ok seen)
  | item :: items =>
    match read item with
    | .error e => some (.error e)
    | .ok entry =>
      (insertEntry unprintable seen entry).bind fun outcome ↦
        match outcome with
        | .error e => some (.error e)
        | .ok seen => insertEach read seen items

/-- `into_sorted_entries`. -/
def EntryIndex.intoSortedEntries (seen : EntryIndex) : List TreeEntry := seen.entries.values

/-- `validate_entries`. -/
def validateEntries (entries : List TreeEntry) : Option (Except InvalidInput (List TreeEntry)) :=
  (insertEach unprintable (readEntry unprintable) .empty entries).map fun outcome ↦
    outcome.map EntryIndex.intoSortedEntries

/-- `parse_entries`. -/
def parseEntries : JsonValue → Option (Except InvalidInput (List TreeEntry))
  | .array items =>
    (insertEach unprintable (readItem unprintable) .empty items).map fun outcome ↦
      outcome.map EntryIndex.intoSortedEntries
  | _ => some (.error ⟨"entries must be an array of \x7bpath, ref, mode\x7d"⟩)

end Checks

end Khive.Blob.Tree
