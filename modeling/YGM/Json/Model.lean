import YGM.Library.Codec

/-!
# JSON values in an archive

This file is `include/ygm/detail/cereal_boost_json.hpp`: how `boost::json` values are saved
to `YGMOutputArchive` and loaded from `YGMInputArchive`.

A value is saved as its kind, one byte, and its content.  Strings, arrays and objects are
saved as a size tag of eight bytes followed by their characters, items or entries; the key
of an entry is saved like a string.

## Targets

Every load function is given the object it loads into, and what that object had before is
an argument here.  The loader of values makes a new content for its target (`emplace_…`)
and leaves the target alone for a kind it does not know.  The loader of strings resizes and
overwrites; those of arrays and objects add to what they find: `array.push_back`, and
`object.emplace`, which does nothing if the key is there.

## Recursion

Values nest to any depth, so the loader of values has a bound for the depth.  A value is at
least one byte long, and the number of bytes ahead is enough (`Value.load`).
-/

namespace YGM.Json

/-- A string or a key of the JSON library, as a list of any bytes. -/
abbrev Chars : Type :=
  List UInt8

/-- **`bj::value`**, a JSON value.  A double is given by its object representation; an object
has its entries in the order of its iterators. -/
inductive Value
  | null
  | bool (b : Bool)
  | int64 (x : BitVec 64)
  | uint64 (x : BitVec 64)
  | double (bits : BitVec 64)
  | string (chars : Chars)
  | array (items : List Value)
  | object (entries : List (Chars × Value))

/-- The kind of a JSON value, `bjson_value_kind`. -/
inductive Kind
  | null
  | bool
  | int64
  | uint64
  | double
  | string
  | array
  | object

/-- The underlying integer of a kind, in the order of the enumeration. -/
def Kind.code : Kind → BitVec 8
  | null => 0
  | bool => 1
  | int64 => 2
  | uint64 => 3
  | double => 4
  | string => 5
  | array => 6
  | object => 7

/-- The kind with this underlying integer, if there is one. -/
def Kind.find (code : BitVec 8) : Option Kind :=
  [null, bool, int64, uint64, double, string, array, object].find? fun kind => kind.code == code

@[simp] theorem Kind.find_code (kind : Kind) : Kind.find kind.code = some kind := by
  cases kind <;> rfl

/-! ## Saving -/

/-- The size tag that `make_size_tag` saves, a number of eight bytes. -/
def saveSize (size : ℕ) : List UInt8 :=
  (Codec.word 8).encode (BitVec.ofNat 64 size)

/-- The byte of the kind, which is saved before the content of a value. -/
def saveKind (kind : Kind) : List UInt8 :=
  (Codec.word 1).encode kind.code

/-- The bytes that are saved of a `bj::string` or of a key: its size and its characters. -/
def saveString (chars : Chars) : List UInt8 :=
  saveSize chars.length ++ chars

mutual

/-- **The bytes that are saved of a `bj::value`**: its kind, and its content. -/
def Value.save : Value → List UInt8
  | .null => saveKind .null
  | .bool b => saveKind .bool ++ (Codec.word 1).encode (if b then 1 else 0)
  | .int64 x => saveKind .int64 ++ (Codec.word 8).encode x
  | .uint64 x => saveKind .uint64 ++ (Codec.word 8).encode x
  | .double bits => saveKind .double ++ (Codec.word 8).encode bits
  | .string chars => saveKind .string ++ saveString chars
  | .array items => saveKind .array ++ (saveSize items.length ++ saveItems items)
  | .object entries => saveKind .object ++ (saveSize entries.length ++ saveEntries entries)

/-- The bytes that the loop over an array saves of its items. -/
def saveItems : List Value → List UInt8
  | [] => []
  | item :: items => item.save ++ saveItems items

/-- The bytes that the loop over an object saves of its keys and values. -/
def saveEntries : List (Chars × Value) → List UInt8
  | [] => []
  | (key, value) :: entries => saveString key ++ (value.save ++ saveEntries entries)

end

/-- The bytes that are saved of a `bj::array`: its size and its items. -/
def saveArray (array : List Value) : List UInt8 :=
  saveSize array.length ++ saveItems array

/-- The bytes that are saved of a `bj::object`: its size and its entries. -/
def saveObject (object : List (Chars × Value)) : List UInt8 :=
  saveSize object.length ++ saveEntries object

/-! ## Loading -/

/-- The outcome of a loader: the value it leaves in its target with the archive behind it, or an
exception of the archive. -/
abbrev Loaded (T : Type) : Type :=
  Option (T × Reader)

/-- The number that is loaded from the size tag of `make_size_tag`. -/
def loadSize (ar : Reader) : Loaded ℕ :=
  ((Codec.word 8).decode ar).map fun out => (out.1.toNat, out.2)

/-- The string after `str.resize(size)`, which cuts it or fills it up with zero bytes. -/
def resize (str : Chars) (size : ℕ) : Chars :=
  str.take size ++ List.replicate (size - str.length) 0

/-- The string after bytes have been copied to its front. -/
def overwrite (str bytes : Chars) : Chars :=
  bytes ++ str.drop bytes.length

/-- **Load a `bj::string`**, or a key, into a target that holds `str`. -/
def loadString (str : Chars) (ar : Reader) : Loaded Chars :=
  (loadSize ar).bind fun size =>
    (size.2.load size.1).map fun bytes => (overwrite (resize str size.1) bytes.1, bytes.2)

/-- The object after `object.emplace(key, value)`, which does nothing if the key is already
there. -/
def emplace (object : List (Chars × Value)) (key : Chars) (value : Value) :
    List (Chars × Value) :=
  if key ∈ object.map Prod.fst then object else object ++ [(key, value)]

section Loops

variable (load : Value → Reader → Loaded Value)

/-- The loop that appends loaded values to an array. -/
def loadItems : ℕ → List Value → Reader → Loaded (List Value)
  | 0, array, ar => some (array, ar)
  | count + 1, array, ar =>
      (load .null ar).bind fun value => loadItems count (array ++ [value.1]) value.2

/-- The loop that emplaces loaded entries into an object, where `key` is the buffer into which
the keys are loaded. -/
def loadEntries : ℕ → Chars → List (Chars × Value) → Reader → Loaded (List (Chars × Value))
  | 0, _, object, ar => some (object, ar)
  | count + 1, key, object, ar =>
      (loadString key ar).bind fun key =>
        (load .null key.2).bind fun value =>
          loadEntries count key.1 (emplace object key.1 value.1) value.2

/-- Load a `bj::array`, with a loader for its items. -/
def loadArrayWith (array : List Value) (ar : Reader) : Loaded (List Value) :=
  (loadSize ar).bind fun size => loadItems load size.1 array size.2

/-- Load a `bj::object`, with a loader for its values. -/
def loadObjectWith (object : List (Chars × Value)) (ar : Reader) :
    Loaded (List (Chars × Value)) :=
  (loadSize ar).bind fun size => loadEntries load size.1 [] object size.2

end Loops

/-- Load the content of a value after its kind; a byte that is no kind leaves the target as it
is. -/
def loadContent (load : Value → Reader → Loaded Value) (value : Value) (ar : Reader) :
    Option Kind → Loaded Value
  | none => some (value, ar)
  | some .null => some (.null, ar)
  | some .bool => ((Codec.word 1).decode ar).map fun out => (.bool (out.1 != 0), out.2)
  | some .int64 => ((Codec.word 8).decode ar).map fun out => (.int64 out.1, out.2)
  | some .uint64 => ((Codec.word 8).decode ar).map fun out => (.uint64 out.1, out.2)
  | some .double => ((Codec.word 8).decode ar).map fun out => (.double out.1, out.2)
  | some .string => (loadString [] ar).map fun out => (.string out.1, out.2)
  | some .array => (loadArrayWith load [] ar).map fun out => (.array out.1, out.2)
  | some .object => (loadObjectWith load [] ar).map fun out => (.object out.1, out.2)

/-- Load a `bj::value` that nests at most `depth` deep. -/
def loadValue : ℕ → Value → Reader → Loaded Value
  | 0, _, _ => none
  | depth + 1, value, ar =>
      ((Codec.word 1).decode ar).bind fun kind =>
        loadContent (loadValue depth) value kind.2 (Kind.find kind.1)

/-- **Load a `bj::value`**, where the number of bytes left bounds the depth. -/
def Value.load (value : Value) (ar : Reader) : Loaded Value :=
  loadValue ar.rest.length value ar

/-- **Load a `bj::array`**, which appends the items to those the target holds. -/
def loadArray (array : List Value) (ar : Reader) : Loaded (List Value) :=
  loadArrayWith (loadValue ar.rest.length) array ar

/-- **Load a `bj::object`**, which emplaces the entries into those the target holds. -/
def loadObject (object : List (Chars × Value)) (ar : Reader) : Loaded (List (Chars × Value)) :=
  loadObjectWith (loadValue ar.rest.length) object ar

/-! ## Values there are -/

mutual

/-- **A `bj::value` that can be held in memory**: sizes are of type `size_t`, and the keys of an
object are different. -/
def Value.Valid : Value → Prop
  | .string chars => chars.length < 2 ^ 64
  | .array items => items.length < 2 ^ 64 ∧ ValidItems items
  | .object entries =>
      entries.length < 2 ^ 64 ∧ (entries.map Prod.fst).Nodup ∧ ValidEntries entries
  | _ => True

def ValidItems : List Value → Prop
  | [] => True
  | item :: items => item.Valid ∧ ValidItems items

def ValidEntries : List (Chars × Value) → Prop
  | [] => True
  | (key, value) :: entries => key.length < 2 ^ 64 ∧ value.Valid ∧ ValidEntries entries

end

/-- A `bj::array` that can be held in memory. -/
def ValidArray (array : List Value) : Prop :=
  array.length < 2 ^ 64 ∧ ValidItems array

/-- A `bj::object` that can be held in memory. -/
def ValidObject (object : List (Chars × Value)) : Prop :=
  object.length < 2 ^ 64 ∧ (object.map Prod.fst).Nodup ∧ ValidEntries object

end YGM.Json
