import YGM.Json.Model

/-!
# JSON values come back

What is saved of a value is read back as that value, with the same kind everywhere and the
keys of every object in their order, whatever the target had and whatever follows in the
archive (`json_round_trip`).  The proof follows the structure of the value: a loop that
loads the items of an array, or the entries of an object, adds them to what its target has
(`reads_items`, `reads_entries`), and the loader of values starts these loops with nothing.

The loaders of arrays and objects are also functions of their own, which can be given a
target that is not empty.  Then they add to it: their result is what was saved exactly if
the array was empty, or if the object had a first part of the entries and no others
(`loaders_replace_iff`, `array_keeps_items`).
-/

namespace YGM.Json

/-! ## Sizes and strings -/

theorem saveKind_length (kind : Kind) : (saveKind kind).length = 1 :=
  Codec.word_length 1 _

theorem reads_size {size : ℕ} (short : size < 2 ^ 64) : Reads loadSize (saveSize size) size := by
  have reads := ((Codec.word 8).reads (BitVec.ofNat 64 size)).map BitVec.toNat
  rwa [BitVec.toNat_ofNat, Nat.mod_eq_of_lt short] at reads

/-- Bytes that are copied to the front of a string resized to their number replace the whole
string. -/
theorem overwrite_resize (str bytes : Chars) :
    overwrite (resize str bytes.length) bytes = bytes := by
  have filled : (resize str bytes.length).length = bytes.length := by
    rw [resize, List.length_append, List.length_take, List.length_replicate]
    omega
  rw [overwrite, List.drop_eq_nil_of_le filled.le, List.append_nil]

theorem reads_chars (chars : Chars) : Reads (fun ar => ar.load chars.length) chars chars :=
  fun _ _ ahead => Reader.load_append ahead

/-- **A saved string is read back** into any target, whose former characters are all replaced. -/
theorem reads_string (str : Chars) {chars : Chars} (short : chars.length < 2 ^ 64) :
    Reads (loadString str) (saveString chars) chars := by
  have filled := (reads_chars chars).map fun bytes => overwrite (resize str chars.length) bytes
  rw [overwrite_resize] at filled
  exact (reads_size short).bind filled

/-! ## Entries of an object -/

/-- The object after all entries of a list have been emplaced, one after the other. -/
def emplaceAll (object entries : List (Chars × Value)) : List (Chars × Value) :=
  entries.foldl (fun object entry => emplace object entry.1 entry.2) object

/-- Emplacing entries with different keys appends those entries whose key the object does not
have. -/
theorem emplaceAll_eq {entries : List (Chars × Value)} (keys : (entries.map Prod.fst).Nodup)
    (object : List (Chars × Value)) :
    emplaceAll object entries
      = object ++ entries.filter fun entry => entry.1 ∉ object.map Prod.fst := by
  induction entries generalizing object with
  | nil => simp [emplaceAll]
  | cons entry entries ih =>
      rw [List.map_cons, List.nodup_cons] at keys
      have next : emplaceAll object (entry :: entries)
          = emplaceAll (emplace object entry.1 entry.2) entries := rfl
      rw [next, ih keys.2]
      by_cases here : entry.1 ∈ object.map Prod.fst
      · rw [emplace, if_pos here, List.filter_cons_of_neg (by simpa using here)]
      · have others : entries.filter (fun e => e.1 ∉ (object ++ [(entry.1, entry.2)]).map Prod.fst)
            = entries.filter fun e => e.1 ∉ object.map Prod.fst := by
          refine List.filter_congr fun e he => ?_
          have apart : e.1 ≠ entry.1 := fun same => keys.1 (same ▸ List.mem_map_of_mem he)
          simp [apart]
        rw [emplace, if_neg here, others, List.append_assoc,
          List.filter_cons_of_pos (by simpa using here)]
        rfl

theorem emplaceAll_nil {entries : List (Chars × Value)} (keys : (entries.map Prod.fst).Nodup) :
    emplaceAll [] entries = entries := by
  rw [emplaceAll_eq keys]
  simp

/-- Emplacing entries with different keys into an object gives exactly these entries if and only
if the object is a prefix of them. -/
theorem emplaceAll_eq_iff {entries : List (Chars × Value)} (keys : (entries.map Prod.fst).Nodup)
    (object : List (Chars × Value)) : emplaceAll object entries = entries ↔ object <+: entries := by
  rw [emplaceAll_eq keys]
  constructor
  · intro same
    exact ⟨_, same⟩
  · rintro ⟨rest, rfl⟩
    have first : object.filter (fun entry => entry.1 ∉ object.map Prod.fst) = [] := by
      refine List.filter_eq_nil_iff.mpr fun entry here => ?_
      simpa using ⟨entry.2, here⟩
    have others : rest.filter (fun entry => entry.1 ∉ object.map Prod.fst) = rest := by
      rw [List.map_append] at keys
      refine List.filter_eq_self.mpr fun entry here => ?_
      have apart := (List.nodup_append.mp keys).2.2
      simp only [decide_eq_true_eq]
      intro there
      exact apart _ there _ (List.mem_map_of_mem here) rfl
    rw [List.filter_append, first, others, List.nil_append]

/-! ## Values -/

/-- If a loader reads `content` as a value after its kind, it reads the byte of the kind and
then `content` as this value. -/
theorem reads_kind {kind : Kind} {depth : ℕ} {target value : Value} {content : List UInt8}
    (reads : Reads (fun ar => loadContent (loadValue depth) target ar (some kind)) content value) :
    Reads (loadValue (depth + 1) target) (saveKind kind ++ content) value := by
  refine ((Codec.word 1).reads kind.code).bind ?_
  show Reads (fun ar => loadContent (loadValue depth) target ar (Kind.find kind.code)) content value
  rw [Kind.find_code]
  exact reads

/-- Bytes that begin with a kind need a depth of at least one, and leave enough depth for the
bytes behind the kind. -/
theorem exists_depth {kind : Kind} {content : List UInt8} {depth : ℕ}
    (long : (saveKind kind ++ content).length ≤ depth) :
    ∃ depth', depth = depth' + 1 ∧ content.length ≤ depth' := by
  rw [List.length_append, saveKind_length] at long
  exact ⟨depth - 1, by omega, by omega⟩

/-- A saved array is read back behind the items its target has, if the loop reads back its
items. -/
theorem reads_array {load : Value → Reader → Loaded Value} {array items : List Value}
    (short : items.length < 2 ^ 64) (loop : Reads (loadItems load items.length array)
      (saveItems items) (array ++ items)) :
    Reads (loadArrayWith load array) (saveArray items) (array ++ items) :=
  (reads_size short).bind loop

/-- A saved object is read back by emplacing its entries into the target, if the loop reads back
its entries. -/
theorem reads_object {load : Value → Reader → Loaded Value} {object entries : List (Chars × Value)}
    (short : entries.length < 2 ^ 64) (loop : Reads (loadEntries load entries.length [] object)
      (saveEntries entries) (emplaceAll object entries)) :
    Reads (loadObjectWith load object) (saveObject entries) (emplaceAll object entries) :=
  (reads_size short).bind loop

mutual

/-- **A saved value is read back** into any target, with a depth that is at least the number of
its bytes. -/
theorem reads_value : ∀ {value : Value}, value.Valid → ∀ {depth : ℕ}, value.save.length ≤ depth →
    ∀ target, Reads (loadValue depth target) value.save value
  | .null, _, depth, long, target => by
      obtain ⟨depth, rfl, -⟩ := @exists_depth .null [] depth ((List.append_nil _).symm ▸ long)
      have reads : Reads (loadValue (depth + 1) target) (saveKind .null ++ []) .null :=
        reads_kind (.nothing _)
      rwa [List.append_nil] at reads
  | .bool b, _, depth, long, target => by
      obtain ⟨depth, rfl, -⟩ := exists_depth long
      have reads := ((Codec.word 1).reads (if b then 1 else 0)).map fun x => Value.bool (x != 0)
      refine reads_kind ?_
      cases b <;> exact reads
  | .int64 x, _, depth, long, target => by
      obtain ⟨depth, rfl, -⟩ := exists_depth long
      exact reads_kind (((Codec.word 8).reads x).map Value.int64)
  | .uint64 x, _, depth, long, target => by
      obtain ⟨depth, rfl, -⟩ := exists_depth long
      exact reads_kind (((Codec.word 8).reads x).map Value.uint64)
  | .double bits, _, depth, long, target => by
      obtain ⟨depth, rfl, -⟩ := exists_depth long
      exact reads_kind (((Codec.word 8).reads bits).map Value.double)
  | .string chars, valid, depth, long, target => by
      obtain ⟨depth, rfl, -⟩ := exists_depth long
      exact reads_kind ((reads_string [] valid).map Value.string)
  | .array items, ⟨short, valid⟩, depth, long, target => by
      obtain ⟨depth, rfl, enough⟩ := exists_depth long
      rw [List.length_append] at enough
      have loop := reads_items valid (Nat.le_of_add_left_le enough) []
      exact reads_kind ((reads_array short loop).map Value.array)
  | .object entries, ⟨short, keys, valid⟩, depth, long, target => by
      obtain ⟨depth, rfl, enough⟩ := exists_depth long
      rw [List.length_append] at enough
      have loop := reads_entries valid (Nat.le_of_add_left_le enough) [] []
      have reads := reads_object short loop
      rw [emplaceAll_nil keys] at reads
      exact reads_kind (reads.map Value.object)

/-- Saved items are read back behind the items that the target array has. -/
theorem reads_items : ∀ {items : List Value}, ValidItems items → ∀ {depth : ℕ},
    (saveItems items).length ≤ depth → ∀ array,
      Reads (loadItems (loadValue depth) items.length array) (saveItems items) (array ++ items)
  | [], _, depth, _, array => by
      rw [List.append_nil]
      exact .nothing array
  | item :: items, ⟨valid, others⟩, depth, long, array => by
      rw [saveItems, List.length_append] at long
      have first : Reads (loadValue depth .null) item.save item :=
        reads_value valid (by omega) .null
      have rest : Reads (loadItems (loadValue depth) items.length (array ++ [item]))
          (saveItems items) (array ++ [item] ++ items) := reads_items others (by omega) _
      rw [List.append_assoc] at rest
      exact first.bind rest

/-- Saved entries are read back by emplacing them into the entries that the target object has. -/
theorem reads_entries : ∀ {entries : List (Chars × Value)}, ValidEntries entries → ∀ {depth : ℕ},
    (saveEntries entries).length ≤ depth → ∀ key object,
      Reads (loadEntries (loadValue depth) entries.length key object) (saveEntries entries)
        (emplaceAll object entries)
  | [], _, _, _, _, object => .nothing object
  | (key, value) :: entries, ⟨short, valid, others⟩, depth, long, buffer, object => by
      rw [saveEntries, List.length_append, List.length_append] at long
      have first : Reads (loadValue depth .null) value.save value :=
        reads_value valid (by omega) .null
      have rest : Reads (loadEntries (loadValue depth) entries.length key
          (emplace object key value)) (saveEntries entries)
            (emplaceAll (emplace object key value) entries) := reads_entries others (by omega) _ _
      have both : Reads (fun ar => (loadValue depth .null ar).bind fun out =>
          loadEntries (loadValue depth) entries.length key (emplace object key out.1) out.2)
            (value.save ++ saveEntries entries) (emplaceAll (emplace object key value) entries) :=
        first.bind rest
      exact (reads_string buffer short).bind both

end

/-- If a loader reads the bytes at every depth that is at least their number, it reads them at
the depth given by the bytes left in the archive. -/
theorem Reads.ahead {T : Type} (load : ℕ → Reader → Loaded T) {bytes : List UInt8} {x : T}
    (reads : ∀ depth, bytes.length ≤ depth → Reads (load depth) bytes x) :
    Reads (fun ar => load ar.rest.length ar) bytes x := by
  intro ar more ahead
  refine reads _ ?_ ar more ahead
  rw [ahead, List.length_append]
  exact Nat.le_add_right _ _

theorem load_value {value : Value} (valid : value.Valid) (target : Value) :
    Reads target.load value.save value :=
  Reads.ahead (loadValue · target) fun _ enough => reads_value valid enough target

theorem load_array {array : List Value} (valid : ValidArray array) (target : List Value) :
    Reads (loadArray target) (saveArray array) (target ++ array) := by
  refine Reads.ahead (fun depth => loadArrayWith (loadValue depth) target) fun depth enough => ?_
  rw [saveArray, List.length_append] at enough
  exact reads_array valid.1 (reads_items valid.2 (Nat.le_of_add_left_le enough) target)

theorem load_object {object : List (Chars × Value)} (valid : ValidObject object)
    (target : List (Chars × Value)) :
    Reads (loadObject target) (saveObject object) (emplaceAll target object) := by
  refine Reads.ahead (fun depth => loadObjectWith (loadValue depth) target) fun depth enough => ?_
  rw [saveObject, List.length_append] at enough
  exact reads_object valid.1 (reads_entries valid.2.2 (Nat.le_of_add_left_le enough) [] target)

/-- **The round trip of JSON values.**  What was saved of a value is loaded into any target
as that value, and the archive is at the first byte after it. -/
theorem json_round_trip {value : Value} (valid : value.Valid) (target : Value) {ar : Reader}
    {more : List UInt8} (ahead : ar.rest = value.save ++ more) :
    ∃ ar', target.load ar = some (value, ar') ∧ ar'.data = ar.data ∧
      ar'.position = ar.position + value.save.length ∧ ar'.rest = more := by
  obtain ⟨ar', loaded, advanced⟩ := load_value valid target ar more ahead
  exact ⟨ar', loaded, advanced.data, advanced.position, advanced.rest_append ahead⟩

/-- An object with an array of both kinds of integers and an empty string, and with an empty
object under the empty key. -/
def nested : Value :=
  .object [([0x61], .array [.null, .int64 5, .uint64 5, .string []]), ([], .object [])]

theorem nested_valid : nested.Valid :=
  ⟨by decide, by decide, by decide,
    ⟨by decide, trivial, trivial, trivial, Nat.two_pow_pos 64, trivial⟩,
    by decide, ⟨by decide, by decide, trivial⟩, trivial⟩

/-- The saved object is read back into a string, behind one byte and in front of two. -/
theorem json_round_trip_nested :
    ∃ ar', (Value.string [1]).load ⟨[9] ++ (nested.save ++ [7, 8]), 1, by decide⟩
        = some (nested, ar') ∧ ar'.position = 1 + nested.save.length ∧ ar'.rest = [7, 8] := by
  have ahead : (⟨[9] ++ (nested.save ++ [7, 8]), 1, by decide⟩ : Reader).rest
      = nested.save ++ [7, 8] := rfl
  obtain ⟨ar', loaded, -, position, rest⟩ := json_round_trip nested_valid (.string [1]) ahead
  exact ⟨ar', loaded, position, rest⟩

/-! ## Targets that are not empty -/

/-- **A loader replaces its targets**: what was saved of `x` is read as `x`, into the one
and into the other. -/
def Replaces {T : Type} (load : T → Reader → Loaded T) (save : T → List UInt8)
    (x target target' : T) : Prop :=
  Reads (load target) (save x) x ∧ Reads (load target') (save x) x

/-- A load that reads the bytes as `y` reads them as `x` exactly if `y` is `x`. -/
theorem Reads.iff {T : Type} {load : Reader → Loaded T} {bytes : List UInt8} {y : T}
    (reads : Reads load bytes y) (x : T) : Reads load bytes x ↔ y = x := by
  constructor
  · intro other
    exact reads.unique other
  · rintro rfl
    exact reads

/-- The four types of the JSON library that have a loader. -/
inductive Loadable
  | value
  | string
  | array
  | object

namespace Loadable

/-- The type of the values that a loader reads. -/
def Content : Loadable → Type
  | .value => Value
  | .string => Chars
  | .array => List Value
  | .object => List (Chars × Value)

def load : (l : Loadable) → l.Content → Reader → Loaded l.Content
  | .value => Value.load
  | .string => loadString
  | .array => loadArray
  | .object => loadObject

def save : (l : Loadable) → l.Content → List UInt8
  | .value => Value.save
  | .string => saveString
  | .array => saveArray
  | .object => saveObject

/-- The values of a type that can be held in memory. -/
def Valid : (l : Loadable) → l.Content → Prop
  | .value => Value.Valid
  | .string => fun chars => chars.length < 2 ^ 64
  | .array => ValidArray
  | .object => ValidObject

/-- **The targets a loader replaces** when it reads `x`: those of values and strings always,
that of an array if it is empty, and that of an object if it has a first part of the entries. -/
def Fresh : (l : Loadable) → l.Content → l.Content → Prop
  | .value, _, _ | .string, _, _ => True
  | .array, _, target => target = []
  | .object, x, target => target <+: x

end Loadable

theorem replaces_array_iff {array : List Value} (valid : ValidArray array)
    (target target' : List Value) :
    Replaces loadArray saveArray array target target' ↔ target = [] ∧ target' = [] := by
  rw [Replaces, Reads.iff (load_array valid target), Reads.iff (load_array valid target'),
    List.append_left_eq_self, List.append_left_eq_self]

theorem replaces_object_iff {object : List (Chars × Value)} (valid : ValidObject object)
    (target target' : List (Chars × Value)) :
    Replaces loadObject saveObject object target target' ↔
      target <+: object ∧ target' <+: object := by
  rw [Replaces, Reads.iff (load_object valid target), Reads.iff (load_object valid target'),
    emplaceAll_eq_iff valid.2.1, emplaceAll_eq_iff valid.2.1]

/-- **A loader replaces its targets if and only if both are such targets**, for each of the four
loaders, every value that can be held in memory, and any two targets. -/
theorem loaders_replace_iff (l : Loadable) {x : l.Content} (valid : l.Valid x)
    (target target' : l.Content) :
    Replaces l.load l.save x target target' ↔ l.Fresh x target ∧ l.Fresh x target' := by
  cases l with
  | value => exact iff_of_true ⟨load_value valid target, load_value valid target'⟩ ⟨trivial, trivial⟩
  | string =>
      exact iff_of_true ⟨reads_string target valid, reads_string target' valid⟩ ⟨trivial, trivial⟩
  | array => exact replaces_array_iff valid target target'
  | object => exact replaces_object_iff valid target target'

/-- The object with the keys `k` and `l` is loaded as itself into the empty object and into the
object that has its first entry only. -/
theorem loaders_replace_iff_part :
    Replaces loadObject saveObject [([0x6b], .int64 2), ([0x6c], .null)] []
      [([0x6b], .int64 2)] := by
  have valid : ValidObject [([0x6b], .int64 2), ([0x6c], .null)] :=
    ⟨by decide, by decide, by decide, trivial, by decide, trivial, trivial⟩
  have first : [(([0x6b], .int64 2) : Chars × Value)] <+: [([0x6b], .int64 2), ([0x6c], .null)] :=
    List.prefix_append [_] [_]
  exact (loaders_replace_iff .object valid [] [([0x6b], .int64 2)]).mpr ⟨List.nil_prefix, first⟩

/-- **A loaded array keeps the items and a loaded object the entries of its target**: the array
`[null]` is loaded into `[true]` as `[true, null]`, and an object with the value 2 of a key into
one with the value 1 of this key as the latter. -/
theorem array_keeps_items :
    ¬ Replaces loadArray saveArray [.null] [] [.bool true] ∧
      Reads (loadArray [.bool true]) (saveArray [.null]) [.bool true, .null] ∧
      ¬ Replaces loadObject saveObject [([0x6b], .int64 2)] [] [([0x6b], .int64 1)] ∧
      Reads (loadObject [([0x6b], .int64 1)]) (saveObject [([0x6b], .int64 2)])
        [([0x6b], .int64 1)] := by
  have validArray : ValidArray [.null] := ⟨by decide, trivial, trivial⟩
  have validObject : ValidObject [([0x6b], .int64 2)] :=
    ⟨by decide, by decide, by decide, trivial, trivial⟩
  have array := load_array validArray [.bool true]
  have object := load_object validObject [([0x6b], .int64 1)]
  refine ⟨fun replaces => ?_, array, fun replaces => ?_, object⟩
  · cases array.unique replaces.2
  · cases object.unique replaces.2

end YGM.Json
