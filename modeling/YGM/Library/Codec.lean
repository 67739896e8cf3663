import Mathlib.Data.List.Basic
import Mathlib.Tactic.Ring

/-!
# Self-delimiting codecs

Bytes are read from an archive that knows its capacity and its position (`Reader`), and a
read beyond the capacity fails.  A `Codec` writes a value and reads it back: whatever
bytes follow what it has written, it reads the same value and stops right behind its own
bytes (`Codec.round`, `Reads`).  So values written one after the other need no separator, and the
combinators below keep that property.

* `Codec.word`: a number of fixed width, little-endian.
* `Codec.unit`, `Codec.pair`: the parts, one after the other.
* `Codec.via`: a value in the place of another one.
* `Codec.collection`: the number of elements, then the elements.
-/

namespace YGM

/-! ## Archives -/

/-- **An input archive**: the bytes of a buffer and the position up to which they have been
read, which never passes the end of the buffer. -/
structure Reader where
  data : List UInt8
  position : ℕ
  within : position ≤ data.length

namespace Reader

variable (ar : Reader)

/-- The archive over a buffer of which no byte has been read. -/
def ofData (data : List UInt8) : Reader :=
  ⟨data, 0, Nat.zero_le _⟩

/-- The bytes of the buffer that have not been read. -/
def rest : List UInt8 :=
  ar.data.drop ar.position

/-- Whether all bytes of the buffer have been read. -/
def empty : Bool :=
  ar.position == ar.data.length

/-- Read `size` bytes and move the position behind them, or fail if the buffer has fewer bytes
left. -/
def load (size : ℕ) : Option (List UInt8 × Reader) :=
  if h : ar.position + size ≤ ar.data.length then
    some (ar.rest.take size, ⟨ar.data, ar.position + size, h⟩)
  else none

/-- The archive `ar'` is the archive `ar` after a read of `size` bytes: the buffer is the same
and the position is `size` further. -/
structure Advanced (size : ℕ) (ar' : Reader) : Prop where
  data : ar'.data = ar.data
  position : ar'.position = ar.position + size

variable {ar} {ar' ar'' : Reader} {size size' : ℕ}

theorem Advanced.zero : ar.Advanced 0 ar :=
  ⟨rfl, rfl⟩

theorem Advanced.trans (h : ar.Advanced size ar') (h' : ar'.Advanced size' ar'') :
    ar.Advanced (size + size') ar'' :=
  ⟨h'.data.trans h.data, by rw [h'.position, h.position, Nat.add_assoc]⟩

theorem Advanced.rest (h : ar.Advanced size ar') : ar'.rest = ar.rest.drop size := by
  simp [Reader.rest, h.data, h.position]

/-- If the archive started with `bytes` and then `more`, and has advanced by the length of
`bytes`, it now starts with `more`. -/
theorem Advanced.rest_append {bytes more : List UInt8} (h : ar.Advanced bytes.length ar')
    (ahead : ar.rest = bytes ++ more) : ar'.rest = more := by
  rw [h.rest, ahead, List.drop_left]

theorem load_append {bytes more : List UInt8} (ahead : ar.rest = bytes ++ more) :
    ∃ ar', ar.load bytes.length = some (bytes, ar') ∧ ar.Advanced bytes.length ar' := by
  have long := congrArg List.length ahead
  rw [Reader.rest, List.length_drop, List.length_append] at long
  have within := ar.within
  refine ⟨⟨ar.data, ar.position + bytes.length, by omega⟩, ?_, rfl, rfl⟩
  rw [load, dif_pos (by omega), ahead, List.take_left]

theorem empty_iff : ar.empty = true ↔ ar.rest = [] := by
  have within := ar.within
  rw [empty, beq_iff_eq, Reader.rest, List.drop_eq_nil_iff]
  omega

end Reader

/-! ## Loads -/

/-- **A load reads `bytes` as `x`**: on every archive that starts with these bytes it returns
`x`, whatever follows the bytes, and stops right behind them. -/
def Reads {α : Type} (load : Reader → Option (α × Reader)) (bytes : List UInt8) (x : α) : Prop :=
  ∀ (ar : Reader) (more : List UInt8), ar.rest = bytes ++ more →
    ∃ ar', load ar = some (x, ar') ∧ ar.Advanced bytes.length ar'

namespace Reads

variable {α β : Type} {load : Reader → Option (α × Reader)} {bytes bytes' : List UInt8} {x : α}

theorem nothing (x : α) : Reads (fun ar => some (x, ar)) [] x :=
  fun ar _ _ => ⟨ar, rfl, .zero⟩

theorem map (h : Reads load bytes x) (f : α → β) :
    Reads (fun ar => (load ar).map fun out => (f out.1, out.2)) bytes (f x) := by
  intro ar more ahead
  obtain ⟨ar', loaded, advanced⟩ := h ar more ahead
  refine ⟨ar', ?_, advanced⟩
  show (load ar).map _ = _
  rw [loaded]
  rfl

/-- **One load after another**: if the first reads `bytes` as `x` and the second, given `x`,
reads `bytes'` as `y`, the two in sequence read `bytes ++ bytes'` as `y`. -/
theorem bind (h : Reads load bytes x) {next : α × Reader → Option (β × Reader)} {y : β}
    (h' : Reads (fun ar => next (x, ar)) bytes' y) :
    Reads (fun ar => (load ar).bind next) (bytes ++ bytes') y := by
  intro ar more ahead
  rw [List.append_assoc] at ahead
  obtain ⟨ar', first, advanced⟩ := h ar _ ahead
  obtain ⟨ar'', second, advanced'⟩ := h' ar' more (advanced.rest_append ahead)
  refine ⟨ar'', ?_, ?_⟩
  · show (load ar).bind next = _
    rw [first]
    exact second
  · rw [List.length_append]
    exact advanced.trans advanced'

/-- A load that reads the same bytes as two values reads them as one value, so the two are
equal. -/
theorem unique {y : α} (h : Reads load bytes x) (h' : Reads load bytes y) : x = y := by
  have ahead : (Reader.ofData bytes).rest = bytes ++ [] := by
    simp [Reader.rest, Reader.ofData]
  obtain ⟨ar, first, -⟩ := h _ _ ahead
  obtain ⟨ar', second, -⟩ := h' _ _ ahead
  rw [first] at second
  cases second
  rfl

end Reads

/-! ## Codecs -/

/-- **A codec**: an encoder and a decoder, with the proof that the decoder reads the bytes of
every value back as this value and stops right behind them. -/
structure Codec (α : Type) where
  encode : α → List UInt8
  decode : Reader → Option (α × Reader)
  round : ∀ (x : α) (ar : Reader) (more : List UInt8), ar.rest = encode x ++ more →
    ∃ ar', decode ar = some (x, ar') ∧ ar.Advanced (encode x).length ar'

namespace Codec

variable {α β : Type}

theorem reads (c : Codec α) (x : α) : Reads c.decode (c.encode x) x :=
  c.round x

/-- The last `width` digits of a number to the base 256, the least significant digit first. -/
def digits : ℕ → ℕ → List UInt8
  | 0, _ => []
  | width + 1, x => UInt8.ofNat x :: digits width (x / 256)

/-- The number with these digits to the base 256, the least significant digit first. -/
def number : List UInt8 → ℕ
  | [] => 0
  | byte :: bytes => byte.toNat + 256 * number bytes

@[simp] theorem digits_length (width x : ℕ) : (digits width x).length = width := by
  induction width generalizing x with
  | zero => rfl
  | succ width ih => simp [digits, ih]

theorem number_digits (width x : ℕ) : number (digits width x) = x % 256 ^ width := by
  induction width generalizing x with
  | zero => simp [digits, number, Nat.mod_one]
  | succ width ih =>
      have low : (UInt8.ofNat x).toNat = x % 256 := by simp
      rw [digits, number, ih, low, pow_succ', Nat.mod_mul]

/-- **A number of `width` bytes**, stored with its least significant byte first. -/
def word (width : ℕ) : Codec (BitVec (8 * width)) where
  encode x := digits width x.toNat
  decode ar := (ar.load width).map fun out => (BitVec.ofNat (8 * width) (number out.1), out.2)
  round x ar more ahead := by
    obtain ⟨ar', loaded, advanced⟩ := Reader.load_append ahead
    refine ⟨ar', ?_, advanced⟩
    rw [digits_length] at loaded
    have bound : x.toNat < 256 ^ width := by
      have := x.isLt
      rwa [pow_mul, show (2 : ℕ) ^ 8 = 256 from rfl] at this
    simp [loaded, number_digits, Nat.mod_eq_of_lt bound]

@[simp] theorem word_length (width : ℕ) (x : BitVec (8 * width)) :
    ((word width).encode x).length = width :=
  digits_length width x.toNat

/-- **The only value of `Unit`**, stored in no bytes. -/
def unit : Codec Unit where
  encode _ := []
  decode ar := some ((), ar)
  round _ ar _ _ := ⟨ar, rfl, .zero⟩

/-- **Two values, one after the other**, each stored by its own codec. -/
def pair (c : Codec α) (d : Codec β) : Codec (α × β) where
  encode x := c.encode x.1 ++ d.encode x.2
  decode ar :=
    (c.decode ar).bind fun out => (d.decode out.2).map fun out' => ((out.1, out'.1), out'.2)
  round x ar more ahead := by
    rw [List.append_assoc] at ahead
    obtain ⟨ar', first, advanced⟩ := c.round x.1 ar _ ahead
    obtain ⟨ar'', second, advanced'⟩ := d.round x.2 ar' _ (advanced.rest_append ahead)
    refine ⟨ar'', by simp [first, second], ?_⟩
    rw [List.length_append]
    exact advanced.trans advanced'

/-- **A value stored as a value of another type**, from which `restore` gives it back. -/
def via (c : Codec α) (store : β → α) (restore : α → β) (restored : ∀ x, restore (store x) = x) :
    Codec β where
  encode x := c.encode (store x)
  decode ar := (c.decode ar).map fun out => (restore out.1, out.2)
  round x := by
    have reads := (c.reads (store x)).map restore
    rw [restored] at reads
    exact reads

/-- Read `count` values, one after the other, and fail if a read fails. -/
def decodeMany (c : Codec α) : ℕ → Reader → Option (List α × Reader)
  | 0, ar => some ([], ar)
  | count + 1, ar =>
      (c.decode ar).bind fun out =>
        (decodeMany c count out.2).map fun out' => (out.1 :: out'.1, out'.2)

theorem decodeMany_round (c : Codec α) (xs : List α) (ar : Reader) (more : List UInt8)
    (ahead : ar.rest = xs.flatMap c.encode ++ more) :
    ∃ ar', c.decodeMany xs.length ar = some (xs, ar') ∧
      ar.Advanced (xs.flatMap c.encode).length ar' := by
  induction xs generalizing ar with
  | nil => exact ⟨ar, rfl, .zero⟩
  | cons x xs ih =>
      rw [List.flatMap_cons, List.append_assoc] at ahead
      obtain ⟨ar', first, advanced⟩ := c.round x ar _ ahead
      obtain ⟨ar'', others, advanced'⟩ := ih ar' (advanced.rest_append ahead)
      refine ⟨ar'', by simp [decodeMany, first, others], ?_⟩
      rw [List.flatMap_cons, List.length_append]
      exact advanced.trans advanced'

/-- **A collection**: the number of its elements as a `size` tag of eight bytes, then the
elements one after the other; `build` makes the collection from its elements. -/
def collection (c : Codec α) (elements : β → List α) (build : List α → Option β)
    (short : ∀ x, (elements x).length < 2 ^ 64) (rebuilt : ∀ x, build (elements x) = some x) :
    Codec β where
  encode x := (word 8).encode (BitVec.ofNat 64 (elements x).length)
    ++ (elements x).flatMap c.encode
  decode ar :=
    ((word 8).decode ar).bind fun size =>
      (c.decodeMany size.1.toNat size.2).bind fun out =>
        (build out.1).map fun x => (x, out.2)
  round x ar more ahead := by
    rw [List.append_assoc] at ahead
    obtain ⟨ar', size, advanced⟩ := (word 8).round _ ar _ ahead
    obtain ⟨ar'', all, advanced'⟩ :=
      c.decodeMany_round (elements x) ar' more (advanced.rest_append ahead)
    have count : (BitVec.ofNat 64 (elements x).length).toNat = (elements x).length := by
      rw [BitVec.toNat_ofNat, Nat.mod_eq_of_lt (short x)]
    refine ⟨ar'', ?_, ?_⟩
    · simp only [size, Option.bind_some, count, all, rebuilt, Option.map_some]
    · rw [List.length_append]
      exact advanced.trans advanced'

end Codec

end YGM
