import YGM.Library.Codec
import YGM.Comm.Model
import Mathlib.Data.List.TakeWhile

/-!
# What is in a buffer

This file is `pack_lambda` and the parse loop of `receive_queue_process` in
`include/ygm/detail/comm_impl.hpp`, over the archives of
`include/ygm/detail/ygm_cereal_archive.hpp`.

A message has no length: it is the distance of its handler from `reference`, and the
arguments.  The types of the arguments (`Ty`) are nested to any depth, and each comes
with its values and with a codec for them (`Ty.sem`); containers are saved as a size tag
followed by their elements.  The receiver adds the address of its own `reference` and
calls what is there, which reads the arguments from the same archive.

`stream_round_trip` is about whole buffers: every handler is called with the arguments
that were packed, reads exactly the bytes of its own message, and the loop ends at the
capacity of the archive.
-/

namespace YGM

/-! ## Argument types -/

/-- **The types that can be packed.**  An arithmetic type has its `sizeof` and its `<`; a
value of it is its object representation. -/
inductive Ty
  | arithmetic (size : ℕ) (less : BitVec (8 * size) → BitVec (8 * size) → Bool)
  /-- `ygm_ptr<T>`: the index of type `uint32_t`. -/
  | ygmPtr
  | string
  | vector (element : Ty)
  | tuple (elements : List Ty)
  | map (key value : Ty)
  | set (key : Ty)

/-- The order that `std::lexicographical_compare` computes on two sequences from an order on
their elements. -/
def lexLess {α : Type} (less : α → α → Bool) : List α → List α → Bool
  | _, [] => false
  | [], _ :: _ => true
  | x :: xs, y :: ys => less x y || (!less y x && lexLess less xs ys)

/-- The meaning of a type: its values, `std::less` on them, and how the archives save and load
them. -/
structure Sem where
  Val : Type
  less : Val → Val → Bool
  codec : Codec Val

/-- A list whose length can be given as a `size_t`. -/
abbrev Sized (α : Type) : Type :=
  { xs : List α // xs.length < 2 ^ 64 }

/-- The elements of a `std::map` or a `std::set` in the order of the container, without
equivalent ones. -/
abbrev Sorted {α : Type} (less : α → α → Bool) : Type :=
  { xs : List α // xs.Pairwise (fun x y => less x y = true) ∧ xs.length < 2 ^ 64 }

/-- An ordered container after `emplace_hint`: the new element is in its place, unless an
equivalent element is there. -/
def emplace {α : Type} (less : α → α → Bool) (xs : List α) (x : α) : List α :=
  let before := xs.takeWhile (less · x)
  match xs.dropWhile (less · x) with
  | [] => before ++ [x]
  | y :: after => if less x y then before ++ x :: y :: after else xs

/-- Elements that come in order are put at the end of the container, one after the other. -/
theorem foldl_emplace {α : Type} (less : α → α → Bool) {xs ys : List α}
    (sorted : (xs ++ ys).Pairwise (fun x y => less x y = true)) :
    ys.foldl (emplace less) xs = xs ++ ys := by
  induction ys generalizing xs with
  | nil => simp
  | cons y ys ih =>
      have first : ∀ x ∈ xs, less x y = true := fun x hx =>
        (List.pairwise_append.mp sorted).2.2 x hx y (by simp)
      have put : emplace less xs y = xs ++ [y] := by
        simp [emplace, List.takeWhile_eq_self_iff.mpr first, List.dropWhile_eq_nil_iff.mpr first]
      rw [List.foldl_cons, put, ih (by simpa using sorted)]
      simp

/-- The codec that `cereal` makes of an element's codec for a `std::vector` or a `std::string`:
a size tag and the elements. -/
def Codec.sized {α : Type} (c : Codec α) : Codec (Sized α) :=
  c.collection Subtype.val (fun xs => if h : xs.length < 2 ^ 64 then some ⟨xs, h⟩ else none)
    Subtype.property fun xs => dif_pos xs.property

/-- The codec that `cereal` makes of an element's codec for a `std::map` or a `std::set`: a size
tag and the elements, which are inserted one by one when they are loaded. -/
def Codec.sorted {α : Type} (c : Codec α) (less : α → α → Bool) : Codec (Sorted less) :=
  c.collection Subtype.val
    (fun xs =>
      let all := xs.foldl (emplace less) []
      if h : all.Pairwise (fun x y => less x y = true) ∧ all.length < 2 ^ 64 then some ⟨all, h⟩
      else none)
    (fun xs => xs.property.2) fun xs => by
      have all : xs.val.foldl (emplace less) [] = [] ++ xs.val :=
        foldl_emplace less xs.property.1
      simp only [all, List.nil_append]
      exact dif_pos xs.property

mutual

/-- **The meaning of a type**, by recursion over the nesting of its containers. -/
def Ty.sem : Ty → Sem
  | .arithmetic size less => ⟨BitVec (8 * size), less, Codec.word size⟩
  | .ygmPtr => ⟨BitVec (8 * 4), fun x y => x.ult y, Codec.word 4⟩
  | .string => ⟨Sized (BitVec (8 * 1)), fun x y => lexLess (fun a b => a.ult b) x.val y.val,
      (Codec.word 1).sized⟩
  | .vector element =>
      let s := element.sem
      ⟨Sized s.Val, fun x y => lexLess s.less x.val y.val, s.codec.sized⟩
  | .tuple elements => Ty.semTuple elements
  | .map key value =>
      let k := key.sem
      let v := value.sem
      let less (x y : k.Val × v.Val) : Bool := k.less x.1 y.1
      ⟨Sorted less,
        fun x y => lexLess (fun a b => less a b || (!less b a && v.less a.2 b.2)) x.val y.val,
        (k.codec.pair v.codec).sorted less⟩
  | .set key =>
      let s := key.sem
      ⟨Sorted s.less, fun x y => lexLess s.less x.val y.val, s.codec.sorted s.less⟩

/-- The meaning of a tuple, whose elements are saved one after the other without a tag. -/
def Ty.semTuple : List Ty → Sem
  | [] => ⟨Unit, fun _ _ => false, .unit⟩
  | element :: elements =>
      let s := element.sem
      let t := Ty.semTuple elements
      ⟨s.Val × t.Val,
        fun x y => s.less x.1 y.1 || (!s.less y.1 x.1 && t.less x.2 y.2), s.codec.pair t.codec⟩

end

/-! ## Handlers and messages -/

variable {H : Type}

/-- **The program file** all ranks run: where its handlers and `reference` are in it, and
what the types of the arguments of each handler are. -/
structure Image (H : Type) where
  args : H → List Ty
  offset : H → BitVec 64
  reference : BitVec 64
  /-- The function that a process finds at an offset. -/
  find : BitVec 64 → Option H
  find_offset : ∀ h, find (offset h) = some h

/-- **A packed call**: a handler with arguments of the types that it takes. -/
structure Message (image : Image H) where
  handler : H
  args : (Ty.tuple (image.args handler)).sem.Val

namespace Image

variable (image : Image H)

/-- The bytes that `pack_lambda` makes of a call, in a process that has loaded the program file
at `base`. -/
def packLambda (base : BitVec 64) (m : Message image) : List UInt8 :=
  let iptr := (base + image.offset m.handler) - (base + image.reference)
  (Codec.word 8).encode iptr ++ (Ty.tuple (image.args m.handler)).sem.codec.encode m.args

/-- A call made by the parse loop, with the positions in the archive between which it was read. -/
structure Parsed where
  message : Message image
  start : ℕ
  stop : ℕ

/-- One round of the parse loop: the function at `iptr` is called, and reads its arguments. -/
def parseOne (base : BitVec 64) (ar : Reader) : Option (image.Parsed × Reader) :=
  ((Codec.word 8).decode ar).bind fun iptr =>
    let address := iptr.1 + (base + image.reference)
    (image.find (address - base)).bind fun handler =>
      ((Ty.tuple (image.args handler)).sem.codec.decode iptr.2).map fun args =>
        (⟨⟨handler, args.1⟩, ar.position, args.2.position⟩, args.2)

/-- **The parse loop of `receive_queue_process`**, for at most `fuel` messages. -/
def parse (base : BitVec 64) : ℕ → Reader → Option (List image.Parsed × Reader)
  | fuel, ar =>
      if ar.empty then some ([], ar)
      else
        match fuel with
        | 0 => none
        | fuel + 1 =>
            (image.parseOne base ar).bind fun out =>
              (parse base fuel out.2).map fun out' => (out.1 :: out'.1, out'.2)

/-- The call that `local_receive` makes: the handler with the arguments it was given, which are
not packed. -/
def localReceive (handler : H) (args : (Ty.tuple (image.args handler)).sem.Val) :
    Message image :=
  ⟨handler, args⟩

/-- The calls that the parse loop should make of a buffer, from a position in the archive on. -/
def expected (base : BitVec 64) : ℕ → List (Message image) → List image.Parsed
  | _, [] => []
  | start, m :: messages =>
      let stop := start + (image.packLambda base m).length
      ⟨image.localReceive m.handler m.args, start, stop⟩ :: expected base stop messages

variable {image} {sender receiver : BitVec 64}

/-- The bytes of a message begin with those of the handler's offset, so there are at least
eight. -/
theorem eight_le_packLambda (m : Message image) : 8 ≤ (image.packLambda sender m).length := by
  simp [packLambda]

/-- **A message is read back**, wherever sender and receiver have loaded the program file, and
the archive advances by exactly its bytes. -/
theorem parseOne_packLambda (m : Message image) {ar : Reader} {more : List UInt8}
    (ahead : ar.rest = image.packLambda sender m ++ more) :
    ∃ ar', image.parseOne receiver ar
        = some (⟨m, ar.position, ar.position + (image.packLambda sender m).length⟩, ar') ∧
      ar.Advanced (image.packLambda sender m).length ar' := by
  have whole := ahead
  rw [packLambda, List.append_assoc] at whole
  obtain ⟨ar', offset, advanced⟩ := (Codec.word 8).round _ ar _ whole
  obtain ⟨ar'', args, advanced'⟩ := (Ty.tuple (image.args m.handler)).sem.codec.round m.args ar'
    more (advanced.rest_append whole)
  have total : ar.Advanced (image.packLambda sender m).length ar'' := by
    rw [packLambda, List.length_append]
    exact advanced.trans advanced'
  have address : (sender + image.offset m.handler) - (sender + image.reference)
      + (receiver + image.reference) - receiver = image.offset m.handler := by
    bv_omega
  refine ⟨ar'', ?_, total⟩
  simp only [parseOne, offset, Option.bind_some, address, image.find_offset, args,
    Option.map_some, total.position]

theorem parse_packLambda (messages : List (Message image)) {fuel : ℕ} {ar : Reader}
    (ahead : ar.rest = messages.flatMap (image.packLambda sender))
    (enough : messages.length ≤ fuel) :
    ∃ ar', image.parse receiver fuel ar
        = some (image.expected sender ar.position messages, ar') ∧
      ar.Advanced (messages.flatMap (image.packLambda sender)).length ar' := by
  induction messages generalizing fuel ar with
  | nil =>
      have empty : ar.empty = true := Reader.empty_iff.mpr (by simpa using ahead)
      refine ⟨ar, ?_, .zero⟩
      rw [parse.eq_def]
      simp [empty, expected]
  | cons m messages ih =>
      obtain ⟨fuel, rfl⟩ : ∃ fuel', fuel = fuel' + 1 :=
        ⟨fuel - 1, by simp only [List.length_cons] at enough; omega⟩
      rw [List.flatMap_cons] at ahead
      obtain ⟨ar', first, advanced⟩ := @parseOne_packLambda _ _ sender receiver m _ _ ahead
      obtain ⟨ar'', others, advanced'⟩ := ih (advanced.rest_append ahead)
        (Nat.le_of_succ_le_succ enough)
      have more : ar.empty = false := by
        rw [← Bool.not_eq_true, Reader.empty_iff, ahead]
        intro nothing
        have long : 8 ≤ (image.packLambda sender m).length := eight_le_packLambda m
        simp [(List.append_eq_nil_iff.mp nothing).1] at long
      refine ⟨ar'', ?_, ?_⟩
      · rw [parse.eq_def]
        simp [more, first, others, expected, localReceive, advanced.position]
      · rw [List.flatMap_cons, List.length_append]
        exact advanced.trans advanced'

theorem length_le_packLambda (messages : List (Message image)) :
    messages.length ≤ (messages.flatMap (image.packLambda sender)).length := by
  induction messages with
  | nil => simp
  | cons m messages ih =>
      have long : 8 ≤ (image.packLambda sender m).length := eight_le_packLambda m
      simp only [List.length_cons, List.flatMap_cons, List.length_append]
      omega

theorem expected_messages (messages : List (Message image)) (start : ℕ) :
    (image.expected sender start messages).map Parsed.message
      = messages.map fun m => image.localReceive m.handler m.args := by
  induction messages generalizing start with
  | nil => rfl
  | cons m messages ih => simp [expected, ih]

/-- A send buffer has as many bytes as the communicator model takes it to have. -/
theorem bufferSize_eq {n : ℕ} {σ V C : Type} {prog : Program n (Message image) σ V C}
    (sizes : ∀ m, prog.packedSize m = (image.packLambda sender m).length)
    (msgs : List (Rpc n (Message image))) :
    prog.bufferSize msgs = ((msgs.map Rpc.payload).flatMap (image.packLambda sender)).length := by
  induction msgs with
  | nil => rfl
  | cons m msgs ih =>
      simp only [Program.bufferSize, List.map_cons, List.sum_cons, List.flatMap_cons,
        List.length_append] at ih ⊢
      rw [ih, sizes]

end Image

/-- **The wire stream round trip.**  The parse loop of a receiver, on a buffer to which a
sender has appended `messages`, calls their handlers in order, with the arguments that
`local_receive` would pass, each from exactly the bytes of its own message, and ends at
the capacity. -/
theorem stream_round_trip (image : Image H) (sender receiver : BitVec 64)
    (messages : List (Message image)) :
    ∃ calls ar, image.parse receiver (messages.flatMap (image.packLambda sender)).length
        (.ofData (messages.flatMap (image.packLambda sender))) = some (calls, ar) ∧
      calls.map Image.Parsed.message
        = messages.map (fun m => image.localReceive m.handler m.args) ∧
      calls = image.expected sender 0 messages ∧
      ar.data = messages.flatMap (image.packLambda sender) ∧
      ar.position = ar.data.length := by
  set data := messages.flatMap (image.packLambda sender) with hdata
  have ahead : (Reader.ofData data).rest = messages.flatMap (image.packLambda sender) := by
    simp [Reader.rest, Reader.ofData, hdata]
  obtain ⟨ar, parsed, advanced⟩ := Image.parse_packLambda messages ahead
    (Image.length_le_packLambda messages)
  refine ⟨_, ar, parsed, Image.expected_messages messages 0, rfl, advanced.data, ?_⟩
  rw [advanced.position, advanced.data]
  simp [Reader.ofData, hdata]

/-- A pointer and a string are saved as the four bytes of the index, the eight bytes of the size
tag and the bytes of the string. -/
example : (Ty.tuple [.ygmPtr, .string]).sem.codec.encode
    (5#32, (⟨[0x61#8, 0x62#8], by decide⟩ : Sized (BitVec 8)), ())
      = [5, 0, 0, 0, 2, 0, 0, 0, 0, 0, 0, 0, 0x61, 0x62] := by
  decide

end YGM
