import YGM.Comm.Wire

/-!
# Sizes and counts of large messages

This file is `send_large_message`, `receive_large_message` and the announcement branch of
`listen` in `include/ygm/detail/comm_impl.hpp`, byte for byte.

A size is a `size_t`.  It is sent as its eight bytes, received into a buffer of
`m_buffer_capacity` bytes and read back from there; then both sides pass it to MPI as a
count, which is an `int`.  Nothing checks it on this path, as `mpi_send` does on
`m_comm_other`.  An MPI call with a negative count, or a message that is longer than the
receive that takes it, is an error, which ends the run.

A message arrives whole exactly if its size is less than `2 ^ 31` and a size fits the buffer
(`arrives_whole_iff`).  From `2 ^ 32` on both counts are truncated alike, and the rest of
the buffer is zeros (`truncated_arrives`).
-/

namespace YGM

/-- A C++ `int`, as its 32 bits. -/
abbrev CInt : Type :=
  BitVec 32

/-- The count that a `size_t` becomes where an `int` is expected: its low 32 bits. -/
def intCount (size : BitVec 64) : CInt :=
  size.setWidth 32

/-- The message that `MPI_Send` sends of `data` for a given count; a negative count is an error. -/
def mpiSend (data : List UInt8) (count : CInt) : Option (List UInt8) :=
  if 0 ≤ count.toInt then some (data.take count.toNat) else none

/-- The contents of `buffer` after `MPI_Recv` has taken `message` into it; a negative count, or
a message longer than the count, is an error. -/
def mpiRecv (buffer : List UInt8) (count : CInt) (message : List UInt8) : Option (List UInt8) :=
  if 0 ≤ count.toInt ∧ message.length ≤ count.toNat then
    some (message ++ buffer.drop message.length)
  else none

/-- The size of a message as the source reads it: `msg.size()`. -/
def msgSize (msg : List UInt8) : BitVec 64 :=
  BitVec.ofNat 64 msg.length

/-- The first `MPI_Send` of `send_large_message`, which sends the eight bytes of the size. -/
def sendAnnouncement (msg : List UInt8) : Option (List UInt8) :=
  mpiSend ((Codec.word 8).encode (msgSize msg)) 8

/-- The second `MPI_Send` of `send_large_message`, which sends the message with its size as the
count. -/
def sendPayload (msg : List UInt8) : Option (List UInt8) :=
  mpiSend msg (intCount (msgSize msg))

/-- **The announcement branch of `listen`**: the size at the front of a buffer of
`m_buffer_capacity` bytes. -/
def listenAnnouncement (bufferCapacity : CInt) (message : List UInt8) : Option (BitVec 64) :=
  let capacity := bufferCapacity.signExtend 64
  (mpiRecv (List.replicate capacity.toNat 0) (intCount capacity) message).bind fun buffer =>
    ((Codec.word 8).decode (.ofData buffer)).map Prod.fst

/-- **`receive_large_message`**, into a new buffer of `size` bytes. -/
def receiveLargeMessage (size : BitVec 64) (message : List UInt8) : Option (List UInt8) :=
  mpiRecv (List.replicate size.toNat 0) (intCount size) message

/-- **The entry that a large message makes in the receive queue**, if none of the MPI calls on
its way fails. -/
def transferLarge (bufferCapacity : CInt) (msg : List UInt8) : Option (List UInt8) :=
  (sendAnnouncement msg).bind fun announcement =>
    (listenAnnouncement bufferCapacity announcement).bind fun size =>
      (sendPayload msg).bind (receiveLargeMessage size)

/-- **A large message arrives whole**: the size is announced and both counts are the size, so
what is received is what was sent. -/
structure ArrivesWhole (bufferCapacity : CInt) (msg : List UInt8) : Prop where
  /-- The announcement fits the receive posted for it. -/
  announced : (sendAnnouncement msg).bind (listenAnnouncement bufferCapacity) = some (msgSize msg)
  /-- The count passed to `MPI_Send` is the length of the message. -/
  sent : (intCount (msgSize msg)).toInt = msg.length
  /-- The count passed to `MPI_Recv` for an announced message is the length of the message. -/
  received : ∀ size, (sendAnnouncement msg).bind (listenAnnouncement bufferCapacity) = some size →
    (intCount size).toInt = msg.length
  /-- The buffer that is pushed onto the receive queue has the bytes of the message. -/
  whole : transferLarge bufferCapacity msg = some msg

section Counts

/-- The count of a size is the size itself exactly if the size is less than `2 ^ 31`. -/
theorem intCount_eq_iff {size : ℕ} (short : size < 2 ^ 64) :
    (intCount (BitVec.ofNat 64 size)).toInt = size ↔ size < 2 ^ 31 := by
  rw [intCount, BitVec.toInt_setWidth, BitVec.toNat_ofNat, Nat.mod_eq_of_lt short, Int.bmod_def]
  omega

theorem toNat_intCount {size : ℕ} (small : size < 2 ^ 31) :
    (intCount (BitVec.ofNat 64 size)).toNat = size := by
  rw [intCount, BitVec.toNat_setWidth, BitVec.toNat_ofNat]
  omega

/-- A positive `int` is a size, and the count made from it is the same one. -/
theorem signExtend_capacity {bufferCapacity : CInt} (positive : 0 < bufferCapacity.toInt) :
    bufferCapacity.toNat < 2 ^ 31 ∧
      bufferCapacity.signExtend 64 = BitVec.ofNat 64 bufferCapacity.toNat := by
  have small : bufferCapacity.toNat < 2 ^ 31 := by
    rw [BitVec.toInt_eq_toNat_cond] at positive
    split at positive <;> omega
  have sign : bufferCapacity.msb = false := by
    rw [BitVec.msb_eq_decide]
    exact decide_eq_false (by omega)
  refine ⟨small, ?_⟩
  rw [BitVec.signExtend_eq_setWidth_of_msb_false sign]
  apply BitVec.eq_of_toNat_eq
  rw [BitVec.toNat_setWidth, BitVec.toNat_ofNat]

/-- The count of a size below `2 ^ 31` is not negative, so MPI accepts it. -/
theorem toInt_intCount_nonneg {size : ℕ} (small : size < 2 ^ 31) :
    0 ≤ (intCount (BitVec.ofNat 64 size)).toInt := by
  rw [(intCount_eq_iff (by omega)).mpr small]
  exact Int.natCast_nonneg _

end Counts

/-! ## The announcement -/

section Announcement

variable {bufferCapacity : CInt} {msg : List UInt8}

theorem sendAnnouncement_eq (msg : List UInt8) :
    sendAnnouncement msg = some ((Codec.word 8).encode (msgSize msg)) := by
  have whole : ((Codec.word 8).encode (msgSize msg)).take 8
      = (Codec.word 8).encode (msgSize msg) := by
    rw [List.take_of_length_le]
    exact (Codec.word_length 8 _).le
  show mpiSend _ 8 = _
  rw [mpiSend, if_pos (by decide)]
  exact congrArg some whole

/-- **The announcement is understood** exactly if the eight bytes of a size fit the buffer of
the any-source receive. -/
theorem listenAnnouncement_eq (positive : 0 < bufferCapacity.toInt) (size : BitVec 64) :
    listenAnnouncement bufferCapacity ((Codec.word 8).encode size)
      = if 8 ≤ bufferCapacity.toNat then some size else none := by
  obtain ⟨small, extended⟩ := signExtend_capacity positive
  have length : ((Codec.word 8).encode size).length = 8 := Codec.word_length 8 size
  rw [listenAnnouncement, extended]
  simp only [mpiRecv, toInt_intCount_nonneg small, toNat_intCount small, length, true_and]
  split
  case isTrue room =>
    obtain ⟨ar, read, -⟩ := (Codec.word 8).reads size
      (.ofData ((Codec.word 8).encode size
        ++ (List.replicate (BitVec.ofNat 64 bufferCapacity.toNat).toNat 0).drop 8)) _ rfl
    rw [Option.bind_some, read]
    rfl
  case isFalse => rfl

/-- The listener of the communicator model takes an announcement in exactly those cases in which
the byte-level listener understands it. -/
theorem listenStep_announcement {n : ℕ} {P σ V C : Type} {cfg : Config} {prog : Program n P σ V C}
    (positive : 0 < bufferCapacity.toInt) (capacity : cfg.bufferCapacity = bufferCapacity.toNat)
    {r src : Fin n} {s : Rank n P σ V C} (any : s.listener = .any) (stream : List (Packet n P)) :
    (listenStep cfg prog r src (.announce msg.length :: stream) s).isSome
      = ((sendAnnouncement msg).bind (listenAnnouncement bufferCapacity)).isSome := by
  rw [sendAnnouncement_eq, Option.bind_some, listenAnnouncement_eq positive]
  simp only [listenStep, any, capacity]
  split <;> rfl

end Announcement

/-! ## The message -/

section Message

variable {bufferCapacity : CInt} {msg : List UInt8}

/-- A message of less than `2 ^ 31` bytes is received whole into a buffer of its size. -/
theorem receive_whole (small : msg.length < 2 ^ 31) :
    (sendPayload msg).bind (receiveLargeMessage (msgSize msg)) = some msg := by
  have count := toNat_intCount small
  have size : (msgSize msg).toNat = msg.length := by
    rw [msgSize, BitVec.toNat_ofNat, Nat.mod_eq_of_lt (by omega)]
  have sent : sendPayload msg = some msg := by
    rw [sendPayload, mpiSend, msgSize, if_pos (toInt_intCount_nonneg small), count, List.take_length]
  rw [sent, Option.bind_some, receiveLargeMessage, mpiRecv, size, msgSize, count,
    if_pos ⟨toInt_intCount_nonneg small, le_rfl⟩]
  simp

/-- **A large message arrives whole if and only if** its size is less than `2 ^ 31`, so that it
survives the conversion to `int` on both sides, and the announcement of eight bytes fits the
buffer of the listener. -/
theorem arrives_whole_iff (positive : 0 < bufferCapacity.toInt) (short : msg.length < 2 ^ 64) :
    ArrivesWhole bufferCapacity msg ↔ 8 ≤ bufferCapacity.toInt ∧ msg.length < 2 ^ 31 := by
  have capacity : bufferCapacity.toInt = bufferCapacity.toNat := by
    rw [BitVec.toInt_eq_toNat_cond, if_pos]
    have := (signExtend_capacity positive).1
    omega
  have listens : (sendAnnouncement msg).bind (listenAnnouncement bufferCapacity)
      = if 8 ≤ bufferCapacity.toNat then some (msgSize msg) else none := by
    rw [sendAnnouncement_eq, Option.bind_some, listenAnnouncement_eq positive]
  constructor
  · intro whole
    have announced := whole.announced
    rw [listens] at announced
    refine ⟨?_, (intCount_eq_iff short).mp whole.sent⟩
    by_contra few
    rw [if_neg (by omega)] at announced
    cases announced
  · rintro ⟨room, small⟩
    rw [if_pos (by omega)] at listens
    have count : (intCount (msgSize msg)).toInt = msg.length := (intCount_eq_iff short).mpr small
    refine ⟨listens, count, fun size announced => ?_, ?_⟩
    · rw [listens] at announced
      cases announced
      exact count
    · rw [transferLarge, ← Option.bind_assoc, listens]
      exact receive_whole small

end Message

/-! ## Messages that do not arrive whole -/

/-- A message of the given length in which every byte has the value 1. -/
def ones (length : ℕ) : List UInt8 :=
  List.replicate length 1

/-- A message of nine bytes arrives whole where the buffer capacity is eight. -/
theorem arrives_whole_nine : ArrivesWhole 8 (ones 9) :=
  (arrives_whole_iff (by decide) (by decide)).mpr ⟨by decide, by decide⟩

@[simp] theorem length_ones (length : ℕ) : (ones length).length = length :=
  List.length_replicate

/-- **A message of `2 ^ 31` bytes is lost**, as its size becomes a negative count; and with a
capacity of four bytes no announcement fits the buffer of the listener. -/
theorem too_long_lost :
    ¬ ArrivesWhole 8 (ones (2 ^ 31)) ∧ transferLarge 8 (ones (2 ^ 31)) = none ∧
      ¬ ArrivesWhole 4 (ones 9) ∧ transferLarge 4 (ones 9) = none := by
  have negative : ¬ 0 ≤ (intCount (msgSize (ones (2 ^ 31)))).toInt := by
    rw [msgSize, length_ones]
    decide
  have lost : transferLarge 8 (ones (2 ^ 31)) = none := by
    have sent : sendPayload (ones (2 ^ 31)) = none := by
      rw [sendPayload, mpiSend, if_neg negative]
    simp only [transferLarge, sent, Option.bind_none, Option.bind_fun_none]
  have refused : transferLarge 4 (ones 9) = none := by decide
  refine ⟨fun claim => ?_, lost, fun claim => ?_, refused⟩
  · have whole := claim.whole
    rw [lost] at whole
    cases whole
  · have whole := claim.whole
    rw [refused] at whole
    cases whole

/-- **A message of `2 ^ 32 + 5` bytes** is truncated on both sides: five bytes arrive, and
zeros behind them. -/
theorem truncated_arrives :
    transferLarge 8 (ones (2 ^ 32 + 5)) = some (ones 5 ++ List.replicate (2 ^ 32) 0) := by
  have size : msgSize (ones (2 ^ 32 + 5)) = BitVec.ofNat 64 (2 ^ 32 + 5) := by
    rw [msgSize, length_ones]
  have count : intCount (BitVec.ofNat 64 (2 ^ 32 + 5)) = 5 := by decide
  have sent : sendPayload (ones (2 ^ 32 + 5)) = some (ones 5) := by
    rw [sendPayload, size, count, mpiSend, if_pos (by decide), ones, List.take_replicate]
    rfl
  have listens : listenAnnouncement 8 ((Codec.word 8).encode (BitVec.ofNat 64 (2 ^ 32 + 5)))
      = some (BitVec.ofNat 64 (2 ^ 32 + 5)) := by
    rw [listenAnnouncement_eq (by decide), if_pos (by decide)]
  have buffer : (BitVec.ofNat 64 (2 ^ 32 + 5)).toNat = 2 ^ 32 + 5 := by decide
  rw [transferLarge, sendAnnouncement_eq, Option.bind_some, size, listens, Option.bind_some, sent,
    Option.bind_some, receiveLargeMessage, mpiRecv, count, buffer, if_pos (by simp), length_ones,
    List.drop_replicate]
  rfl

end YGM
