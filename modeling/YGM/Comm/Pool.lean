import YGM.Library.Codec
import YGM.Library.Handles
import YGM.Library.Machine

/-!
# The buffers of a rank

This file is what `include/ygm/detail/comm_impl.hpp` does with its buffers, which are shared
pointers to vectors of bytes: `allocate_buffer`, `free_buffer`, the receive queue, `listen`,
`async_flush`, the part of `async` that stores, and `receive_queue_process`.  It is one rank,
with its main thread and its listener; a step is one operation under a lock, one MPI call, or
one use of a buffer.

## What stands for the rest

A label says what cannot be seen from here: which call user code makes next (`Call`), how many
bytes the next call in a received buffer takes, and which message an MPI receive takes.  User
code runs on the main thread, at the bottom of the stack and in handlers, which may be called
while buffers are open below.  Large messages are sent from a vector of their own, which is
no buffer in this sense.

## Buffers

A buffer is an address in `State.heap`.  The code holds it by a handle, and a handle also says
what its holder has put there, which no step reads: the code uses the heap.  What has been put
in, sent, received and opened is recorded in histories.
-/

namespace YGM.Pool

variable {n : ℕ}

/-- A `std::vector<char>`, as its contents and its capacity. -/
structure Vec where
  data : List UInt8
  capacity : ℕ

/-- A `std::shared_ptr` to a vector, as a handle that also says what its holder has put there. -/
abbrev Buffer : Type :=
  Handle (List UInt8)

/-- A vector after a use of it: its new contents, and its capacity, which grows if the contents
do not fit. -/
def Vec.apply (grow : ℕ → ℕ → ℕ) (f : List UInt8 → List UInt8) (v : Vec) : Vec where
  data := f v.data
  capacity :=
    if (f v.data).length ≤ v.capacity then v.capacity
    else grow v.capacity (f v.data).length

/-- The contents of a vector after `resize(size)`: cut off, or filled up with zeros. -/
def resize (size : ℕ) (data : List UInt8) : List UInt8 :=
  data.take size ++ List.replicate (size - data.length) 0

/-- The contents of a vector after an `MPI_Recv` of `message` to its front. -/
def receive (message data : List UInt8) : List UInt8 :=
  message ++ data.drop message.length

/-- The place of the main thread inside `async_flush` or `free_buffer`, where it has a buffer in
its hands and calls no handler. -/
inductive Op (n : ℕ)
  | none
  /-- `async_flush(dest)` is at its test whether the send buffer is empty. -/
  | flush (dest : Fin n)
  /-- `async_flush` has allocated a buffer and is about to swap it with the send buffer. -/
  | swap (dest : Fin n) (buffer : Buffer)
  /-- `async_flush` has swapped the buffers and is about to send the filled one. -/
  | send (dest : Fin n) (buffer : Buffer)
  /-- `async_flush` is in the `MPI_Send` of the filled buffer. -/
  | sending (dest : Fin n) (buffer : Buffer)
  /-- `free_buffer` is about to clear a buffer. -/
  | clear (buffer : Buffer)
  /-- `free_buffer` is about to add a cleared buffer to the pool. -/
  | release (buffer : Buffer)

/-- An activation of the main thread of the rank. -/
inductive Frame (n : ℕ)
  /-- The main program or a handler is running. -/
  | user
  /-- `async`, about to add `data` to a send buffer. -/
  | store (dest : Fin n) (data : List UInt8)
  /-- `async` is about to test `receive_queue_peek_size() > 0`. -/
  | peek
  /-- `receive_queue_process` is about to pop a buffer from the receive queue. -/
  | process
  /-- `receive_queue_process`, at `iarchive.empty()`: the archive has `size` bytes and is at
  `position`. -/
  | parse (buffer : Buffer) (src : Fin n) (size position : ℕ)

/-- The place of the listener thread in its loop, with the buffers it has in its hands. -/
inductive Listener (n : ℕ)
  /-- The listener is about to allocate a buffer. -/
  | allocate
  /-- The listener is about to resize its buffer to `m_buffer_capacity`. -/
  | resize (buffer : Buffer)
  /-- The listener is in its receive from any source, into its buffer. -/
  | recv (buffer : Buffer)
  /-- The listener has received the announcement of a large message. -/
  | announced (buffer : Buffer) (src : Fin n) (size : ℕ)
  /-- The listener is in `receive_large_message`, receiving into the large buffer. -/
  | large (buffer largeBuffer : Buffer) (src : Fin n) (size : ℕ)
  /-- The listener is about to push the large buffer onto the receive queue. -/
  | pushLarge (buffer largeBuffer : Buffer) (src : Fin n)
  /-- With `count` bytes in the buffer, about to resize to them. -/
  | received (buffer : Buffer) (src : Fin n) (count : ℕ)
  /-- The listener is about to push its buffer onto the receive queue. -/
  | push (buffer : Buffer) (src : Fin n)
  /-- The listener has returned after the kill signal. -/
  | stopped

/-- **The buffers of a rank**: the heap, the places where the code holds a buffer, the
activations, and the histories of what was put in, sent, received and opened. -/
structure State (n : ℕ) where
  heap : ℕ → Vec
  /-- The first address that has not been used for a buffer. -/
  next : ℕ
  /-- The pool of free buffers, with the back of the vector first (`m_vec_free_buffers`). -/
  freeBuffers : List Buffer
  /-- The send buffer of each destination (`m_vec_send_buffers`). -/
  sendBuffers : Fin n → Buffer
  /-- The received buffers with their sources, the oldest first (`m_receive_queue`). -/
  receiveQueue : List (Buffer × Fin n)
  listener : Listener n
  op : Op n
  stack : List (Frame n)
  /-- The bytes that have been added for each destination (history). -/
  stored : Fin n → List UInt8
  /-- The contents of the buffers that have been sent to each destination (history). -/
  sent : Fin n → List (List UInt8)
  /-- The messages taken from MPI for the receive queue (history). -/
  taken : List (List UInt8 × Fin n)
  /-- The contents of the buffers that `receive_queue_process` has opened, with their sources
  (history). -/
  opened : List (List UInt8 × Fin n)

/-- A call that user code makes, as far as buffers are concerned. -/
inductive Call (n : ℕ)
  /-- User code issues a call by `async(dest, …)`, packed to the bytes `data`. -/
  | async (dest : Fin n) (data : List UInt8)
  | asyncFlush (dest : Fin n)
  /-- `wait_local_idle` calls `receive_queue_process()`. -/
  | receiveQueueProcess
  /-- A handler returns to the activation that has called it. -/
  | ret

/-- A label: which thread moves, and what of the step cannot be seen from the buffers. -/
inductive Action (n : ℕ)
  /-- The main thread: the call user code makes, the bytes the next call takes. -/
  | main (call : Call n) (bytes : ℕ)
  /-- The listener moves: if it is in a receive, `message` is what it takes from `src`. -/
  | listen (src : Fin n) (announcement : Bool) (message : List UInt8)

section Step

variable (bufferCapacity : ℕ) (grow : ℕ → ℕ → ℕ) (r : Fin n)

/-- `allocate_buffer`: the back of the free pool, or a new buffer. -/
def allocateBuffer (s : State n) : Buffer × State n :=
  match s.freeBuffers with
  | [] =>
      (⟨s.next, []⟩,
        { s with
          heap := Function.update s.heap s.next ⟨[], bufferCapacity⟩
          next := s.next + 1 })
  | buffer :: freeBuffers => (buffer, { s with freeBuffers := freeBuffers })

/-- A use of the vector behind a handle: the handle and the heap get the same new contents. -/
def State.apply (s : State n) (f : List UInt8 → List UInt8) (buffer : Buffer) : Buffer × State n :=
  (⟨buffer.address, f buffer.value⟩,
    { s with
      heap := Function.update s.heap buffer.address ((s.heap buffer.address).apply grow f) })

/-- The step in which user code makes a call, above the activations `rest`. -/
def userStep (s : State n) (rest : List (Frame n)) : Call n → Option (State n)
  | .async dest data =>
      if dest = r then some { s with stack := .user :: .peek :: .user :: rest }
      else if data.length < bufferCapacity then
        if bufferCapacity < data.length + (s.heap (s.sendBuffers dest).address).data.length then
          some { s with op := .flush dest, stack := .store dest data :: .peek :: .user :: rest }
        else some { s with stack := .store dest data :: .peek :: .user :: rest }
      else some { s with stack := .peek :: .user :: rest }
  | .asyncFlush dest => some { s with op := .flush dest }
  | .receiveQueueProcess => some { s with stack := .process :: .user :: rest }
  | .ret =>
      match rest with
      | [] => none
      | _ :: _ => some { s with stack := rest }

/-- A step of the innermost activation, above the activations `rest`. -/
def frameStep (s : State n) (rest : List (Frame n)) (call : Call n) (bytes : ℕ) :
    Frame n → Option (State n)
  | .user => userStep bufferCapacity r s rest call
  | .store dest data =>
      let (buffer, s) := s.apply grow (· ++ data) (s.sendBuffers dest)
      some { s with
        sendBuffers := Function.update s.sendBuffers dest buffer
        stored := Function.update s.stored dest (s.stored dest ++ data)
        stack := rest }
  | .peek =>
      match s.receiveQueue with
      | [] => some { s with stack := rest }
      | _ :: _ => some { s with stack := .process :: rest }
  | .process =>
      match s.receiveQueue with
      | [] => some { s with stack := rest }
      | (buffer, src) :: receiveQueue =>
          let data := (s.heap buffer.address).data
          some { s with
            receiveQueue := receiveQueue
            opened := s.opened ++ [(data, src)]
            stack := .parse buffer src data.length 0 :: rest }
  | .parse buffer src size position =>
      if position = size then
        if (s.heap buffer.address).capacity = bufferCapacity then
          some { s with op := .clear buffer, stack := .process :: rest }
        else some { s with stack := .process :: rest }
      else if 0 < bytes ∧ position + bytes ≤ size then
        some { s with stack := .user :: .parse buffer src size (position + bytes) :: rest }
      else none

/-- **One step of the main thread**: inside `async_flush` or `free_buffer` if it is there, and
otherwise of its innermost activation. -/
def mainStep (s : State n) (call : Call n) (bytes : ℕ) : Option (State n) :=
  match s.op with
  | .none =>
      match s.stack with
      | [] => none
      | frame :: rest => frameStep bufferCapacity grow r s rest call bytes frame
  | .flush dest =>
      if dest = r ∨ (s.heap (s.sendBuffers dest).address).data = [] then
        some { s with op := .none }
      else
        let (buffer, s) := allocateBuffer bufferCapacity s
        some { s with op := .swap dest buffer }
  | .swap dest buffer =>
      some { s with
        sendBuffers := Function.update s.sendBuffers dest buffer
        op := .send dest (s.sendBuffers dest) }
  | .send dest buffer =>
      some { s with
        sent := Function.update s.sent dest (s.sent dest ++ [(s.heap buffer.address).data])
        op := .sending dest buffer }
  | .sending _ buffer => some { s with op := .clear buffer }
  | .clear buffer =>
      let (buffer, s) := s.apply grow (fun _ => []) buffer
      some { s with op := .release buffer }
  | .release buffer =>
      some { s with freeBuffers := buffer :: s.freeBuffers, op := .none }

/-- **One step of the listener**, from allocating a buffer to pushing it onto the receive queue. -/
def listenStep (s : State n) (src : Fin n) (announcement : Bool) (message : List UInt8) :
    Option (State n) :=
  match s.listener with
  | .allocate =>
      let (buffer, s) := allocateBuffer bufferCapacity s
      some { s with listener := .resize buffer }
  | .resize buffer =>
      let (buffer, s) := s.apply grow (resize bufferCapacity) buffer
      some { s with listener := .recv buffer }
  | .recv buffer =>
      if message.length ≤ bufferCapacity then
        let (buffer, s) := s.apply grow (receive message) buffer
        if announcement then
          let size := Codec.number ((s.heap buffer.address).data.take 8)
          some { s with listener := .announced buffer src size }
        else
          some { s with
            listener := .received buffer src message.length
            -- the kill signal is not for the queue
            taken := if src = r then s.taken else s.taken ++ [(message, src)] }
      else none
  | .announced buffer src size =>
      -- a vector of its own, not from the pool
      let large : Buffer := ⟨s.next, List.replicate size 0⟩
      some { s with
        heap := Function.update s.heap s.next ⟨List.replicate size 0, size⟩
        next := s.next + 1
        listener := .large buffer large src size }
  | .large buffer large source size =>
      if src = source ∧ message.length ≤ size then
        let (large, s) := s.apply grow (receive message) large
        some { s with
          listener := .pushLarge buffer large source
          taken := s.taken
            ++ [(message ++ List.replicate (size - message.length) 0, source)] }
      else none
  | .pushLarge _ large source =>
      -- the buffer of the announcement goes out of scope
      some { s with
        receiveQueue := s.receiveQueue ++ [(large, source)]
        listener := .allocate }
  | .received buffer source count =>
      let (buffer, s) := s.apply grow (resize count) buffer
      if source = r then some { s with listener := .stopped }
      else some { s with listener := .push buffer source }
  | .push buffer source =>
      some { s with
        receiveQueue := s.receiveQueue ++ [(buffer, source)]
        listener := .allocate }
  | .stopped => none

end Step

/-- The state of a rank when its constructor has allocated the send buffers. -/
def State.init (n bufferCapacity : ℕ) : State n where
  heap _ := ⟨[], bufferCapacity⟩
  next := n
  freeBuffers := []
  sendBuffers dest := ⟨dest.val, []⟩
  receiveQueue := []
  listener := .allocate
  op := .none
  stack := [.user]
  stored _ := []
  sent _ := []
  taken := []
  opened := []

/-- **The two threads of rank `r`** as a machine, whose steps are those of its main thread and
of its listener. -/
def threads (bufferCapacity : ℕ) (grow : ℕ → ℕ → ℕ) (r : Fin n) : Machine (State n) (Action n) where
  init := State.init n bufferCapacity
  step s
    | .main call bytes => mainStep bufferCapacity grow r s call bytes
    | .listen src announcement message =>
        listenStep bufferCapacity grow r s src announcement message

end YGM.Pool
