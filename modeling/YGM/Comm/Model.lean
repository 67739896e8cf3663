import YGM.Library.DoubleCheck

/-!
# The communicator: `comm::impl` as a machine

This file is `include/ygm/detail/comm_impl.hpp`: what one rank's main thread and
listener thread do, and the MPI between them, as a labelled machine.

## One step

One step is one action another thread can tell apart from its neighbours: an
`MPI_Send`, a receive, a completed reduction, a locked operation on the receive
queue, or a stretch of main-thread code between two of these.  A label
(`Action`) says which thread of which rank moves, which source an any-source
receive matches and what `MPI_Test` answers; everything else is determined, so
`Sys.step` is a function.

## The main thread

Nested calls are explicit.  `Rank.stack` holds the activations above the main
program, innermost first: user handlers (`Frame.user`), the open
`receive_queue_process` activations with the unparsed tail of their buffer
(`Frame.parse`, and the tail kept by a `Ctx.remote` handler), the parts of an
`async` still to run (`store`, `announce`, `large`, `peek`), `async_flush` and
`wait_local_idle`.  With an empty stack control is in the main program itself or
in `barrier`, as `Rank.pc` says; `barrier` is only ever called there.

User code is a parameter (`Program`): what the code at a point does next is a
function of that point and of the rank's memory, so every program of asyncs,
flushes, barriers and reductions, with handlers issuing further asyncs to any
depth, is an instance.

## MPI

`Sys.net s d` is the stream of packets `s` has sent to `d` on `m_comm_async` and
`d` has not received: reliable and in order per pair.  A collective on
`m_comm_barrier` completes once every rank has posted its contribution, with the
sum of all of them; `Rank.barrierPosts` is what a rank has posted there so far.
`Config.synchronous` chooses between sends that may be buffered and sends that
complete only when matched.

## History variables

`Rpc.epoch`, `Rpc.cut`, `Rank.epoch`, `Rank.issued` and `Rank.executed` record
what has happened.  No branch of the machine reads them.
-/

namespace YGM

/-- The parameters of a run that are fixed when the communicator is built, on every rank alike. -/
structure Config where
  /-- The number of bytes from which an `async` flushes a send buffer and sends a call by itself
  (`m_buffer_capacity`). -/
  bufferCapacity : ℕ
  /-- Whether every `MPI_Send` waits until its message is received, as it may for any size. -/
  synchronous : Bool

/-- **One remote procedure call**: the packed lambda with its arguments is
`payload`.  `epoch` counts the barriers the main program that (transitively)
caused it had left; `cut` counts the first samples its issuer had taken. -/
structure Rpc (n : ℕ) (P : Type) where
  /-- The rank whose `async` issued the call. -/
  src : Fin n
  /-- The rank to which the call is addressed. -/
  dest : Fin n
  /-- The handler with its arguments, as they are packed. -/
  payload : P
  /-- Barriers left by the causing main program (history). -/
  epoch : ℕ
  /-- The number of first samples that the issuer had taken when it issued the call (history). -/
  cut : ℕ
deriving DecidableEq

/-- A call is **remote** if its `async` was issued on another rank than the one it is addressed
to; a call to the caller's own rank never reaches MPI. -/
def Rpc.Remote {n : ℕ} {P : Type} (m : Rpc n P) : Prop :=
  m.src ≠ m.dest

instance {n : ℕ} {P : Type} (m : Rpc n P) : Decidable m.Remote :=
  inferInstanceAs (Decidable (m.src ≠ m.dest))

/-- **The next command of user code**, given with the code point it goes on at.  The memory
`mem` is what the rank's main thread can reach besides the communicator; a handler's last
computation is part of its return. -/
inductive Cmd (n : ℕ) (P σ V C : Type)
  /-- Return from a handler, leaving the memory `mem`. -/
  | ret (mem : σ)
  /-- Compute on the memory of the rank, and go on at `k`. -/
  | update (mem : σ) (k : C)
  /-- Issue a call by `async(dest, …)`, and go on at `k`. -/
  | async (dest : Fin n) (payload : P) (k : C)
  /-- Flush one send buffer by `async_flush(dest)`, and go on at `k`. -/
  | asyncFlush (dest : Fin n) (k : C)
  /-- Flush all send buffers by `async_flush_all()`, and go on at `k`. -/
  | asyncFlushAll (k : C)
  /-- Enter the collective `barrier()`, and go on at `k` when it returns. -/
  | barrier (k : C)
  /-- A blocking reduction on `m_comm_other`, whose result goes to `k`. -/
  | allReduce (value : V) (k : V → C)
  /-- The end of `~impl`, after its barrier: the kill signal to the own listener
  and the join. -/
  | kill (k : C)

/-- **User code.**  `handler src p` is where the handler packed in `p` starts
when it is called with `from = src`.  A packed call starts with the eight bytes
of its handler's offset, whatever its arguments. -/
structure Program (n : ℕ) (P σ V C : Type) where
  /-- The command that follows at a code point, given the memory of the rank. -/
  next : C → σ → Cmd n P σ V C
  /-- The first code point of a handler, given the origin and the content of its call. -/
  handler : Fin n → P → C
  /-- The number of bytes to which `pack_lambda(…)` packs a call. -/
  packedSize : P → ℕ
  /-- Every packed call holds the offset of its handler, which takes eight bytes. -/
  offset_le : ∀ p, 8 ≤ packedSize p
  /-- The result of a reduction on `m_comm_other` from all contributions. -/
  combine : (Fin n → V) → V

/-- Whose handler is running: one called directly by `local_receive`, or one
called by `receive_queue_process` with `from = src` while `tail` is still to be
parsed in the same buffer. -/
inductive Ctx (n : ℕ) (P : Type)
  | self (m : Rpc n P)
  | remote (src : Fin n) (m : Rpc n P) (tail : List (Rpc n P))

/-- The call for which a handler runs, whichever way the handler was called. -/
def Ctx.rpc {n : ℕ} {P : Type} : Ctx n P → Rpc n P
  | .self m => m
  | .remote _ m _ => m

/-- An activation of the main thread above the main program: one function call that has not
returned yet, with the point it has reached. -/
inductive Frame (n : ℕ) (P C : Type)
  /-- A handler is at code point `k`, which it runs for the call in `ctx`. -/
  | user (ctx : Ctx n P) (k : C)
  /-- `async`, about to append the packed `m` to the send buffer. -/
  | store (m : Rpc n P)
  /-- `send_large_message` is about to announce the call `m`. -/
  | announce (m : Rpc n P)
  /-- `send_large_message` has announced the call `m` and is about to send it. -/
  | large (m : Rpc n P)
  /-- `MPI_Send` to `dest`, posted and not yet complete. -/
  | sending (dest : Fin n)
  /-- `async` is about to test `receive_queue_peek_size() > 0`. -/
  | peek
  /-- `async_flush(dest)` is about to test whether there is anything to send. -/
  | flush (dest : Fin n)
  /-- `async_flush_all()` is at the loop index `i`. -/
  | flushAll (i : ℕ)
  /-- `receive_queue_process` is about to pop a buffer from the receive queue. -/
  | recv (received : Bool)
  /-- `receive_queue_process` is about to test `iarchive.empty()` for the rest of a buffer. -/
  | parse (src : Fin n) (tail : List (Rpc n P))
  /-- `wait_local_idle`, at the top of the `do` body. -/
  | idle
  /-- `wait_local_idle` is at the condition of its `while` loop. -/
  | idleTest

/-- The place of the main thread once the stack is empty: in the main program, or in one of the
collective calls that only the main program makes. -/
inductive Pc (V C : Type)
  /-- The main thread is in its main program. -/
  | user
  /-- In `barrier`, about to take the first sample. -/
  | sample
  /-- `barrier` is at its `MPI_Test`, having sampled and posted `first`. -/
  | test (first : ℤ)
  /-- `barrier` is inside its second reduction, having seen the first sample add up to zero. -/
  | second (first second : ℤ)
  /-- The main program is in a reduction on `m_comm_other`, and goes on at `k` with its result. -/
  | reduce (k : V → C)
  /-- The destructor is in `m_listener.join()`, waiting for the listener thread. -/
  | join
  /-- The assertion of `barrier` has thrown, as the two samples of the rank differ. -/
  | thrown (first second : ℤ)

/-- A message on `m_comm_async`, by its tag: an ordinary buffer (tag 0, also the
empty kill message), an announcement of a size (`large_message_announce_tag`), a
large message (`large_message_tag`). -/
inductive Packet (n : ℕ) (P : Type)
  | buffer (msgs : List (Rpc n P))
  | announce (size : ℕ)
  | large (m : Rpc n P)

/-- The state of the listener thread: one of the two receives it alternates between, or its end. -/
inductive Listener (n : ℕ)
  /-- The listener is at its receive from any source with any tag. -/
  | any
  /-- The listener is in `receive_large_message`, waiting for the message that `src` has
  announced. -/
  | large (src : Fin n) (size : ℕ)
  /-- The listener has returned after the kill signal. -/
  | stopped
deriving DecidableEq

/-- A finished execution: `src` is the `from` the handler was given; `epoch` and
`cut` are those of the executing rank when it returned. -/
structure Exec (n : ℕ) (P : Type) where
  src : Fin n
  rpc : Rpc n P
  epoch : ℕ
  cut : ℕ
deriving DecidableEq

/-- **One rank**: the fields of `comm::impl`, the stack and the memory of the main thread, the
state of the listener, and the history of the calls issued and executed there. -/
structure Rank (n : ℕ) (P σ V C : Type) where
  /-- The number of remote calls started by this rank (`m_send_count`). -/
  sendCount : ℤ
  /-- The number of remote calls whose handler has returned on this rank (`m_recv_count`). -/
  recvCount : ℤ
  /-- The number of bytes to which the remote calls of this rank have been packed
  (`m_local_bytes_sent`). -/
  localBytesSent : ℤ
  /-- The number of calls whose handler has returned in `receive_queue_process` of this rank
  (`m_local_rpc_calls`). -/
  localRpcCalls : ℤ
  /-- The calls waiting in the send buffer of each destination (`m_vec_send_buffers`). -/
  sendBuffers : Fin n → List (Rpc n P)
  /-- The received buffers with their sources, the oldest first (`m_receive_queue`). -/
  receiveQueue : List (List (Rpc n P) × Fin n)
  listener : Listener n
  mem : σ
  /-- The code point at which the main program goes on. -/
  code : C
  pc : Pc V C
  stack : List (Frame n P C)
  /-- The result of the last `receive_queue_process`: whether it has found a buffer. -/
  received : Bool
  /-- Contributions posted on `m_comm_barrier`: first samples to an
  `MPI_Iallreduce`, second samples to an `MPI_Allreduce`. -/
  barrierPosts : List (Kind × ℤ)
  /-- The values that the rank has contributed to reductions on `m_comm_other`. -/
  otherPosts : List V
  /-- The number of barriers that the main program has left (history). -/
  epoch : ℕ
  /-- Calls that have left an `async` of this rank, in issue order (history). -/
  issued : List (Rpc n P)
  /-- Calls executed on this rank, in order of completion (history). -/
  executed : List (Exec n P)

variable {n : ℕ} {P σ V C : Type}

/-- The state of a rank that has just built its communicator and is about to start its main
program. -/
def Rank.init (mem : σ) (code : C) : Rank n P σ V C where
  sendCount := 0
  recvCount := 0
  localBytesSent := 0
  localRpcCalls := 0
  sendBuffers := fun _ => []
  receiveQueue := []
  listener := .any
  mem := mem
  code := code
  pc := .user
  stack := []
  received := false
  barrierPosts := []
  otherPosts := []
  epoch := 0
  issued := []
  executed := []

namespace Rank

/-- The number of first samples the rank has taken. -/
def cuts (s : Rank n P σ V C) : ℕ :=
  s.barrierPosts.countP fun post => decide (post.1 = .first)

/-- `m_send_count - m_recv_count`, what both samples of `barrier` read. -/
def localCount (s : Rank n P σ V C) : ℤ :=
  s.sendCount - s.recvCount

/-- The code that runs in context `ctx` above the activations `rest` goes on at the code point
`k`. -/
def resume (s : Rank n P σ V C) (ctx : Option (Ctx n P))
    (rest : List (Frame n P C)) (k : C) : Rank n P σ V C :=
  match ctx with
  | none => { s with code := k, stack := rest }
  | some ctx => { s with stack := .user ctx k :: rest }

/-- The running activation calls the activations `frames`, of which the innermost comes first. -/
def call (s : Rank n P σ V C) (frames : List (Frame n P C)) : Rank n P σ V C :=
  { s with stack := frames ++ s.stack }

/-- The epoch that a call gets which the running code issues: the main program gives its own
epoch, and a handler passes on the epoch of the call it serves. -/
def issueEpoch (s : Rank n P σ V C) : Option (Ctx n P) → ℕ
  | none => s.epoch
  | some ctx => ctx.rpc.epoch

/-- The rank records that the handler of `m`, called with `from = src`, has returned. -/
def finish (s : Rank n P σ V C) (src : Fin n) (m : Rpc n P) : Rank n P σ V C :=
  { s with executed := s.executed ++ [⟨src, m, s.epoch, s.cuts⟩] }

end Rank

/-- The size in bytes of a buffer that holds the packed calls `msgs`. -/
def Program.bufferSize (prog : Program n P σ V C) (msgs : List (Rpc n P)) : ℕ :=
  (msgs.map fun m => prog.packedSize m.payload).sum

/-- The part of the other ranks, of MPI and of the listener that the main thread of a rank sees
during one step. -/
structure View (n : ℕ) (V : Type) where
  /-- The flag a completed `MPI_Test` reports; it may still be false. -/
  testFlag : Bool
  /-- The result of the collective last posted on `m_comm_barrier`, once every
  rank has posted it. -/
  allCount : Option ℤ
  /-- The result of the reduction last posted on `m_comm_other`. -/
  reduced : Option V
  /-- Whether everything sent to a rank has been received. -/
  matched : Fin n → Bool

/-- The result of a step of the main thread: the rank after the step, and the packet it handed
to MPI, if it sent one. -/
abbrev Outcome (n : ℕ) (P σ V C : Type) :=
  Rank n P σ V C × Option (Fin n × Packet n P)

section Main

variable (cfg : Config) (prog : Program n P σ V C) (r : Fin n)

/-- `comm::impl::async`, up to the first call it makes.  A call to the own rank
runs the handler at once (`local_receive`); any other is counted and packed, then
stored, after a flush when the buffer has no room, or sent by itself when it has
`m_buffer_capacity` bytes or more.  Every path ends at the queue test. -/
def async (s : Rank n P σ V C) (ctx : Option (Ctx n P)) (dest : Fin n)
    (payload : P) : Rank n P σ V C :=
  let m : Rpc n P := ⟨r, dest, payload, s.issueEpoch ctx, s.cuts⟩
  if dest = r then
    { s with issued := s.issued ++ [m] }.call
      [.user (.self m) (prog.handler r payload), .peek]
  else
    let size := prog.packedSize payload
    let counted := { s with
      sendCount := s.sendCount + 1
      localBytesSent := s.localBytesSent + size }
    if size < cfg.bufferCapacity then
      if cfg.bufferCapacity < size + prog.bufferSize (s.sendBuffers dest) then
        counted.call [.flush dest, .store m, .peek]
      else
        counted.call [.store m, .peek]
    else
      counted.call [.announce m, .peek]

/-- A command of user code in context `ctx`, above the activations `rest`.  Only
the main program calls `barrier`, reduces and shuts down; a handler returns to
`local_receive` or to the parse loop, which counts the receive. -/
def userStep (s : Rank n P σ V C) (ctx : Option (Ctx n P))
    (rest : List (Frame n P C)) : Cmd n P σ V C → Option (Outcome n P σ V C)
  | .ret mem =>
      match ctx with
      | none => none
      | some (.self m) =>
          some ({ s with mem := mem, stack := rest }.finish r m, none)
      | some (.remote src m tail) =>
          some ({ s with
            mem := mem
            stack := .parse src tail :: rest
            recvCount := s.recvCount + 1
            localRpcCalls := s.localRpcCalls + 1 }.finish src m, none)
  | .update mem k => some ({ s with mem := mem }.resume ctx rest k, none)
  | .async dest payload k =>
      some (async cfg prog r (s.resume ctx rest k) ctx dest payload, none)
  | .asyncFlush dest k => some ((s.resume ctx rest k).call [.flush dest], none)
  | .asyncFlushAll k => some ((s.resume ctx rest k).call [.flushAll 0], none)
  | .barrier k =>
      match ctx with
      | none =>
          some ({ s with pc := .sample, code := k, stack := [.recv false, .idle] },
            none)
      | some _ => none
  | .allReduce value k =>
      match ctx with
      | none =>
          some ({ s with pc := .reduce k, otherPosts := s.otherPosts ++ [value] },
            none)
      | some _ => none
  | .kill k =>
      match ctx with
      | none => some ({ s with pc := .join, code := k }, some (r, .buffer []))
      | some _ => none

/-- `comm::impl::async_flush(dest)`: nothing for the own rank or an empty buffer,
otherwise the buffer is swapped out and sent. -/
def asyncFlush (s : Rank n P σ V C) (dest : Fin n) (rest : List (Frame n P C)) :
    Outcome n P σ V C :=
  if dest = r ∨ s.sendBuffers dest = [] then
    ({ s with stack := rest }, none)
  else
    ({ s with
        sendBuffers := Function.update s.sendBuffers dest []
        stack := .sending dest :: rest },
      some (dest, .buffer (s.sendBuffers dest)))

/-- The destination that the loop of `async_flush_all` flushes at loop index `i`: the ranks from
the own one on, in a circle. -/
def flushDest (i : ℕ) : Fin n :=
  ⟨(r.val + i) % n, Nat.mod_lt _ (Nat.lt_of_le_of_lt (Nat.zero_le _) r.isLt)⟩

/-- The step that the innermost activation `frame` takes above the activations `rest`. -/
def frameStep (w : View n V) (s : Rank n P σ V C) (rest : List (Frame n P C)) :
    Frame n P C → Option (Outcome n P σ V C)
  | .user ctx k => userStep cfg prog r s (some ctx) rest (prog.next k s.mem)
  | .store m =>
      some ({ s with
        sendBuffers :=
          Function.update s.sendBuffers m.dest (s.sendBuffers m.dest ++ [m])
        issued := s.issued ++ [m]
        stack := rest }, none)
  | .announce m =>
      some ({ s with stack := .sending m.dest :: .large m :: rest },
        some (m.dest, .announce (prog.packedSize m.payload)))
  | .large m =>
      some ({ s with
        issued := s.issued ++ [m]
        stack := .sending m.dest :: rest }, some (m.dest, .large m))
  | .sending dest =>
      if cfg.synchronous = false ∨ w.matched dest = true then
        some ({ s with stack := rest }, none)
      else none
  | .peek =>
      match s.receiveQueue with
      | [] => some ({ s with stack := rest }, none)
      | _ :: _ => some ({ s with stack := .recv false :: rest }, none)
  | .flush dest => some (asyncFlush r s dest rest)
  | .flushAll i =>
      if i < n then
        some ({ s with stack := .flush (flushDest r i) :: .flushAll (i + 1) :: rest },
          none)
      else some ({ s with stack := rest }, none)
  | .recv received =>
      match s.receiveQueue with
      | [] => some ({ s with received := received, stack := rest }, none)
      | (msgs, src) :: queue =>
          some ({ s with receiveQueue := queue, stack := .parse src msgs :: rest },
            none)
  | .parse src tail =>
      match tail with
      | [] => some ({ s with stack := .recv true :: rest }, none)
      | m :: tail =>
          some ({ s with
            stack := .user (.remote src m tail) (prog.handler src m.payload) :: rest },
            none)
  | .idle =>
      some ({ s with stack := .flushAll 0 :: .recv false :: .idleTest :: rest }, none)
  | .idleTest =>
      if s.received then some ({ s with stack := .idle :: rest }, none)
      else some ({ s with stack := rest }, none)

/-- The main thread with no activation above the main program: the main program
itself, `barrier`, a reduction on `m_comm_other`, or the join.  `wait_local_idle`
is called by pushing its two activations. -/
def topStep (w : View n V) (s : Rank n P σ V C) : Option (Outcome n P σ V C) :=
  match s.pc with
  | .user => userStep cfg prog r s none [] (prog.next s.code s.mem)
  | .sample =>
      some ({ s with
        pc := .test s.localCount
        barrierPosts := s.barrierPosts ++ [(.first, s.localCount)] }, none)
  | .test first =>
      match w.allCount with
      | none => some ({ s with stack := [.recv false, .idle] }, none)
      | some sum =>
          if w.testFlag = false then
            some ({ s with stack := [.recv false, .idle] }, none)
          else if sum = 0 then
            some ({ s with
              pc := .second first s.localCount
              barrierPosts := s.barrierPosts ++ [(.second, s.localCount)] }, none)
          else some ({ s with pc := .sample, stack := [.recv false, .idle] }, none)
  | .second first second =>
      match w.allCount with
      | none => none
      | some sum =>
          if sum = 0 then
            if first = second then
              some ({ s with pc := .user, epoch := s.epoch + 1 }, none)
            else some ({ s with pc := .thrown first second }, none)
          else some ({ s with pc := .sample, stack := [.recv false, .idle] }, none)
  | .reduce k =>
      w.reduced.map fun value => ({ s with pc := .user, code := k value }, none)
  | .join =>
      if s.listener = .stopped then some ({ s with pc := .user }, none) else none
  | .thrown _ _ => none

/-- **One step of the main thread**: of its innermost activation, or of the main program and
`barrier` when there is none. -/
def mainStep (w : View n V) (s : Rank n P σ V C) : Option (Outcome n P σ V C) :=
  match s.stack with
  | [] => topStep cfg prog r w s
  | frame :: rest => frameStep cfg prog r w s rest frame

/-- The first packet with `large_message_tag` in a stream, and the stream without
it: what a receive with that tag matches. -/
def takeLarge : List (Packet n P) → Option (Rpc n P × List (Packet n P))
  | [] => none
  | .large m :: stream => some (m, stream)
  | packet :: stream => (takeLarge stream).map fun found => (found.1, packet :: found.2)

/-- **One step of the listener**, matching a packet from `src`.  The any-source
receive has room for `m_buffer_capacity` bytes and treats every tag but the
announcement's as an ordinary buffer; a message that does not fit is an MPI error
and ends the run. -/
def listenStep (src : Fin n) (stream : List (Packet n P)) (s : Rank n P σ V C) :
    Option (Rank n P σ V C × List (Packet n P)) :=
  let push (msgs : List (Rpc n P)) : Rank n P σ V C :=
    if src = r then { s with listener := .stopped }
    else { s with receiveQueue := s.receiveQueue ++ [(msgs, src)] }
  match s.listener with
  | .any =>
      match stream with
      | [] => none
      | .announce size :: stream =>
          if 8 ≤ cfg.bufferCapacity then
            some ({ s with listener := .large src size }, stream)
          else none
      | .buffer msgs :: stream =>
          if prog.bufferSize msgs ≤ cfg.bufferCapacity then some (push msgs, stream)
          else none
      | .large m :: stream =>
          if prog.packedSize m.payload ≤ cfg.bufferCapacity then
            some (push [m], stream)
          else none
  | .large source size =>
      if source = src then
        (takeLarge stream).bind fun found =>
          if prog.packedSize found.1.payload = size then
            some ({ s with
              listener := .any
              receiveQueue := s.receiveQueue ++ [([found.1], src)] }, found.2)
          else none
      else none
  | .stopped => none

end Main

/-- **The whole system**: all ranks and the streams of packets between them. -/
structure Sys (n : ℕ) (P σ V C : Type) where
  rank : Fin n → Rank n P σ V C
  /-- `net s d`: sent by `s` to `d` on `m_comm_async`, not yet received. -/
  net : Fin n → Fin n → List (Packet n P)

/-- The label of a step: the main thread of a rank moves, or its listener receives from a
source. -/
inductive Action (n : ℕ)
  /-- The main thread of `r`; `flag` is what `MPI_Test` reports on completion. -/
  | main (r : Fin n) (flag : Bool)
  /-- The listener of `r`, matching a packet from `src`. -/
  | listen (r src : Fin n)

namespace Sys

/-- The result of the collective `r` posted last on `m_comm_barrier`: the sum of
all contributions, once they are all there. -/
def allCount (c : Sys n P σ V C) (r : Fin n) : Option ℤ :=
  result (fun i => (c.rank i).barrierPosts) r

/-- The result of the reduction that `r` posted last on `m_comm_other`: the combination of all
contributions, once every rank has posted its own. -/
def reduced (prog : Program n P σ V C) (c : Sys n P σ V C) (r : Fin n) : Option V :=
  let j := (c.rank r).otherPosts.length - 1
  if posted : ∀ i, j < (c.rank i).otherPosts.length then
    some (prog.combine fun i => (c.rank i).otherPosts.get ⟨j, posted i⟩)
  else none

/-- The view that the main thread of `r` has of the state `c`, with `flag` as the answer of
`MPI_Test`. -/
def view (prog : Program n P σ V C) (c : Sys n P σ V C) (r : Fin n) (flag : Bool) :
    View n V where
  testFlag := flag
  allCount := c.allCount r
  reduced := c.reduced prog r
  matched := fun dest => (c.net r dest).isEmpty

/-- The network after rank `src` has handed a packet to MPI: the packet is the last of its
stream. -/
def send (net : Fin n → Fin n → List (Packet n P)) (src : Fin n) :
    Option (Fin n × Packet n P) → Fin n → Fin n → List (Packet n P)
  | none => net
  | some (dest, packet) =>
      Function.update net src
        (Function.update (net src) dest (net src dest ++ [packet]))

/-- **One atomic step of the system**: the main thread or the listener of one rank moves, and
the network changes with it. -/
def step (cfg : Config) (prog : Program n P σ V C) (c : Sys n P σ V C) :
    Action n → Option (Sys n P σ V C)
  | .main r flag =>
      (mainStep cfg prog r (c.view prog r flag) (c.rank r)).map fun out =>
        { rank := Function.update c.rank r out.1, net := send c.net r out.2 }
  | .listen r src =>
      (listenStep cfg prog r src (c.net src r) (c.rank r)).map fun out =>
        { rank := Function.update c.rank r out.1
          net := Function.update c.net src (Function.update (c.net src) r out.2) }

end Sys

/-- **The communicator running `prog`**: rank `r` starts its main program at
`main r` with memory `mem r`. -/
def comm (cfg : Config) (prog : Program n P σ V C) (mem : Fin n → σ)
    (main : Fin n → C) : Machine (Sys n P σ V C) (Action n) where
  init :=
    { rank := fun r => Rank.init (mem r) (main r)
      net := fun _ _ => [] }
  step := Sys.step cfg prog

end YGM
