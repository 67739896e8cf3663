import YGM.Comm.Wire
import YGM.Comm.Delivery

/-!
# The communicator in bytes

In `comm` a send buffer is a list of calls.  In `include/ygm/detail/comm_impl.hpp` it is a vector
of bytes: `async` packs its call with `pack_lambda` and appends the bytes, `MPI_Send` sends them
as they are, and `receive_queue_process` finds out from the bytes alone, in the address space of
another process, where one call ends and which handler the next one is for.

`wireComm` is that machine.  It has the same labels as `comm`, and none of its histories; an open
archive is the bytes it has not read (`Reader.rest`).

The calls of a state of `comm` determine the bytes (`Sys.bytes`), and every step of `comm` is the
step of `wireComm` on the bytes (`step_bytes`), so the two reach the same states
(`wire_refines`).  Hence whatever is proved of `comm` holds of the machine in bytes, and the parse
loop finds a call wherever it looks for one.
-/

namespace YGM.Wire

variable {H : Type} {image : Image H} {n : ℕ} {σ V C : Type}

/-! ## The states -/

/-- A message on `m_comm_async` as bytes, by its tag. -/
inductive Packet
  | buffer (data : List UInt8)
  | announce (size : ℕ)
  | large (data : List UInt8)

/-- The handler that is running, as far as the parse loop is concerned: one called by
`local_receive`, or one called by `receive_queue_process`, with what is left of the archive its
arguments come from. -/
inductive Ctx (n : ℕ)
  | self
  | remote (src : Fin n) (rest : List UInt8)

/-- An activation of the main thread above the main program, where packed calls are bytes. -/
inductive Frame (n : ℕ) (C : Type)
  | user (ctx : Ctx n) (k : C)
  | store (dest : Fin n) (data : List UInt8)
  | announce (dest : Fin n) (data : List UInt8)
  | large (dest : Fin n) (data : List UInt8)
  | sending (dest : Fin n)
  | peek
  | flush (dest : Fin n)
  | flushAll (i : ℕ)
  | recv (received : Bool)
  /-- `receive_queue_process` is about to test `iarchive.empty()` for the rest of a buffer. -/
  | parse (src : Fin n) (rest : List UInt8)
  | idle
  | idleTest

/-- **One rank in the machine of bytes**: the fields of `comm::impl` with buffers as vectors of
bytes, and no histories. -/
structure Rank (n : ℕ) (σ V C : Type) where
  /-- The number of remote calls started by this rank (`m_send_count`). -/
  sendCount : ℤ
  /-- The number of remote calls whose handler has returned on this rank (`m_recv_count`). -/
  recvCount : ℤ
  /-- The number of bytes to which the remote calls of this rank have been packed
  (`m_local_bytes_sent`). -/
  localBytesSent : ℤ
  /-- The number of calls whose handler has returned in `receive_queue_process` of this rank
  (`m_local_rpc_calls`). -/
  localRpcCalls : ℤ
  /-- The bytes waiting in the send buffer of each destination (`m_vec_send_buffers`). -/
  sendBuffers : Fin n → List UInt8
  /-- The received buffers with their sources, the oldest first (`m_receive_queue`). -/
  receiveQueue : List (List UInt8 × Fin n)
  listener : Listener n
  mem : σ
  code : C
  pc : Pc V C
  stack : List (Frame n C)
  received : Bool
  barrierPosts : List (Kind × ℤ)
  otherPosts : List V

/-- The result of a step of the main thread: the rank after the step, and the message it handed
to MPI, if it sent one. -/
abbrev Outcome (n : ℕ) (σ V C : Type) :=
  Rank n σ V C × Option (Fin n × Packet)

def Rank.init (mem : σ) (code : C) : Rank n σ V C where
  sendCount := 0
  recvCount := 0
  localBytesSent := 0
  localRpcCalls := 0
  sendBuffers := fun _ => []
  receiveQueue := []
  listener := .any
  mem := mem
  code := code
  pc := .user
  stack := []
  received := false
  barrierPosts := []
  otherPosts := []

def Rank.localCount (s : Rank n σ V C) : ℤ :=
  s.sendCount - s.recvCount

def Rank.resume (s : Rank n σ V C) (ctx : Option (Ctx n)) (rest : List (Frame n C)) (k : C) :
    Rank n σ V C :=
  match ctx with
  | none => { s with code := k, stack := rest }
  | some ctx => { s with stack := .user ctx k :: rest }

def Rank.call (s : Rank n σ V C) (frames : List (Frame n C)) : Rank n σ V C :=
  { s with stack := frames ++ s.stack }

/-! ## The steps -/

section Main

variable (cfg : Config) (prog : Program n (Message image) σ V C) (base : Fin n → BitVec 64)
variable (r : Fin n)

/-- `comm::impl::async` up to the first call it makes: it packs the call and goes by the number
of its bytes. -/
def async (s : Rank n σ V C) (dest : Fin n) (m : Message image) : Rank n σ V C :=
  if dest = r then
    s.call [.user .self (prog.handler r (image.localReceive m.handler m.args)), .peek]
  else
    let data := image.packLambda (base r) m
    let counted := { s with
      sendCount := s.sendCount + 1
      localBytesSent := s.localBytesSent + data.length }
    if data.length < cfg.bufferCapacity then
      if cfg.bufferCapacity < data.length + (s.sendBuffers dest).length then
        counted.call [.flush dest, .store dest data, .peek]
      else
        counted.call [.store dest data, .peek]
    else
      counted.call [.announce dest data, .peek]

/-- A command of user code in context `ctx`, above the activations `rest`. -/
def userStep (s : Rank n σ V C) (ctx : Option (Ctx n)) (rest : List (Frame n C)) :
    Cmd n (Message image) σ V C → Option (Outcome n σ V C)
  | .ret mem =>
      match ctx with
      | none => none
      | some .self => some ({ s with mem := mem, stack := rest }, none)
      | some (.remote src unread) =>
          some ({ s with
            mem := mem
            stack := .parse src unread :: rest
            recvCount := s.recvCount + 1
            localRpcCalls := s.localRpcCalls + 1 }, none)
  | .update mem k => some ({ s with mem := mem }.resume ctx rest k, none)
  | .async dest m k => some (async cfg prog base r (s.resume ctx rest k) dest m, none)
  | .asyncFlush dest k => some ((s.resume ctx rest k).call [.flush dest], none)
  | .asyncFlushAll k => some ((s.resume ctx rest k).call [.flushAll 0], none)
  | .barrier k =>
      match ctx with
      | none =>
          some ({ s with pc := .sample, code := k, stack := [.recv false, .idle] }, none)
      | some _ => none
  | .allReduce value k =>
      match ctx with
      | none =>
          some ({ s with pc := .reduce k, otherPosts := s.otherPosts ++ [value] }, none)
      | some _ => none
  | .kill k =>
      match ctx with
      | none => some ({ s with pc := .join, code := k }, some (r, .buffer []))
      | some _ => none

/-- `comm::impl::async_flush(dest)`: the bytes of the send buffer are sent as they are, if there
are any. -/
def asyncFlush (s : Rank n σ V C) (dest : Fin n) (rest : List (Frame n C)) :
    Outcome n σ V C :=
  if dest = r ∨ (s.sendBuffers dest).length = 0 then
    ({ s with stack := rest }, none)
  else
    ({ s with
        sendBuffers := Function.update s.sendBuffers dest []
        stack := .sending dest :: rest },
      some (dest, .buffer (s.sendBuffers dest)))

/-- The innermost activation takes a step above `rest`.  An offset that is no handler's, or
arguments that end beyond the buffer, end the run. -/
def frameStep (w : View n V) (s : Rank n σ V C) (rest : List (Frame n C)) :
    Frame n C → Option (Outcome n σ V C)
  | .user ctx k => userStep cfg prog base r s (some ctx) rest (prog.next k s.mem)
  | .store dest data =>
      some ({ s with
        sendBuffers := Function.update s.sendBuffers dest (s.sendBuffers dest ++ data)
        stack := rest }, none)
  | .announce dest data =>
      some ({ s with stack := .sending dest :: .large dest data :: rest },
        some (dest, .announce data.length))
  | .large dest data =>
      some ({ s with stack := .sending dest :: rest }, some (dest, .large data))
  | .sending dest =>
      if cfg.synchronous = false ∨ w.matched dest = true then
        some ({ s with stack := rest }, none)
      else none
  | .peek =>
      match s.receiveQueue with
      | [] => some ({ s with stack := rest }, none)
      | _ :: _ => some ({ s with stack := .recv false :: rest }, none)
  | .flush dest => some (asyncFlush r s dest rest)
  | .flushAll i =>
      if i < n then
        some ({ s with stack := .flush (flushDest r i) :: .flushAll (i + 1) :: rest }, none)
      else some ({ s with stack := rest }, none)
  | .recv received =>
      match s.receiveQueue with
      | [] => some ({ s with received := received, stack := rest }, none)
      | (data, src) :: queue =>
          some ({ s with receiveQueue := queue, stack := .parse src data :: rest }, none)
  | .parse src unread =>
      if (Reader.ofData unread).empty then some ({ s with stack := .recv true :: rest }, none)
      else
        (image.parseOne (base r) (.ofData unread)).map fun out =>
          ({ s with
            stack := .user (.remote src out.2.rest) (prog.handler src out.1.message) :: rest },
            none)
  | .idle =>
      some ({ s with stack := .flushAll 0 :: .recv false :: .idleTest :: rest }, none)
  | .idleTest =>
      if s.received then some ({ s with stack := .idle :: rest }, none)
      else some ({ s with stack := rest }, none)

/-- The main thread with no activation above the main program: the main program itself,
`barrier`, a reduction, or the join. -/
def topStep (w : View n V) (s : Rank n σ V C) : Option (Outcome n σ V C) :=
  match s.pc with
  | .user => userStep cfg prog base r s none [] (prog.next s.code s.mem)
  | .sample =>
      some ({ s with
        pc := .test s.localCount
        barrierPosts := s.barrierPosts ++ [(.first, s.localCount)] }, none)
  | .test first =>
      match w.allCount with
      | none => some ({ s with stack := [.recv false, .idle] }, none)
      | some sum =>
          if w.testFlag = false then
            some ({ s with stack := [.recv false, .idle] }, none)
          else if sum = 0 then
            some ({ s with
              pc := .second first s.localCount
              barrierPosts := s.barrierPosts ++ [(.second, s.localCount)] }, none)
          else some ({ s with pc := .sample, stack := [.recv false, .idle] }, none)
  | .second first second =>
      match w.allCount with
      | none => none
      | some sum =>
          if sum = 0 then
            if first = second then some ({ s with pc := .user }, none)
            else some ({ s with pc := .thrown first second }, none)
          else some ({ s with pc := .sample, stack := [.recv false, .idle] }, none)
  | .reduce k => w.reduced.map fun value => ({ s with pc := .user, code := k value }, none)
  | .join =>
      if s.listener = .stopped then some ({ s with pc := .user }, none) else none
  | .thrown _ _ => none

/-- **One step of the main thread**: of its innermost activation, or of the main program and
`barrier` when there is none. -/
def mainStep (w : View n V) (s : Rank n σ V C) : Option (Outcome n σ V C) :=
  match s.stack with
  | [] => topStep cfg prog base r w s
  | frame :: rest => frameStep cfg prog base r w s rest frame

/-- The first message with `large_message_tag` in a stream, and the stream without it: what a
receive with that tag matches. -/
def takeLarge : List Packet → Option (List UInt8 × List Packet)
  | [] => none
  | .large data :: stream => some (data, stream)
  | packet :: stream => (takeLarge stream).map fun found => (found.1, packet :: found.2)

/-- **One step of the listener**, which matches a message from `src` and knows no more of it
than its bytes and its tag. -/
def listenStep (src : Fin n) (stream : List Packet) (s : Rank n σ V C) :
    Option (Rank n σ V C × List Packet) :=
  let push (data : List UInt8) : Rank n σ V C :=
    if src = r then { s with listener := .stopped }
    else { s with receiveQueue := s.receiveQueue ++ [(data, src)] }
  match s.listener with
  | .any =>
      match stream with
      | [] => none
      | .announce size :: stream =>
          if 8 ≤ cfg.bufferCapacity then
            some ({ s with listener := .large src size }, stream)
          else none
      | .buffer data :: stream =>
          if data.length ≤ cfg.bufferCapacity then some (push data, stream) else none
      | .large data :: stream =>
          if data.length ≤ cfg.bufferCapacity then some (push data, stream) else none
  | .large source size =>
      if source = src then
        (takeLarge stream).bind fun found =>
          if found.1.length = size then
            some ({ s with
              listener := .any
              receiveQueue := s.receiveQueue ++ [(found.1, src)] }, found.2)
          else none
      else none
  | .stopped => none

end Main

/-- **The whole system**: all ranks and the streams of messages between them. -/
structure Sys (n : ℕ) (σ V C : Type) where
  rank : Fin n → Rank n σ V C
  net : Fin n → Fin n → List Packet

namespace Sys

def allCount (c : Sys n σ V C) (r : Fin n) : Option ℤ :=
  result (fun i => (c.rank i).barrierPosts) r

def reduced (prog : Program n (Message image) σ V C) (c : Sys n σ V C) (r : Fin n) : Option V :=
  let j := (c.rank r).otherPosts.length - 1
  if posted : ∀ i, j < (c.rank i).otherPosts.length then
    some (prog.combine fun i => (c.rank i).otherPosts.get ⟨j, posted i⟩)
  else none

def view (prog : Program n (Message image) σ V C) (c : Sys n σ V C) (r : Fin n) (flag : Bool) :
    View n V where
  testFlag := flag
  allCount := c.allCount r
  reduced := c.reduced prog r
  matched := fun dest => (c.net r dest).isEmpty

def send (net : Fin n → Fin n → List Packet) (src : Fin n) :
    Option (Fin n × Packet) → Fin n → Fin n → List Packet
  | none => net
  | some (dest, packet) =>
      Function.update net src
        (Function.update (net src) dest (net src dest ++ [packet]))

/-- **One atomic step of the system**: the main thread or the listener of one rank moves, and
the network changes with it. -/
def step (cfg : Config) (prog : Program n (Message image) σ V C) (base : Fin n → BitVec 64)
    (c : Sys n σ V C) : Action n → Option (Sys n σ V C)
  | .main r flag =>
      (mainStep cfg prog base r (c.view prog r flag) (c.rank r)).map fun out =>
        { rank := Function.update c.rank r out.1, net := send c.net r out.2 }
  | .listen r src =>
      (listenStep cfg r src (c.net src r) (c.rank r)).map fun out =>
        { rank := Function.update c.rank r out.1
          net := Function.update c.net src (Function.update (c.net src) r out.2) }

end Sys

/-- **The communicator in bytes**, in processes that have loaded the program file at `base`. -/
def wireComm (cfg : Config) (prog : Program n (Message image) σ V C) (base : Fin n → BitVec 64)
    (mem : Fin n → σ) (main : Fin n → C) : Machine (Sys n σ V C) (Action n) where
  init :=
    { rank := fun r => Rank.init (mem r) (main r)
      net := fun _ _ => [] }
  step := Sys.step cfg prog base

end YGM.Wire

namespace YGM

variable {H : Type} {image : Image H} {n : ℕ} {σ V C : Type}

/-! ## The bytes of a state -/

section Bytes

variable (base : Fin n → BitVec 64)

/-- The bytes of a list of calls that `src` has packed, one after the other. -/
def packed (src : Fin n) (msgs : List (Rpc n (Message image))) : List UInt8 :=
  (msgs.map Rpc.payload).flatMap (image.packLambda (base src))

def Packet.bytes (src : Fin n) : Packet n (Message image) → Wire.Packet
  | .buffer msgs => .buffer (packed base src msgs)
  | .announce size => .announce size
  | .large m => .large (packed base src [m])

def Ctx.bytes : Ctx n (Message image) → Wire.Ctx n
  | .self _ => .self
  | .remote src _ tail => .remote src (packed base src tail)

/-- The activation that an activation of rank `r` is in the machine of bytes. -/
def Frame.bytes (r : Fin n) : Frame n (Message image) C → Wire.Frame n C
  | .user ctx k => .user (ctx.bytes base) k
  | .store m => .store m.dest (packed base r [m])
  | .announce m => .announce m.dest (packed base r [m])
  | .large m => .large m.dest (packed base r [m])
  | .sending dest => .sending dest
  | .peek => .peek
  | .flush dest => .flush dest
  | .flushAll i => .flushAll i
  | .recv received => .recv received
  | .parse src tail => .parse src (packed base src tail)
  | .idle => .idle
  | .idleTest => .idleTest

/-- **The bytes of rank `r`**: its buffers, queue and open archives packed, and its counters as
they are. -/
def Rank.bytes (r : Fin n) (s : Rank n (Message image) σ V C) : Wire.Rank n σ V C where
  sendCount := s.sendCount
  recvCount := s.recvCount
  localBytesSent := s.localBytesSent
  localRpcCalls := s.localRpcCalls
  sendBuffers := fun dest => packed base r (s.sendBuffers dest)
  receiveQueue := s.receiveQueue.map fun entry => (packed base entry.2 entry.1, entry.2)
  listener := s.listener
  mem := s.mem
  code := s.code
  pc := s.pc
  stack := s.stack.map (Frame.bytes base r)
  received := s.received
  barrierPosts := s.barrierPosts
  otherPosts := s.otherPosts

/-- **The bytes of the system**: those of its ranks and of the packets between them. -/
def Sys.bytes (c : Sys n (Message image) σ V C) : Wire.Sys n σ V C where
  rank := fun r => (c.rank r).bytes base r
  net := fun src dest => (c.net src dest).map (Packet.bytes base src)

/-- The bytes of the result of a step of rank `r`. -/
def Outcome.bytes (r : Fin n) (out : Outcome n (Message image) σ V C) : Wire.Outcome n σ V C :=
  (out.1.bytes base r, out.2.map fun sent => (sent.1, sent.2.bytes base r))

end Bytes

section Packed

variable {base : Fin n → BitVec 64} {src : Fin n}

@[simp] theorem packed_nil : packed base src ([] : List (Rpc n (Message image))) = [] :=
  rfl

theorem packed_append (msgs msgs' : List (Rpc n (Message image))) :
    packed base src (msgs ++ msgs') = packed base src msgs ++ packed base src msgs' := by
  simp [packed]

theorem packed_cons (m : Rpc n (Message image)) (msgs : List (Rpc n (Message image))) :
    packed base src (m :: msgs) = image.packLambda (base src) m.payload ++ packed base src msgs :=
  rfl

theorem packed_singleton (m : Rpc n (Message image)) :
    packed base src [m] = image.packLambda (base src) m.payload := by
  simp [packed]

/-- The bytes of a buffer are empty exactly if it has no calls, since every packed call has
bytes. -/
theorem packed_length_eq_zero {msgs : List (Rpc n (Message image))} :
    (packed base src msgs).length = 0 ↔ msgs = [] := by
  constructor
  · intro empty
    cases msgs with
    | nil => rfl
    | cons m msgs =>
        have long : 8 ≤ (image.packLambda (base src) m.payload).length :=
          Image.eight_le_packLambda m.payload
        rw [packed_cons, List.length_append] at empty
        omega
  · rintro rfl
    rfl

/-- An archive over packed calls is empty exactly if there are no calls to be read from it. -/
theorem empty_packed {msgs : List (Rpc n (Message image))} :
    (Reader.ofData (packed base src msgs)).empty = true ↔ msgs = [] := by
  rw [Reader.empty_iff, Reader.rest, Reader.ofData, List.drop_zero, ← List.length_eq_zero_iff]
  exact packed_length_eq_zero

/-- **The parse loop finds the next call**, and after it the calls that follow. -/
theorem parseOne_packed (receiver : BitVec 64) (m : Rpc n (Message image))
    (tail : List (Rpc n (Message image))) :
    ∃ parsed ar, image.parseOne receiver (.ofData (packed base src (m :: tail)))
        = some (parsed, ar) ∧ parsed.message = m.payload ∧ ar.rest = packed base src tail := by
  have ahead : (Reader.ofData (packed base src (m :: tail))).rest
      = image.packLambda (base src) m.payload ++ packed base src tail := by
    simp [Reader.rest, Reader.ofData, packed_cons]
  obtain ⟨ar, read, advanced⟩ := Image.parseOne_packLambda m.payload ahead
  exact ⟨_, ar, read, rfl, advanced.rest_append ahead⟩

end Packed

/-! ## Every step -/

section Steps

variable {cfg : Config} {prog : Program n (Message image) σ V C} {base : Fin n → BitVec 64}
variable {r : Fin n}

@[simp] theorem Rank.bytes_resume (s : Rank n (Message image) σ V C)
    (ctx : Option (Ctx n (Message image))) (rest : List (Frame n (Message image) C)) (k : C) :
    (s.resume ctx rest k).bytes base r
      = (s.bytes base r).resume (ctx.map (Ctx.bytes base)) (rest.map (Frame.bytes base r)) k := by
  cases ctx <;> rfl

@[simp] theorem Rank.bytes_call (s : Rank n (Message image) σ V C)
    (frames : List (Frame n (Message image) C)) :
    (s.call frames).bytes base r = (s.bytes base r).call (frames.map (Frame.bytes base r)) := by
  simp [Rank.call, Wire.Rank.call, Rank.bytes]

/-- **An `async` in bytes** packs the call that `comm` counts, and its tests come out the same. -/
theorem async_bytes (sizes : ∀ r m, prog.packedSize m = (image.packLambda (base r) m).length)
    (s : Rank n (Message image) σ V C) (ctx : Option (Ctx n (Message image))) (dest : Fin n)
    (m : Message image) :
    Wire.async cfg prog base r (s.bytes base r) dest m
      = (async cfg prog r s ctx dest m).bytes base r := by
  have stored : prog.bufferSize (s.sendBuffers dest)
      = ((s.bytes base r).sendBuffers dest).length := Image.bufferSize_eq (sizes r) _
  unfold Wire.async async
  simp only [sizes r m, stored]
  by_cases self : dest = r
  · simp only [self, ↓reduceIte, Rank.bytes_call]
    rfl
  · simp only [self, ↓reduceIte]
    by_cases small : (image.packLambda (base r) m).length < cfg.bufferCapacity
    · simp only [small, ↓reduceIte]
      by_cases full : cfg.bufferCapacity
          < (image.packLambda (base r) m).length + ((s.bytes base r).sendBuffers dest).length
      · simp only [full, ↓reduceIte, Rank.bytes_call, List.map_cons, List.map_nil, Frame.bytes,
          packed_singleton]
        rfl
      · simp only [full, ↓reduceIte, Rank.bytes_call, List.map_cons, List.map_nil, Frame.bytes,
          packed_singleton]
        rfl
    · simp only [small, ↓reduceIte, Rank.bytes_call, List.map_cons, List.map_nil, Frame.bytes,
        packed_singleton]
      rfl

theorem userStep_bytes (sizes : ∀ r m, prog.packedSize m = (image.packLambda (base r) m).length)
    (s : Rank n (Message image) σ V C) (ctx : Option (Ctx n (Message image)))
    (rest : List (Frame n (Message image) C)) (cmd : Cmd n (Message image) σ V C) :
    Wire.userStep cfg prog base r (s.bytes base r) (ctx.map (Ctx.bytes base))
        (rest.map (Frame.bytes base r)) cmd
      = (userStep cfg prog r s ctx rest cmd).map (Outcome.bytes base r) := by
  cases cmd with
  | async dest m k =>
      simp only [Wire.userStep, userStep, Option.map_some, Outcome.bytes, Option.map_none,
        ← Rank.bytes_resume, async_bytes sizes _ ctx]
  | update mem k | asyncFlush dest k | asyncFlushAll k =>
      simp only [Wire.userStep, userStep, Option.map_some, Outcome.bytes, Option.map_none,
        Rank.bytes_resume, Rank.bytes_call]
      rfl
  | ret mem =>
      rcases ctx with _ | ⟨m⟩ | ⟨src, m, tail⟩ <;> rfl
  | barrier k | allReduce value k | kill k =>
      cases ctx <;> rfl

/-- **A flush in bytes** sends the bytes of the calls that are in the send buffer of `comm`. -/
theorem asyncFlush_bytes (s : Rank n (Message image) σ V C) (dest : Fin n)
    (rest : List (Frame n (Message image) C)) :
    Wire.asyncFlush r (s.bytes base r) dest (rest.map (Frame.bytes base r))
      = Outcome.bytes base r (asyncFlush r s dest rest) := by
  have empty : ((s.bytes base r).sendBuffers dest).length = 0 ↔ s.sendBuffers dest = [] :=
    packed_length_eq_zero
  unfold Wire.asyncFlush asyncFlush
  by_cases skip : dest = r ∨ s.sendBuffers dest = []
  · rw [if_pos skip, if_pos (skip.imp id empty.mpr)]
    rfl
  · rw [if_neg skip, if_neg (mt (Or.imp id empty.mp) skip)]
    have emptied : (fun d => packed base r (Function.update s.sendBuffers dest [] d))
        = Function.update (fun d => packed base r (s.sendBuffers d)) dest [] := by
      funext d
      by_cases hd : d = dest
      · subst hd
        simp
      · simp [hd]
    simp [Outcome.bytes, Rank.bytes, Packet.bytes, Frame.bytes, emptied]

/-- **A step of an activation** in `comm` is the step of its bytes. -/
theorem frameStep_bytes (sizes : ∀ r m, prog.packedSize m = (image.packLambda (base r) m).length)
    (w : View n V) (s : Rank n (Message image) σ V C) (rest : List (Frame n (Message image) C))
    (frame : Frame n (Message image) C) :
    Wire.frameStep cfg prog base r w (s.bytes base r) (rest.map (Frame.bytes base r))
        (frame.bytes base r)
      = (frameStep cfg prog r w s rest frame).map (Outcome.bytes base r) := by
  cases frame with
  | user ctx k => exact userStep_bytes sizes s (some ctx) rest (prog.next k s.mem)
  | store m =>
      have stored : (fun d => packed base r
            (Function.update s.sendBuffers m.dest (s.sendBuffers m.dest ++ [m]) d))
          = Function.update (fun d => packed base r (s.sendBuffers d)) m.dest
            (packed base r (s.sendBuffers m.dest) ++ packed base r [m]) := by
        funext d
        by_cases hd : d = m.dest
        · subst hd
          simp [packed_append]
        · simp [hd]
      simp [Wire.frameStep, frameStep, Frame.bytes, Outcome.bytes, Rank.bytes, stored]
  | announce m =>
      simp [Wire.frameStep, frameStep, Frame.bytes, Outcome.bytes, Rank.bytes, Packet.bytes,
        packed_singleton, sizes r]
  | sending dest =>
      unfold Frame.bytes Wire.frameStep frameStep
      dsimp only
      split <;> rfl
  | peek | recv received =>
      cases queue : s.receiveQueue with
      | nil => simp [Wire.frameStep, frameStep, Frame.bytes, Outcome.bytes, Rank.bytes, queue]
      | cons entry queue' =>
          simp [Wire.frameStep, frameStep, Frame.bytes, Outcome.bytes, Rank.bytes, queue]
  | flush dest =>
      simp only [Wire.frameStep, frameStep, Frame.bytes, asyncFlush_bytes, Option.map_some]
  | flushAll i =>
      unfold Frame.bytes Wire.frameStep frameStep
      dsimp only
      split <;> rfl
  | parse src tail =>
      cases tail with
      | nil =>
          have empty : (Reader.ofData (packed base src ([] : List (Rpc n (Message image))))).empty
              = true := empty_packed.mpr rfl
          simp only [Wire.frameStep, frameStep, Frame.bytes, empty, ↓reduceIte]
          rfl
      | cons m tail =>
          have more : ¬ (Reader.ofData (packed base src (m :: tail))).empty = true := by
            simp [empty_packed]
          obtain ⟨parsed, ar, read, message, left⟩ :
              ∃ parsed ar, image.parseOne (base r) (.ofData (packed base src (m :: tail)))
                  = some (parsed, ar) ∧ parsed.message = m.payload ∧
                ar.rest = packed base src tail :=
            parseOne_packed (base r) m tail
          simp only [Wire.frameStep, frameStep, Frame.bytes, more, Bool.false_eq_true, ↓reduceIte]
          rw [read, Option.map_some, Option.map_some, message, left]
          rfl
  | idleTest =>
      have same : (s.bytes base r).received = s.received := rfl
      simp only [Wire.frameStep, frameStep, Frame.bytes, same]
      split <;> rfl
  | large m | idle => rfl

/-- **A step of the main program, of `barrier` or of a reduction** in `comm` is the step of its
bytes. -/
theorem topStep_bytes (sizes : ∀ r m, prog.packedSize m = (image.packLambda (base r) m).length)
    (w : View n V) (s : Rank n (Message image) σ V C) :
    Wire.topStep cfg prog base r w (s.bytes base r)
      = (topStep cfg prog r w s).map (Outcome.bytes base r) := by
  have user :
      Wire.userStep cfg prog base r (s.bytes base r) none [] (prog.next s.code s.mem) = _ :=
    userStep_bytes sizes s none [] _
  unfold Wire.topStep topStep
  cases pc : s.pc with
  | user => simpa [Rank.bytes, pc] using user
  | reduce k =>
      simp only [Rank.bytes, pc, Option.map_map]
      rfl
  | test first =>
      simp only [Rank.bytes, pc]
      cases w.allCount with
      | none => rfl
      | some sum =>
          by_cases waits : w.testFlag = false
          · simp only [waits, ↓reduceIte]
            rfl
          · by_cases zero : sum = 0
            · simp only [waits, zero, Bool.true_eq_false, ↓reduceIte]
              rfl
            · simp only [waits, zero, Bool.true_eq_false, ↓reduceIte]
              rfl
  | second first second =>
      simp only [Rank.bytes, pc]
      cases w.allCount with
      | none => rfl
      | some sum =>
          by_cases zero : sum = 0
          · by_cases agree : first = second
            · simp only [zero, agree, ↓reduceIte]
              rfl
            · simp only [zero, agree, ↓reduceIte]
              rfl
          · simp only [zero, ↓reduceIte]
            rfl
  | join =>
      simp only [Rank.bytes, pc]
      split <;> rfl
  | sample | thrown => simp [Rank.bytes, pc, Outcome.bytes, Rank.localCount, Wire.Rank.localCount]

theorem mainStep_bytes (sizes : ∀ r m, prog.packedSize m = (image.packLambda (base r) m).length)
    (w : View n V) (s : Rank n (Message image) σ V C) :
    Wire.mainStep cfg prog base r w (s.bytes base r)
      = (mainStep cfg prog r w s).map (Outcome.bytes base r) := by
  have frames : (s.bytes base r).stack = s.stack.map (Frame.bytes base r) := rfl
  unfold Wire.mainStep mainStep
  rw [frames]
  cases s.stack with
  | nil => exact topStep_bytes sizes w s
  | cons frame rest => exact frameStep_bytes sizes w s rest frame

theorem takeLarge_bytes (src : Fin n) (stream : List (Packet n (Message image))) :
    Wire.takeLarge (stream.map (Packet.bytes base src))
      = (takeLarge stream).map fun found =>
          (packed base src [found.1], found.2.map (Packet.bytes base src)) := by
  induction stream with
  | nil => rfl
  | cons packet stream ih =>
      cases packet with
      | large m => rfl
      | buffer msgs | announce size =>
          simp only [List.map_cons, Packet.bytes, Wire.takeLarge, takeLarge, ih, Option.map_map]
          rfl

/-- **A step of the listener** in `comm` is the step of its bytes. -/
theorem listenStep_bytes
    (sizes : ∀ r m, prog.packedSize m = (image.packLambda (base r) m).length) (src : Fin n)
    (stream : List (Packet n (Message image))) (s : Rank n (Message image) σ V C) :
    Wire.listenStep cfg r src (stream.map (Packet.bytes base src)) (s.bytes base r)
      = (listenStep cfg prog r src stream s).map fun out =>
          (out.1.bytes base r, out.2.map (Packet.bytes base src)) := by
  have stored : ∀ msgs : List (Rpc n (Message image)),
      prog.bufferSize msgs = (packed base src msgs).length :=
    fun msgs => Image.bufferSize_eq (sizes src) msgs
  have alone : ∀ m : Rpc n (Message image),
      prog.packedSize m.payload = (packed base src [m]).length := by
    intro m
    rw [packed_singleton, sizes src]
  unfold Wire.listenStep listenStep
  cases listener : s.listener with
  | any =>
      simp only [Rank.bytes, listener]
      cases stream with
      | nil => rfl
      | cons packet stream =>
          cases packet with
          | announce size =>
              simp only [List.map_cons, Packet.bytes]
              split <;> rfl
          | buffer msgs | large m =>
              simp only [List.map_cons, Packet.bytes, stored, alone]
              split
              · by_cases own : src = r <;> simp [own]
              · rfl
  | large source size =>
      simp only [Rank.bytes, listener]
      by_cases here : source = src
      · simp only [here, ↓reduceIte, takeLarge_bytes, Option.bind_map, Option.map_bind]
        refine Option.bind_congr fun found _ => ?_
        simp only [Function.comp_apply, alone]
        split
        · simp
        · rfl
      · rw [if_neg here, if_neg here]
        rfl
  | stopped => simp [Rank.bytes, listener]

/-- A main thread sees the same of the system in `comm` and in bytes. -/
theorem Sys.bytes_view (c : Sys n (Message image) σ V C) (flag : Bool) :
    (c.bytes base).view prog r flag = c.view prog r flag := by
  have matched : (fun dest => ((c.bytes base).net r dest).isEmpty)
      = fun dest => (c.net r dest).isEmpty := by
    funext dest
    exact List.isEmpty_map
  show (⟨flag, _, _, _⟩ : View n V) = ⟨flag, _, _, _⟩
  rw [matched]
  rfl

theorem Sys.bytes_rank_update (rank : Fin n → Rank n (Message image) σ V C)
    (t : Rank n (Message image) σ V C) :
    (fun i => (Function.update rank r t i).bytes base i)
      = Function.update (fun i => (rank i).bytes base i) r (t.bytes base r) := by
  funext i
  by_cases hi : i = r
  · subst hi
    simp
  · simp [hi]

theorem Sys.bytes_net_update (net : Fin n → Fin n → List (Packet n (Message image)))
    (src dest : Fin n) (stream : List (Packet n (Message image))) :
    (fun s d => (Function.update net src (Function.update (net src) dest stream) s d).map
        (Packet.bytes base s))
      = Function.update (fun s d => (net s d).map (Packet.bytes base s)) src
        (Function.update (fun d => (net src d).map (Packet.bytes base src)) dest
          (stream.map (Packet.bytes base src))) := by
  funext s d
  by_cases hs : s = src
  · subst hs
    by_cases hd : d = dest
    · subst hd
      simp
    · simp [hd]
  · simp [hs]

/-- **A step of `comm` is the step of `wireComm` on the bytes**, for every label, also where
there is no step. -/
theorem step_bytes (sizes : ∀ r m, prog.packedSize m = (image.packLambda (base r) m).length)
    (c : Sys n (Message image) σ V C) (a : Action n) :
    Wire.Sys.step cfg prog base (c.bytes base) a = (Sys.step cfg prog c a).map (Sys.bytes base) := by
  cases a with
  | main i flag =>
      have moved :
          Wire.mainStep cfg prog base i (c.view prog i flag) ((c.rank i).bytes base i) = _ :=
        mainStep_bytes sizes _ _
      simp only [Wire.Sys.step, Sys.step, Sys.bytes_view]
      rw [show (c.bytes base).rank i = (c.rank i).bytes base i from rfl, moved, Option.map_map,
        Option.map_map]
      refine Option.map_congr fun out _ => ?_
      obtain ⟨t, _ | ⟨dest, packet⟩⟩ := out
      · simp only [Function.comp_apply, Outcome.bytes, Sys.bytes, Sys.send, Wire.Sys.send,
          Option.map_none, Sys.bytes_rank_update]
      · simp only [Function.comp_apply, Outcome.bytes, Sys.bytes, Sys.send, Wire.Sys.send,
          Option.map_some, Sys.bytes_rank_update, Sys.bytes_net_update, List.map_append,
          List.map_cons, List.map_nil]
  | listen i src =>
      have moved :
          Wire.listenStep cfg i src ((c.net src i).map (Packet.bytes base src))
            ((c.rank i).bytes base i) = _ :=
        listenStep_bytes sizes _ _ _
      simp only [Wire.Sys.step, Sys.step]
      rw [show (c.bytes base).rank i = (c.rank i).bytes base i from rfl,
        show (c.bytes base).net src i = (c.net src i).map (Packet.bytes base src) from rfl, moved,
        Option.map_map, Option.map_map]
      refine Option.map_congr fun out _ => ?_
      simp only [Function.comp_apply, Sys.bytes, Sys.bytes_rank_update, Sys.bytes_net_update]

end Steps

/-! ## Every run -/

/-- **The machine in bytes is `comm`**: the two reach the same states, and the parse loop reads
what was packed. -/
structure Wire.Refines (cfg : Config) (prog : Program n (Message image) σ V C)
    (base : Fin n → BitVec 64) (mem : Fin n → σ) (main : Fin n → C) : Prop where
  /-- The machine in bytes reaches the states of `comm`, in bytes, and no others. -/
  states : ∀ b, (Wire.wireComm cfg prog base mem main).Reachable b ↔
    ∃ c, (comm cfg prog mem main).Reachable c ∧ c.bytes base = b
  /-- **The parse loop never goes astray.**  What is left of an archive is nothing, or it begins
  with a call that its source has issued for this rank; then just this call is read, up to its
  last byte. -/
  parses : ∀ b, (Wire.wireComm cfg prog base mem main).Reachable b → ∀ r src unread rest,
    (b.rank r).stack = .parse src unread :: rest → unread ≠ [] →
    ∃ c, (comm cfg prog mem main).Reachable c ∧ c.bytes base = b ∧
      ∃ m ∈ c.issued, m.src = src ∧ m.dest = r ∧
        ∃ parsed ar, image.parseOne (base r) (.ofData unread) = some (parsed, ar) ∧
          parsed.message = m.payload ∧ unread = image.packLambda (base src) m.payload ++ ar.rest

/-- **Bytes and calls**: the machine in bytes is `comm`, wherever the ranks have loaded the
program file. -/
theorem wire_refines {cfg : Config} {prog : Program n (Message image) σ V C}
    {base : Fin n → BitVec 64} {mem : Fin n → σ} {main : Fin n → C}
    (sizes : ∀ r m, prog.packedSize m = (image.packLambda (base r) m).length) :
    Wire.Refines cfg prog base mem main := by
  have start : (comm cfg prog mem main).init.bytes base
      = (Wire.wireComm cfg prog base mem main).init := rfl
  have states : ∀ b, (Wire.wireComm cfg prog base mem main).Reachable b ↔
      ∃ c, (comm cfg prog mem main).Reachable c ∧ c.bytes base = b :=
    fun b => Machine.reachable_iff_of_view start (step_bytes sizes)
  refine ⟨states, ?_⟩
  intro b h r src unread rest stack more
  obtain ⟨c, reached, rfl⟩ := (states b).mp h
  refine ⟨c, reached, rfl, ?_⟩
  change (c.rank r).stack.map (Frame.bytes base r) = _ at stack
  obtain ⟨frame, frames, above, top, -⟩ := List.map_eq_cons_iff.mp stack
  cases frame with
  | parse source tail =>
      cases top
      cases tail with
      | nil => exact absurd rfl more
      | cons m tail =>
          have routed := (Sys.routed_of_reachable reached).rank r |>.stack
          rw [above, List.forall_mem_cons] at routed
          obtain ⟨hsrc, hdest⟩ := routed.1.2 m (by simp)
          have pending : m ∈ c.unparsed := by
            refine Multiset.mem_sum.mpr ⟨r, Finset.mem_univ r, ?_⟩
            simp [Rank.unparsed, above, Frame.unparsed]
          have issued : m ∈ c.issued := by
            rw [Sys.conservation reached]
            simp [Sys.unfinished, pending]
          obtain ⟨parsed, ar, read, message, left⟩ :
              ∃ parsed ar, image.parseOne (base r) (.ofData (packed base src (m :: tail)))
                  = some (parsed, ar) ∧ parsed.message = m.payload ∧
                ar.rest = packed base src tail :=
            parseOne_packed (base r) m tail
          refine ⟨m, issued, hsrc, hdest, parsed, ar, read, message, ?_⟩
          rw [left, packed_cons]
  | _ => cases top

/-! ## A run -/

/-- A program file with one handler, which takes a number of four bytes as its argument. -/
def noteImage : Image Unit where
  args _ := [.arithmetic 4 fun x y => x.ult y]
  offset _ := 0x40
  reference := 0x10
  find offset := if offset = 0x40 then some () else none
  find_offset _ := rfl

/-- Main programs that send a number to rank 1 and enter a barrier; the handler keeps it. -/
def noteProgram : Program 2 (Message noteImage) ℕ Unit (BitVec 32 ⊕ Option (BitVec 32)) where
  next code _ :=
    match code with
    | .inl x => .ret x.toNat
    | .inr (some x) => .async 1 ⟨(), (x, ())⟩ (.inr none)
    | .inr none => .barrier (.inr none)
  handler _ m := .inl m.args.1
  packedSize m := (noteImage.packLambda 0 m).length
  offset_le _ := Image.eight_le_packLambda _
  combine _ := ()

/-- The state of a run in which rank 0 sends 300 to rank 1, which has loaded the program file at
another address. -/
def noted : Wire.Sys 2 ℕ Unit (BitVec 32 ⊕ Option (BitVec 32)) :=
  (Wire.wireComm ⟨64, false⟩ noteProgram ![0x1000, 0x7000] (fun _ => 0)
    ![.inr (some 300), .inr none]).drive (fun _ _ => True)
    (Wire.wireComm ⟨64, false⟩ noteProgram ![0x1000, 0x7000] (fun _ => 0)
      ![.inr (some 300), .inr none]).init
    (mains 0 12 ++ [.listen 1 0] ++ mains 1 6)

theorem wire_refines_noted :
    (noted.rank 1).mem = 300 ∧
      Wire.Refines ⟨64, false⟩ noteProgram ![0x1000, 0x7000] (fun _ => 0)
        ![.inr (some 300), .inr none] :=
  ⟨by decide +kernel, wire_refines fun _ _ => by simp [noteProgram, Image.packLambda]⟩

end YGM
