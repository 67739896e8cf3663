import YGM.Library.Machine
import YGM.Library.Tree

/-!
# The tree reduction: `comm::impl::all_reduce`

This file is `all_reduce` of `include/ygm/detail/comm_impl.hpp` with the `mpi_send`,
`mpi_recv` and `mpi_bcast` it is made of, run by all ranks on `m_comm_other`.

Every rank makes the same list of calls, one after the other (`Call`); the calls may
differ in type, merge function and inputs.  Values travel packed, each as two messages:
the size of the archive, then its bytes.  All calls use tag 0, so a receive takes
whatever its source has sent next, and a message of the wrong sort or length is an MPI
error (`Stage.broken`).  A packed value of a gibibyte or more is refused by the
assertions (`Stage.thrown`).

## MPI

`System.net s d` is the stream from `s` to `d`, reliable and in order.  A blocking send
completes at once or, if `synchronous`, when its message has been received.  Broadcasts
match in the order in which they are called: the `k`-th broadcast of a rank delivers
the `k`-th one of the root.
-/

namespace YGM.Reduce

/-- **One `all_reduce`**, as all ranks call it.  `α` is the union of all types that are
reduced, and `Is` says which of its values have the type of this call. -/
structure Call (n : ℕ) (α : Type) where
  Is : α → Prop
  input : Fin n → α
  merge : α → α → α
  /-- The bytes that the output archive makes of a value. -/
  pack : α → List UInt8
  /-- The value that the input archive reads from packed bytes. -/
  unpack : List UInt8 → α
  input_is : ∀ r, Is (input r)
  merge_is : ∀ x y, Is x → Is y → Is (merge x y)
  /-- Values of the type survive an archive round trip. -/
  unpack_pack : ∀ x, Is x → unpack (pack x) = x

/-- A message on `m_comm_other`: `packed_size`, or the packed bytes that follow it. -/
inductive Packet
  | size (packedSize : ℕ)
  | bytes (packed : List UInt8)

/-- The two children that a rank receives from, in the order of the receives. -/
inductive Child
  | first
  | second
deriving DecidableEq

/-- The ranks of the children: `first_child` and `second_child` of a rank. -/
def Child.rank : Child → ℕ → ℕ
  | .first => firstChild
  | .second => secondChild

/-- The place of a rank in `all_reduce`, by the MPI call or the assertion it is at. -/
inductive Stage
  /-- At the test for a child, or in the first receive of `mpi_recv`. -/
  | recvSize (child : Child)
  /-- The rank is in the second receive of `mpi_recv`, for the packed value. -/
  | recvBytes (child : Child) (packedSize : ℕ)
  /-- At the test for the root, or in the first send of `mpi_send`. -/
  | sendSize
  /-- `mpi_send` has posted its first send, of the size. -/
  | sentSize
  /-- The rank is in the second send of `mpi_send`, of the packed value. -/
  | sendBytes
  /-- `mpi_send` has posted its second send, of the packed value. -/
  | sentBytes
  /-- The rank is in the first broadcast of `mpi_bcast`, of the size. -/
  | bcastSize
  /-- The rank is in the second broadcast of `mpi_bcast`, of the packed value. -/
  | bcastBytes (packedSize : ℕ)
  /-- An `ASSERT_RELEASE` has thrown, and the rank makes no further step. -/
  | thrown
  /-- A message did not fit the receive that took it. -/
  | broken

/-- **One rank**: its place in the current call, the value `tmp`, and what it has sent, received
and returned so far. -/
structure Node (α : Type) where
  /-- The number of calls that have returned on the rank. -/
  calls : ℕ
  stage : Stage
  tmp : α
  /-- The number of broadcasts in which the rank has taken part. -/
  seen : ℕ
  /-- The values that the calls have returned, oldest first. -/
  returned : List α
  /-- The parent and the value of every `mpi_send` of the rank (history). -/
  sent : List (ℕ × α)
  /-- The source and the value of every `mpi_recv` of the rank (history). -/
  received : List (ℕ × α)

/-- **The system**: the ranks, the streams between them, and the broadcasts of the root. -/
structure System (n : ℕ) (α : Type) where
  node : Fin n → Node α
  net : Fin n → Fin n → List Packet
  /-- The broadcasts that the root has made, oldest first. -/
  bcasts : List Packet

variable {n : ℕ} {α : Type}

/-- The limit of the assertions `packed_size < 1024 * 1024 * 1024`. -/
def gibibyte : ℕ :=
  1024 * 1024 * 1024

/-- The stage that comes after the receive from a child. -/
def Child.next : Child → Stage
  | .first => .recvSize .second
  | .second => .sendSize

/-- A buffer of `packed_size` bytes after a message has been received into it. -/
def resized (packedSize : ℕ) (packed : List UInt8) : List UInt8 :=
  packed ++ List.replicate (packedSize - packed.length) 0

section Step

variable (synchronous : Bool) (calls : List (Call n α)) (r : Fin n)

/-- A rank begins its next call with its own input in `tmp`, if there is a next call. -/
def Node.begin (s : Node α) : Node α :=
  { s with
    stage := .recvSize .first
    tmp := (calls[s.calls]?.map fun call => call.input r).getD s.tmp }

/-- A step of `mpi_recv` from `child` of rank `r`, or of the test that finds no such child. -/
def recvStep (call : Call n α) (child : Child) (c : System n α) (s : Node α) :
    Option (Node α × (Fin n → Fin n → List Packet)) :=
  if h : child.rank r < n then
    let source : Fin n := ⟨child.rank r, h⟩
    match c.net source r with
    | [] => none
    | packet :: stream =>
        let net := Function.update c.net source (Function.update (c.net source) r stream)
        match s.stage, packet with
        | .recvSize _, .size packedSize =>
            some ({ s with stage := .recvBytes child packedSize }, net)
        | .recvBytes _ packedSize, .bytes packed =>
            if packed.length ≤ packedSize then
              let value := call.unpack (resized packedSize packed)
              some ({ s with
                stage := child.next
                tmp := call.merge s.tmp value
                received := s.received ++ [(source.val, value)] }, net)
            else some ({ s with stage := .broken }, net)
        | _, _ => some ({ s with stage := .broken }, net)
  else some ({ s with stage := child.next }, c.net)

/-- The network after a packet for rank `dest` has been handed to MPI by rank `r`. -/
def push (net : Fin n → Fin n → List Packet) (dest : ℕ) (packet : Packet) :
    Fin n → Fin n → List Packet :=
  if h : dest < n then
    Function.update net r (Function.update (net r) ⟨dest, h⟩ (net r ⟨dest, h⟩ ++ [packet]))
  else net

/-- All messages sent to rank `dest` by rank `r` have been received. -/
def matched (net : Fin n → Fin n → List Packet) (dest : ℕ) : Bool :=
  if h : dest < n then (net r ⟨dest, h⟩).isEmpty else true

/-- The current call of a rank returns `value`, and the rank begins its next call. -/
def Node.return (value : α) (s : Node α) : Node α :=
  Node.begin calls r
    { s with calls := s.calls + 1, seen := s.seen + 1, returned := s.returned ++ [value] }

/-- **One step of rank `r`**: the MPI call or the assertion that its current call is at. -/
def step (c : System n α) : Option (System n α) :=
  let s := c.node r
  let set (s : Node α) (net : Fin n → Fin n → List Packet) : System n α :=
    { c with node := Function.update c.node r s, net := net }
  match calls[s.calls]? with
  | none => none
  | some call =>
      match s.stage with
      | .recvSize child | .recvBytes child _ =>
          (recvStep r call child c s).map fun out => set out.1 out.2
      | .sendSize =>
          if r.val ≠ 0 then
            if (call.pack s.tmp).length < gibibyte then
              some (set { s with stage := .sentSize }
                (push r c.net (parent r) (.size (call.pack s.tmp).length)))
            else some (set { s with stage := .thrown } c.net)
          else some (set { s with stage := .bcastSize } c.net)
      | .sentSize =>
          if synchronous = false ∨ matched r c.net (parent r) = true then
            some (set { s with stage := .sendBytes } c.net)
          else none
      | .sendBytes =>
          some (set { s with
              stage := .sentBytes
              sent := s.sent ++ [(parent r, s.tmp)] }
            (push r c.net (parent r) (.bytes (call.pack s.tmp))))
      | .sentBytes =>
          if synchronous = false ∨ matched r c.net (parent r) = true then
            some (set { s with stage := .bcastSize } c.net)
          else none
      | .bcastSize =>
          if r.val = 0 then
            if (call.pack s.tmp).length < gibibyte then
              some { set { s with
                    stage := .bcastBytes (call.pack s.tmp).length
                    seen := s.seen + 1 } c.net with
                bcasts := c.bcasts ++ [.size (call.pack s.tmp).length] }
            else some (set { s with stage := .thrown } c.net)
          else
            match c.bcasts[s.seen]? with
            | none => none
            | some (.size packedSize) =>
                some (set { s with stage := .bcastBytes packedSize, seen := s.seen + 1 }
                  c.net)
            | some (.bytes _) => some (set { s with stage := .broken } c.net)
      | .bcastBytes packedSize =>
          if r.val = 0 then
            some { set (s.return calls r (call.unpack (call.pack s.tmp))) c.net with
              bcasts := c.bcasts ++ [.bytes (call.pack s.tmp)] }
          else
            match c.bcasts[s.seen]? with
            | none => none
            | some (.bytes packed) =>
                if packed.length = packedSize then
                  some (set (s.return calls r (call.unpack packed)) c.net)
                else some (set { s with stage := .broken } c.net)
            | some (.size _) => some (set { s with stage := .broken } c.net)
      | .thrown | .broken => none

end Step

/-- The state of a rank before its first call. -/
def Node.init [Inhabited α] : Node α where
  calls := 0
  stage := .recvSize .first
  tmp := default
  seen := 0
  returned := []
  sent := []
  received := []

/-- **The machine in which all ranks make the same calls**, with buffered or blocking sends. -/
def reduction [Inhabited α] (synchronous : Bool) (calls : List (Call n α)) :
    Machine (System n α) (Fin n) where
  init :=
    { node := fun r => Node.init.begin calls r
      net := fun _ _ => []
      bcasts := [] }
  step := fun c r => step synchronous calls r c

end YGM.Reduce
