import YGM.Comm.Model
import YGM.Containers.Local
import YGM.Library.Tree
import YGM.Library.Sequential

/-!
# Programs that use containers

The containers as an instance of the communicator's user code: `map_impl.hpp`,
`set_impl.hpp` and `bag_impl.hpp`, called by arbitrary user code (`Env.next`).

An asynchronous operation is a call to the owner of its key, whose handler changes the
local part of the container there (`Op`).  A collective one is a barrier followed by a
local step (`LocalStep`), for `size` and `count` also by a reduction; `topk` is a
reduction without a barrier.

The handler of an operation is one step, as nothing else of the main thread can come
in between; the exception is a visit whose visitor makes calls of its own, which is one
step for each entry and goes on with the code of the visitor in between.

`Mem.history` records what has been done to the containers on a rank; nothing reads it.
-/

namespace YGM

/-- The name of a container, together with whether it is a multimap or a multiset (`multi`) or a
map or a set. -/
structure Id (ι : Type) where
  multi : Bool
  name : ι
deriving DecidableEq

inductive Container (ι : Type)
  | map (id : Id ι)
  | set (id : Id ι)
  | bag (name : ι)
deriving DecidableEq

/-- **The remote operations** on containers, one for each handler that a container packs into
its calls. -/
inductive Op (ι K V A : Type)
  | mapInsertUnique (id : Id ι) (key : K) (value : V)
  | mapInsertMulti (id : Id ι) (key : K) (value : V)
  | mapVisit (id : Id ι) (key : K) (visitor : A)
  | mapVisitIfExists (id : Id ι) (key : K) (visitor : A)
  | mapErase (id : Id ι) (key : K)
  | setInsertUnique (id : Id ι) (key : K)
  | setInsertMulti (id : Id ι) (key : K)
  | setErase (id : Id ι) (key : K)
  | bagInsert (name : ι) (item : V)

/-- The content of a call: the handler of an operation on a container with its arguments, or a
function of the user's. -/
inductive Payload (ι K V A U : Type)
  | op (o : Op ι K V A)
  | user (u : U)

/-- **The work of a collective operation between its barrier and its end.** The functions of
`for_all` make no calls; they may change the values they get by reference. -/
inductive LocalStep (ι K V τ : Type)
  | clear (c : Container ι)
  | swapMap (multi : Bool) (i j : ι)
  | swapSet (multi : Bool) (i j : ι)
  | swapBag (i j : ι)
  | size (c : Container ι)
  | countMap (id : Id ι) (key : K)
  | countSet (id : Id ι) (key : K)
  | forAllMap (id : Id ι) (fn : K → V → τ → V × τ)
  | forAllSet (id : Id ι) (fn : K → τ → τ)
  | forAllBag (name : ι) (fn : V → τ → V × τ)
  | serialize (c : Container ι) (file : String)
  | deserialize (c : Container ι) (file : String)

/-- **The next action of user code**: return, compute, issue a call, or take part in a
collective operation. -/
inductive Call (n : ℕ) (ι K V A τ U : Type)
  | ret (user : τ)
  | compute (user : τ) (k : U)
  | async (dest : Fin n) (u k : U)
  | asyncFlush (dest : Fin n) (k : U)
  | asyncFlushAll (k : U)
  | barrier (k : U)
  | allReduceSum (value : ℕ) (k : ℕ → U)
  | mapInsert (id : Id ι) (key : K) (value : V) (k : U)
  | mapVisit (id : Id ι) (key : K) (visitor : A) (k : U)
  | mapVisitIfExists (id : Id ι) (key : K) (visitor : A) (k : U)
  | mapErase (id : Id ι) (key : K) (k : U)
  | setInsert (id : Id ι) (key : K) (k : U)
  | setErase (id : Id ι) (key : K) (k : U)
  | bagInsert (name : ι) (item : V) (k : U)
  /-- A collective operation; its continuation `k` gets the number that `size` and `count`
  return. -/
  | collective (step : LocalStep ι K V τ) (k : ℕ → U)
  | topk (id : Id ι) (k : ℕ) (cfn : K × V → K × V → Bool) (next : List (K × V) → U)

/-- **A visitor** with its arguments.  Its `apply` is given the issuing rank, the key and the
value; if it makes calls, `calls` is the code that runs after `apply` for the same entry. -/
structure Visitor (n : ℕ) (K V U : Type) where
  apply : Fin n → K → V → V
  calls : Option (Fin n → K → U)

/-- **Code points** of a container program: a place in the user's code, in a handler, in a visit
or in a collective operation. -/
inductive Code (n : ℕ) (ι K V A τ U : Type)
  | user (u : U)
  /-- The handler of an operation is about to run. -/
  | serve (src : Fin n) (o : Op ι K V A)
  /-- A visit is about to come to the entry at position `pos` of the key. -/
  | entry (src : Fin n) (id : Id ι) (key : K) (visitor : A) (pos : ℕ)
  /-- A visit runs the calling code of its visitor for the entry at position `pos`. -/
  | visiting (u : U) (src : Fin n) (id : Id ι) (key : K) (visitor : A) (pos : ℕ)
  /-- The user's code is about to issue an operation, and goes on at `k`. -/
  | issue (dest : Fin n) (o : Op ι K V A) (k : Code n ι K V A τ U)
  /-- A collective operation has left its barrier, and is about to do its local step. -/
  | step (step : LocalStep ι K V τ) (k : ℕ → U)

/-- A value that is reduced on `m_comm_other`: a number, or for `topk` the entries found in a
map, with the number and the order that the merge needs. -/
inductive Value (ι K V : Type)
  | count (value : ℕ)
  | topk (id : Id ι) (k : ℕ) (cfn : K × V → K × V → Bool) (entries : List (K × V))

def Value.num {ι K V : Type} : Value ι K V → ℕ
  | .count value => value
  | .topk _ _ _ _ => 0

def Value.entries {ι K V : Type} : Value ι K V → List (K × V)
  | .count _ => []
  | .topk _ _ _ entries => entries

/-- An entry of the history of a rank: an executed operation with its origin, or a local step. -/
inductive Event (n : ℕ) (ι K V A τ : Type)
  | op (src : Fin n) (o : Op ι K V A)
  | step (step : LocalStep ι K V τ)

section

variable {n : ℕ} {ι K V A τ U : Type} [DecidableEq ι] [LinearOrder K]

/-- The content of a file that `serialize` writes: the container on one rank, and the size of
the communicator. -/
inductive Saved (K V : Type) [LinearOrder K]
  | map (m : MapImpl K V) (commSize : ℕ)
  | set (s : SetImpl K) (commSize : ℕ)
  | bag (b : BagImpl V) (commSize : ℕ)

/-- **The memory of a rank**: its containers, its files, the user's own data, and the history of
what was done to the containers. -/
structure Mem (n : ℕ) (ι K V A τ : Type) [LinearOrder K] where
  /-- The rank itself, as `m_comm.rank()` returns it. -/
  self : Fin n
  maps : Id ι → MapImpl K V
  sets : Id ι → SetImpl K
  bags : ι → BagImpl V
  /-- The files of this rank, by the file name that was passed to `serialize`, to which the
  source appends the rank. -/
  files : String → Option (Saved K V)
  /-- The rest of the memory that the user's code can reach. -/
  user : τ
  /-- The operations and local steps that have been applied to the containers, in their order
  (history). -/
  history : List (Event n ι K V A τ)

/-- **The environment of the containers**: the partitioner, the visitors, the sorting function
and the user's code. -/
structure Env (n : ℕ) (ι K V A τ U : Type) [LinearOrder K] where
  partitioner : Partitioner n K
  visitor : A → Visitor n K V U
  /-- `std::sort`, which sorts a list of entries by a comparison function. -/
  sort : (K × V → K × V → Bool) → List (K × V) → List (K × V)
  next : U → Mem n ι K V A τ → Call n ι K V A τ U
  /-- The code point at which a function of the user's starts when it is called with `from`. -/
  start : Fin n → U → U
  packedSize : Payload ι K V A U → ℕ
  offset_le : ∀ p, 8 ≤ packedSize p

namespace Mem

variable (mem : Mem n ι K V A τ)

def setMap (id : Id ι) (m : MapImpl K V) : Mem n ι K V A τ :=
  { mem with maps := Function.update mem.maps id m }

def setSet (id : Id ι) (s : SetImpl K) : Mem n ι K V A τ :=
  { mem with sets := Function.update mem.sets id s }

def setBag (name : ι) (b : BagImpl V) : Mem n ι K V A τ :=
  { mem with bags := Function.update mem.bags name b }

def log (event : Event n ι K V A τ) : Mem n ι K V A τ :=
  { mem with history := mem.history ++ [event] }

/-- The local size of a container: `m_local_map.size()`, `m_local_set.size()` or
`m_local_bag.size()`. -/
def size : Container ι → ℕ
  | .map id => (mem.maps id).localMap.size
  | .set id => (mem.sets id).localSet.size
  | .bag name => (mem.bags name).localBag.length

def clear : Container ι → Mem n ι K V A τ
  | .map id => mem.setMap id (mem.maps id).localClear
  | .set id => mem.setSet id ⟨.empty⟩
  | .bag name => mem.setBag name { mem.bags name with localBag := [] }

def save : Container ι → Saved K V
  | .map id => .map (mem.maps id) n
  | .set id => .set (mem.sets id) n
  | .bag name => .bag (mem.bags name) n

/-- Read a file back into a container, if the file was written for a container of this kind. -/
def load : Container ι → Saved K V → Option (Mem n ι K V A τ)
  | .map id, .map m _ => some (mem.setMap id m)
  | .set id, .set s _ => some (mem.setSet id s)
  | .bag name, .bag b _ => some (mem.setBag name b)
  | _, _ => none

/-- **The local step of a collective operation**: it changes the memory, or gives the number
with which the rank takes part in a reduction.  A file that is missing or of another kind of
container ends the program. -/
def localStep : LocalStep ι K V τ → Option (Mem n ι K V A τ ⊕ ℕ)
  | .clear c => some (.inl (mem.clear c))
  | .swapMap multi i j =>
      some (.inl { mem with maps := swapped mem.maps ⟨multi, i⟩ ⟨multi, j⟩ })
  | .swapSet multi i j =>
      some (.inl { mem with sets := swapped mem.sets ⟨multi, i⟩ ⟨multi, j⟩ })
  | .swapBag i j =>
      -- only the items: the round robin stays with its bag
      some (.inl ((mem.setBag i { mem.bags i with localBag := (mem.bags j).localBag }).setBag j
        { mem.bags j with localBag := (mem.bags i).localBag }))
  | .size c => some (.inr (mem.size c))
  | .countMap id key => some (.inr ((mem.maps id).localMap.count key))
  | .countSet id key => some (.inr ((mem.sets id).localSet.count key))
  | .forAllMap id fn =>
      let out := (mem.maps id).localMap.forEach fn mem.user
      some (.inl { mem.setMap id { mem.maps id with localMap := out.1 } with user := out.2 })
  | .forAllSet id fn =>
      let out := (mem.sets id).localSet.forEach (fun key _ t => ((), fn key t)) mem.user
      some (.inl { mem with user := out.2 })
  | .forAllBag name fn =>
      let out := forEach fn (mem.bags name).localBag mem.user
      some (.inl { mem.setBag name { mem.bags name with localBag := out.1 } with user := out.2 })
  | .serialize c file =>
      some (.inl { mem with files := Function.update mem.files file (some (mem.save c)) })
  | .deserialize c file => ((mem.files file).bind (mem.load c)).map .inl

end Mem

namespace Env

variable (env : Env n ι K V A τ U)

/-- The handler of an operation, for visitors that make no calls, as one change of the memory. -/
def perform (src : Fin n) (mem : Mem n ι K V A τ) : Op ι K V A → Mem n ι K V A τ
  | .mapInsertUnique id key value => mem.setMap id ((mem.maps id).insertUnique key value)
  | .mapInsertMulti id key value => mem.setMap id ((mem.maps id).insertMulti key value)
  | .mapVisit id key a => mem.setMap id
      (((mem.maps id).ensure key).localVisit key ((env.visitor a).apply src key))
  | .mapVisitIfExists id key a =>
      mem.setMap id ((mem.maps id).localVisit key ((env.visitor a).apply src key))
  | .mapErase id key => mem.setMap id ((mem.maps id).localErase key)
  | .setInsertUnique id key => mem.setSet id ((mem.sets id).insertUnique key)
  | .setInsertMulti id key => mem.setSet id ((mem.sets id).insertMulti key)
  | .setErase id key => mem.setSet id ((mem.sets id).erase key)
  | .bagInsert name item => mem.setBag name ((mem.bags name).insert item)

/-- **The handler of an operation.** A visit whose visitor makes calls goes through the entries
of the key one by one; every other operation is done at once. -/
def serve (src : Fin n) (o : Op ι K V A) (mem : Mem n ι K V A τ) :
    Cmd n (Payload ι K V A U) (Mem n ι K V A τ) (Value ι K V) (Code n ι K V A τ U) :=
  let logged := mem.log (.op src o)
  match o with
  | .mapVisit id key a =>
      match (env.visitor a).calls with
      | none => .ret (env.perform src logged o)
      | some _ =>
          .update (logged.setMap id ((mem.maps id).ensure key)) (.entry src id key a 0)
  | .mapVisitIfExists id key a =>
      match (env.visitor a).calls with
      | none => .ret (env.perform src logged o)
      | some _ => .update logged (.entry src id key a 0)
  | o => .ret (env.perform src logged o)

/-- The visit of the entry at position `pos` by a visitor that makes calls, or the end of the
visit if the key has no such entry. -/
def visitEntry (src : Fin n) (id : Id ι) (key : K) (a : A) (pos : ℕ)
    (mem : Mem n ι K V A τ) :
    Cmd n (Payload ι K V A U) (Mem n ι K V A τ) (Value ι K V) (Code n ι K V A τ U) :=
  match (env.visitor a).calls with
  | none => .ret mem
  | some calls =>
      if pos < ((mem.maps id).localGet key).length then
        .update
          (mem.setMap id { mem.maps id with
            localMap := (mem.maps id).localMap.modifyAt key pos
              ((env.visitor a).apply src key) })
          (.visiting (calls src key) src id key a pos)
      else .ret mem

/-- The local top `k`: the entries are added one by one, and the last one is dropped whenever
there are more than `k`. -/
def localTopk (k : ℕ) (cfn : K × V → K × V → Bool) (entries : List (K × V)) :
    List (K × V) :=
  entries.foldl (fun top kv =>
    let sorted := env.sort cfn (top ++ [kv])
    if k < sorted.length then sorted.dropLast else sorted) []

/-- The merge of `topk`: sort the entries of both sides together and keep the first `k`. -/
def mergeTopk (k : ℕ) (cfn : K × V → K × V → Bool) (va vb : List (K × V)) :
    List (K × V) :=
  (env.sort cfn (va ++ vb)).take k

/-- A reduction on `m_comm_other`: the sum of the numbers, or the tree reduction of the lists of
`topk`. -/
def combine (values : Fin n → Value ι K V) : Value ι K V :=
  if h : 0 < n then
    match values ⟨0, h⟩ with
    | .count _ => .count ((List.finRange n).map fun r => (values r).num).sum
    | .topk id k cfn _ =>
        .topk id k cfn (merged (env.mergeTopk k cfn) n
          (fun i => if hi : i < n then (values ⟨i, hi⟩).entries else []) 0)
  else .count 0

/-- The command for an action of the user's code, which goes on at `wrap k` and returns with
`ret`. -/
def command (mem : Mem n ι K V A τ) (wrap : U → Code n ι K V A τ U)
    (ret : Mem n ι K V A τ → Cmd n (Payload ι K V A U) (Mem n ι K V A τ) (Value ι K V)
      (Code n ι K V A τ U)) :
    Call n ι K V A τ U →
      Cmd n (Payload ι K V A U) (Mem n ι K V A τ) (Value ι K V) (Code n ι K V A τ U)
  | .ret user => ret { mem with user := user }
  | .compute user k => .update { mem with user := user } (wrap k)
  | .async dest u k => .async dest (.user u) (wrap k)
  | .asyncFlush dest k => .asyncFlush dest (wrap k)
  | .asyncFlushAll k => .asyncFlushAll (wrap k)
  | .barrier k => .barrier (wrap k)
  | .allReduceSum value k => .allReduce (.count value) fun out => wrap (k out.num)
  | .mapInsert id key value k =>
      .async (env.partitioner.owner key)
        (.op (if id.multi then .mapInsertMulti id key value else .mapInsertUnique id key value))
        (wrap k)
  | .mapVisit id key a k =>
      .async (env.partitioner.owner key) (.op (.mapVisit id key a)) (wrap k)
  | .mapVisitIfExists id key a k =>
      .async (env.partitioner.owner key) (.op (.mapVisitIfExists id key a)) (wrap k)
  | .mapErase id key k => .async (env.partitioner.owner key) (.op (.mapErase id key)) (wrap k)
  | .setInsert id key k =>
      .async (env.partitioner.owner key)
        (.op (if id.multi then .setInsertMulti id key else .setInsertUnique id key)) (wrap k)
  | .setErase id key k => .async (env.partitioner.owner key) (.op (.setErase id key)) (wrap k)
  | .bagInsert name item k =>
      let b := mem.bags name
      .update (mem.setBag name { b with roundRobin := b.roundRobin + 1 })
        (.issue (b.dest mem.self) (.bagInsert name item) (wrap k))
  | .collective step k => .barrier (.step step k)
  | .topk id k cfn next =>
      .allReduce (.topk id k cfn (env.localTopk k cfn (mem.maps id).localMap.entries)) fun out =>
        wrap (next out.entries)

/-- **The container program**: the communicator's program in which the user's code, the handlers
of the containers and their collective operations run. -/
def program :
    Program n (Payload ι K V A U) (Mem n ι K V A τ) (Value ι K V) (Code n ι K V A τ U) where
  next code mem :=
    match code with
    | .user u => env.command mem .user .ret (env.next u mem)
    | .serve src o => env.serve src o mem
    | .entry src id key a pos => env.visitEntry src id key a pos mem
    | .visiting u src id key a pos =>
        env.command mem (fun k => .visiting k src id key a pos)
          (fun mem => .update mem (.entry src id key a (pos + 1))) (env.next u mem)
    | .issue dest o k => .async dest (.op o) k
    | .step step k =>
        match mem.localStep step with
        | none => .ret mem
        | some (.inl after) => .update (after.log (.step step)) (.user (k 0))
        | some (.inr value) => .allReduce (.count value) fun out => .user (k out.num)
  handler src payload :=
    match payload with
    | .op o => .serve src o
    | .user u => .user (env.start src u)
  packedSize := env.packedSize
  offset_le := env.offset_le
  combine := env.combine

end Env

end

end YGM
