import YGM.Comm.Model
import YGM.Containers.Local

/-!
# `counting_set`

This file is `include/ygm/container/counting_set.hpp`: a map from keys to counts, with a
cache on each rank in front of it, called by arbitrary user code (`Env.next`).

`async_insert` counts in a slot of the cache.  A slot is flushed by adding its count to
the map with an `async_visit`; that is an `async`, so handlers can run before it returns,
and only then the slot is cleared.  Every query flushes all slots and then enters a
barrier.  So the code points are those between two things other code can see: what reads
and writes the cache, what is called, and what follows.

The model departs from the source in two places.  `map_impl::all_gather` makes the pointer
`preturn` in its first line, before its first barrier, and `Query.answer` makes it in the
first step behind that barrier.  Inside the barrier a rank runs handlers only; no call that
carries the new pointer has been issued by then, and no other code makes a pointer to an
output or reads `sptrs`, so the two steps commute.  Further, the index of a pointer is a
natural number here and a `uint32_t` in `ygm_ptr`: the model covers the runs in which each
rank makes fewer than `2 ^ 32` such pointers.

`Mem.inserted` records the calls of `async_insert` that have returned; nothing reads it.
-/

namespace YGM.Counting

/-- The number of slots of the cache, `count_cache_size`. -/
def countCacheSize : ℕ :=
  1024 * 1024

/-- The largest count a slot can hold, `std::numeric_limits<int32_t>::max()`. -/
def int32Max : ℤ :=
  2 ^ 31 - 1

/-- The value that an `int32_t` has after arithmetic: an increment beyond the maximum wraps
around. -/
def int32 (x : ℤ) : ℤ :=
  Int.bmod x (2 ^ 32)

/-- The value that a `size_t` has after arithmetic, modulo `2 ^ 64`. -/
def sizeT (x : ℤ) : ℕ :=
  (x % 2 ^ 64).toNat

/-! ## The cache -/

/-- **`m_count_cache`**: a key and a count for each slot, `-1` if the slot is free.  The list
`used` holds the slots that were ever written. -/
structure Cache (K : Type) where
  slots : ℕ → K × ℤ
  used : List ℕ
  unused : ∀ slot, slot ∉ used → (slots slot).2 = -1

namespace Cache

variable {K : Type}

/-- The cache after its `resize` in the constructor, with all slots free. -/
def empty [Inhabited K] : Cache K :=
  ⟨fun _ => (default, -1), [], fun _ _ => rfl⟩

/-- The cache after a key and a count have been written to a slot. -/
def put (c : Cache K) (slot : ℕ) (entry : K × ℤ) : Cache K where
  slots := Function.update c.slots slot entry
  used := c.used.insert slot
  unused := fun other new => by
    rw [List.mem_insert_iff, not_or] at new
    rw [Function.update_of_ne new.1]
    exact c.unused other new.2

/-- The first slot from `i` on that `count_cache_flush_all` flushes, if there is one. -/
def next (c : Cache K) (i : ℕ) : Option ℕ :=
  (c.used.filter fun slot => i ≤ slot ∧ 0 < (c.slots slot).2).min?

/-- The count that the slot of a key holds for this key, which is 0 if the slot is free or taken
by another key. -/
def cached [DecidableEq K] (c : Cache K) (slot : ℕ) (key : K) : ℤ :=
  if (c.slots slot).1 = key ∧ (c.slots slot).2 ≠ -1 then (c.slots slot).2 else 0

@[simp] theorem put_slots_self (c : Cache K) (slot : ℕ) (entry : K × ℤ) :
    (c.put slot entry).slots slot = entry := by
  simp [put]

theorem put_slots_of_ne (c : Cache K) {slot other : ℕ} (entry : K × ℤ) (h : other ≠ slot) :
    (c.put slot entry).slots other = c.slots other := by
  simp [put, h]

/-- Before the first slot that it flushes, the loop passes only over slots that hold no count. -/
theorem next_some {c : Cache K} {i slot : ℕ} (h : c.next i = some slot) :
    i ≤ slot ∧ 0 < (c.slots slot).2 ∧ ∀ j, i ≤ j → j < slot → (c.slots j).2 ≤ 0 := by
  obtain ⟨found, first⟩ := List.min?_eq_some_iff.mp h
  simp only [List.mem_filter, decide_eq_true_eq] at found first
  refine ⟨found.2.1, found.2.2, fun j from_ below => ?_⟩
  by_contra full
  by_cases used : j ∈ c.used
  · exact absurd (first j ⟨used, from_, not_le.mp full⟩) (not_le.mpr below)
  · rw [c.unused j used] at full
    simp at full

theorem next_none {c : Cache K} {i : ℕ} (h : c.next i = none) {j : ℕ} (hj : i ≤ j) :
    (c.slots j).2 ≤ 0 := by
  rw [next, List.min?_eq_none_iff, List.filter_eq_nil_iff] at h
  by_contra full
  by_cases used : j ∈ c.used
  · exact h j used (by simpa using ⟨hj, not_le.mp full⟩)
  · rw [c.unused j used] at full
    simp at full

end Cache

/-! ## User code -/

/-- **The queries**, each with the code that gets its result.  The functions of `for_all` make
no calls and leave the counts alone. -/
inductive Query (K τ U : Type)
  | count (key : K) (k : ℕ → U)
  | countAll (k : ℕ → U)
  | size (k : ℕ → U)
  | forAll (fn : K → ℕ → τ → τ) (k : U)
  | allGather (keys : List K) (k : List (K × ℕ) → U)
  | serialize (file : String) (k : U)

/-- **The next action of user code**: return, compute, issue a call, insert a key, or ask a
query. -/
inductive Call (n : ℕ) (K τ U : Type)
  | ret (user : τ)
  | compute (user : τ) (k : U)
  | async (dest : Fin n) (u k : U)
  | asyncFlush (dest : Fin n) (k : U)
  | asyncFlushAll (k : U)
  | barrier (k : U)
  | allReduceSum (value : ℕ) (k : ℕ → U)
  | insert (key : K) (k : U)
  | query (q : Query K τ U)

/-- The content of a call: a flushed count, a request or an answer of `all_gather`, or a
function of the user's. -/
inductive Payload (K U : Type)
  /-- The `async_visit` of a flush, which adds to the count of a key on its owner. -/
  | visit (key : K) (toAdd : ℤ)
  /-- The fetcher of `all_gather`, which asks the owner of a key for its count. -/
  | fetch (key : K) (pcont : ℕ)
  /-- The returner of `all_gather`, which brings the count of a key back. -/
  | returner (key : K) (values : List ℕ) (pcont : ℕ)
  | user (u : U)

/-- The code that follows the flush of a slot. -/
inductive After (K τ U : Type)
  /-- `cache_insert` fills the flushed slot with its own key. -/
  | fill (key : K) (k : U)
  /-- `cache_insert` has flushed the full slot of its key, and is done. -/
  | done (key : K) (k : U)
  /-- The loop of `count_cache_flush_all` goes on at slot `i`. -/
  | loop (i : ℕ) (again : Bool) (q : Query K τ U)

/-- **Code points**: user code, the parts of `cache_insert` and of the flushes, the queries, and
the handlers. -/
inductive Code (n : ℕ) (K τ U : Type)
  | user (u : U)
  /-- `cache_insert` is about to look at the slot of its key. -/
  | insert (key : K) (k : U)
  /-- `cache_insert` is about to fill the slot with its key, after the flush of another key. -/
  | fill (slot : ℕ) (key : K) (k : U)
  /-- `cache_insert` is about to compare the count in the slot with the maximum. -/
  | check (slot : ℕ) (key : K) (k : U)
  /-- `cache_insert` is about to return. -/
  | done (key : K) (k : U)
  /-- `count_cache_flush` is about to issue the call that carries the count of its slot. -/
  | flush (slot : ℕ) (k : After K τ U)
  /-- `count_cache_flush` has issued its call, and is about to clear the slot. -/
  | clear (slot : ℕ) (k : After K τ U)
  /-- The loop of `count_cache_flush_all` is at slot `i`.  `count_all` runs two such loops, the
  second one in its `for_all`. -/
  | flushAll (i : ℕ) (again : Bool) (q : Query K τ U)
  /-- A query is about to enter its barrier. -/
  | enter (q : Query K τ U)
  /-- A query has returned from its barrier. -/
  | read (q : Query K τ U)
  /-- `all_gather` is in its loop over the keys, with these keys left. -/
  | fetching (preturn : ℕ) (keys : List K) (k : List (K × ℕ) → U)
  /-- `all_gather` is back from its second barrier. -/
  | gathered (preturn : ℕ) (k : List (K × ℕ) → U)
  /-- The handler of a flush is about to add the count. -/
  | visit (key : K) (toAdd : ℤ)
  | fetch (src : Fin n) (key : K) (pcont : ℕ)
  /-- The fetcher has issued its answer. -/
  | fetched (src : Fin n) (key : K) (pcont : ℕ)
  | returner (key : K) (values : List ℕ) (pcont : ℕ)

def After.code {n : ℕ} {K τ U : Type} (slot : ℕ) : After K τ U → Code n K τ U
  | .fill key k => .fill slot key k
  | .done key k => .done key k
  | .loop i again q => .flushAll i again q

section

variable {n : ℕ} {K τ U : Type} [LinearOrder K]

/-- **The memory of a rank**: the cache, the map, the outputs of `all_gather`, the files, and
the user's own data. -/
structure Mem (K τ : Type) [LinearOrder K] where
  cache : Cache K
  /-- The part of the distributed map on this rank, `m_map`. -/
  map : MapImpl K ℕ
  /-- The `std::map`s that the calls of `all_gather` return, by the index of their `ygm_ptr`. -/
  output : ℕ → Multimap K ℕ
  /-- The number of these pointers made so far on the rank (length of `sptrs`). -/
  sptrs : ℕ
  /-- The files of this rank, with the map and the communicator's size that
  `map_impl::serialize` writes. -/
  files : String → Option (MapImpl K ℕ × ℕ)
  /-- The rest of the memory that the user's code can reach. -/
  user : τ
  /-- The keys of the calls of `async_insert` that have returned (history). -/
  inserted : List K

/-- **The environment of the set**: the partitioner, the hash function of the cache, and the
user's code. -/
structure Env (n : ℕ) (K τ U : Type) [LinearOrder K] where
  partitioner : Partitioner n K
  /-- `std::hash`, which gives the slot of a key in the cache. -/
  hash : K → UInt64
  next : U → Mem K τ → Call n K τ U
  /-- The code at which a function of the user's starts when it is called with `from`. -/
  start : Fin n → U → U
  packedSize : Payload K U → ℕ
  offset_le : ∀ p, 8 ≤ packedSize p

/-- The memory after a slot of the cache has been written. -/
def Mem.put (mem : Mem K τ) (slot : ℕ) (entry : K × ℤ) : Mem K τ :=
  { mem with cache := mem.cache.put slot entry }

@[simp] theorem Mem.put_cache (mem : Mem K τ) (slot : ℕ) (entry : K × ℤ) :
    (mem.put slot entry).cache = mem.cache.put slot entry :=
  rfl

@[simp] theorem Mem.put_inserted (mem : Mem K τ) (slot : ℕ) (entry : K × ℤ) :
    (mem.put slot entry).inserted = mem.inserted :=
  rfl

/-- `local_for_all` with a function of the user's, which sees every entry in order and changes
the user's data. -/
def localForAll (fn : K → ℕ → τ → τ) (entries : List (K × ℕ)) (user : τ) : τ :=
  entries.foldl (fun user e => fn e.1 e.2 user) user

/-- The memory after making a `ygm_ptr` to an empty `std::map`. -/
def Mem.pointed (mem : Mem K τ) : Mem K τ :=
  { mem with output := Function.update mem.output mem.sptrs .empty, sptrs := mem.sptrs + 1 }

/-- The memory after the visitor of a flush has added its count on the owner of the key. -/
def Mem.visited (mem : Mem K τ) (key : K) (toAdd : ℤ) : Mem K τ :=
  { mem with
    map := (mem.map.ensure key).localVisit key fun value => sizeT ((value : ℤ) + toAdd) }

/-- The command for an action of the user's code. -/
def Call.command (mem : Mem K τ) :
    Call n K τ U → Cmd n (Payload K U) (Mem K τ) ℕ (Code n K τ U)
  | .ret user => .ret { mem with user := user }
  | .compute user k => .update { mem with user := user } (.user k)
  | .async dest u k => .async dest (.user u) (.user k)
  | .asyncFlush dest k => .asyncFlush dest (.user k)
  | .asyncFlushAll k => .asyncFlushAll (.user k)
  | .barrier k => .barrier (.user k)
  | .allReduceSum value k => .allReduce value fun out => .user (k out)
  | .insert key k => .update mem (.insert key k)
  | .query q => .update mem (.flushAll 0 (match q with | .countAll _ => true | _ => false) q)

/-- The command of a query that has returned from its barrier. -/
def Query.answer (mem : Mem K τ) : Query K τ U → Cmd n (Payload K U) (Mem K τ) ℕ (Code n K τ U)
  | .count key k => .allReduce (sizeT (mem.map.localGet key).sum) fun out => .user (k out)
  | .countAll k =>
      .allReduce (sizeT (mem.map.localMap.entries.map Prod.snd).sum) fun out => .user (k out)
  | .size k => .allReduce mem.map.localMap.size fun out => .user (k out)
  | .forAll fn k =>
      .update { mem with user := localForAll fn mem.map.localMap.entries mem.user } (.user k)
  | .allGather keys k => .update mem.pointed (.fetching mem.sptrs keys k)
  | .serialize file k =>
      .update { mem with files := Function.update mem.files file (some (mem.map, n)) } (.user k)

namespace Env

variable (env : Env n K τ U)

/-- The slot of a key in the cache: its hash modulo the number of slots. -/
def slot (key : K) : ℕ :=
  (env.hash key).toNat % countCacheSize

/-- `cache_insert`, up to the flush of its slot or the comparison with the maximum. -/
def cacheInsert (mem : Mem K τ) (key : K) (k : U) :
    Cmd n (Payload K U) (Mem K τ) ℕ (Code n K τ U) :=
  let entry := mem.cache.slots (env.slot key)
  if entry.2 = -1 then
    .update (mem.put (env.slot key) (key, 1)) (.check (env.slot key) key k)
  else if entry.1 = key then
    .update (mem.put (env.slot key) (entry.1, int32 (entry.2 + 1))) (.check (env.slot key) key k)
  else .update mem (.flush (env.slot key) (.fill key k))

/-- **The program of the counting set**: the communicator's program in which user code, the
cache, the queries and the handlers run. -/
def program [Inhabited K] : Program n (Payload K U) (Mem K τ) ℕ (Code n K τ U) where
  next code mem :=
    match code with
    | .user u => (env.next u mem).command mem
    | .insert key k => env.cacheInsert mem key k
    | .fill slot key k => .update (mem.put slot (key, 1)) (.check slot key k)
    | .check slot key k =>
        if (mem.cache.slots slot).2 = int32Max then .update mem (.flush slot (.done key k))
        else .update mem (.done key k)
    | .done key k => .update { mem with inserted := mem.inserted ++ [key] } (.user k)
    | .flush slot k =>
        let entry := mem.cache.slots slot
        .async (env.partitioner.owner entry.1) (.visit entry.1 entry.2) (.clear slot k)
    | .clear slot k => .update (mem.put slot (default, -1)) (k.code slot)
    | .flushAll i again q =>
        match mem.cache.next i with
        | some slot => .update mem (.flush slot (.loop (slot + 1) again q))
        | none => .update mem (if again then .flushAll 0 false q else .enter q)
    | .enter q => .barrier (.read q)
    | .read q => q.answer mem
    | .fetching preturn [] k => .barrier (.gathered preturn k)
    | .fetching preturn (key :: rest) k =>
        .async (env.partitioner.owner key) (.fetch key preturn) (.fetching preturn rest k)
    | .gathered preturn k => .update mem (.user (k (mem.output preturn).entries))
    | .visit key toAdd => .ret (mem.visited key toAdd)
    | .fetch src key pcont =>
        .async src (.returner key (mem.map.localGet key) pcont) (.fetched src key pcont)
    | .fetched _ _ _ => .ret mem
    | .returner key values pcont =>
        .ret { mem with output :=
          Function.update mem.output pcont ((mem.output pcont).insertValues false key values) }
  handler src payload :=
    match payload with
    | .visit key toAdd => .visit key toAdd
    | .fetch key pcont => .fetch src key pcont
    | .returner key values pcont => .returner key values pcont
    | .user u => .user (env.start src u)
  packedSize := env.packedSize
  offset_le := env.offset_le
  combine values := sizeT ((List.finRange n).map values).sum

end Env

end

end YGM.Counting
