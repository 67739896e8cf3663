import Mathlib.Algebra.GroupWithZero.Nat
import YGM.Library.Machine
import YGM.Library.Multimap

/-!
# The local parts of the containers

What one rank stores of a container and what is done to it there: `map_impl.hpp`,
`set_impl.hpp` and `bag_impl.hpp` of `include/ygm/container/detail`, without the
communication.  `map` and `multimap` share `map_impl`, `set` and `multiset` share
`set_impl`; in each pair the first one inserts with `async_insert_unique`, the second
one with `async_insert_multi`.

`hash_partitioner` says where an entry is stored.
-/

namespace YGM

/-! ## Partitioners -/

/-- **A partitioner**: a function that assigns to each key a rank, which exists, and a bank. -/
structure Partitioner (n : ℕ) (K : Type) where
  /-- The call operator of the partitioner, on a key, `nranks` and `nbanks`. -/
  part : K → ℕ → ℕ → ℕ × ℕ
  /-- The rank of every key is smaller than the number of ranks. -/
  part_lt : ∀ key nbanks, (part key n nbanks).1 < n

/-- `owner`: the rank that the partitioner assigns to a key, with the 1024 banks of the source. -/
def Partitioner.owner {n : ℕ} {K : Type} (partitioner : Partitioner n K) (key : K) : Fin n :=
  ⟨(partitioner.part key n 1024).1, partitioner.part_lt key 1024⟩

/-- `hash_partitioner`: the rank of a key is its hash modulo the number of ranks, and the bank
is taken from the quotient. -/
def hashPartitioner {K : Type} (n : ℕ) [NeZero n] (hash : K → UInt64) : Partitioner n K where
  part := fun key nranks nbanks =>
    ((hash key).toNat % nranks, (hash key).toNat / nranks % nbanks)
  part_lt := fun _ _ => Nat.mod_lt _ (Nat.pos_of_neZero n)

variable {K V : Type} [LinearOrder K]

/-! ## `map_impl` -/

/-- **`map_impl`** on one rank: the default value and the local table, which has one entry for
each key of a map and any number for a key of a multimap. -/
structure MapImpl (K V : Type) [LinearOrder K] where
  defaultValue : V
  localMap : Multimap K V

namespace MapImpl

variable (m : MapImpl K V) (key : K) (value : V)

/-- The inserter of `async_insert_unique`, which inserts a new key and overwrites the first
value of a key already there. -/
def insertUnique : MapImpl K V :=
  match m.localMap.get key with
  | [] => { m with localMap := m.localMap.insert key value }
  | _ :: _ => { m with localMap := m.localMap.set key value }

/-- The inserter of `async_insert_multi`, which adds an entry for the key. -/
def insertMulti : MapImpl K V :=
  { m with localMap := m.localMap.insert key value }

/-- The first part of the visit of `async_visit`: a key that is not stored is inserted with the
default value. -/
def ensure : MapImpl K V :=
  match m.localMap.get key with
  | [] => { m with localMap := m.localMap.insert key m.defaultValue }
  | _ :: _ => m

/-- `local_visit`: apply a visitor that makes no calls to all values of the key. -/
def localVisit (f : V → V) : MapImpl K V :=
  { m with localMap := m.localMap.modify key f }

/-- `local_erase`: remove all entries of the key from the local table. -/
def localErase : MapImpl K V :=
  { m with localMap := m.localMap.erase key }

/-- `local_clear`: empty the local table. -/
def localClear : MapImpl K V :=
  { m with localMap := .empty }

/-- `local_get`: the values that the local table holds for the key. -/
def localGet : List V :=
  m.localMap.get key

end MapImpl

/-- Apply a function with a state of its own to the values of a list in order, replacing each
value by the one the function leaves. -/
def forEach {α τ : Type} (fn : α → τ → α × τ) : List α → τ → List α × τ
  | [], t => ([], t)
  | x :: rest, t =>
      let (x', t) := fn x t
      let (rest', t) := forEach fn rest t
      (x' :: rest', t)

/-- `forEach` on the values of a table, where the function sees the key of each value but cannot
change it. -/
def Multimap.forEach {τ : Type} (fn : K → V → τ → V × τ) (m : Multimap K V) (t : τ) :
    Multimap K V × τ :=
  let out := YGM.forEach
    (fun e t => ((e.1, (fn e.1 e.2 t).1), (fn e.1 e.2 t).2)) m.entries t
  (⟨out.1, by
    have keys : ∀ (entries : List (K × V)) (t : τ), (YGM.forEach
        (fun e t => ((e.1, (fn e.1 e.2 t).1), (fn e.1 e.2 t).2)) entries t).1.map Prod.fst
          = entries.map Prod.fst := by
      intro entries
      induction entries with
      | nil => exact fun _ => rfl
      | cons e rest ih => exact fun t => congrArg (e.1 :: ·) (ih _)
    exact (keys m.entries t).symm ▸ m.ordered⟩, out.2)

/-! ## `set_impl` and `bag_impl` -/

/-- **`set_impl`** on one rank: the local set or multiset, as a table without values. -/
structure SetImpl (K : Type) [LinearOrder K] where
  localSet : Multimap K Unit

namespace SetImpl

variable (s : SetImpl K) (key : K)

/-- The inserter of `async_insert_multi`, which adds one more copy of the key. -/
def insertMulti : SetImpl K :=
  ⟨s.localSet.insert key ()⟩

/-- The inserter of `async_insert_unique`, which adds the key if it is not stored. -/
def insertUnique : SetImpl K :=
  if s.localSet.count key = 0 then s.insertMulti key else s

/-- The eraser of `async_erase`, which removes all copies of the key. -/
def erase : SetImpl K :=
  ⟨s.localSet.erase key⟩

end SetImpl

/-- **`bag_impl`** on one rank: the counter of the round robin and the local items. -/
structure BagImpl (V : Type) where
  roundRobin : UInt64
  localBag : List V

namespace BagImpl

/-- The destination of the next `async_insert` of rank `r`: the counter plus the rank, as a
`size_t`, modulo the number of ranks. -/
def dest {V : Type} {n : ℕ} (b : BagImpl V) (r : Fin n) : Fin n :=
  ⟨(b.roundRobin + UInt64.ofNat r).toNat % n, Nat.mod_lt _ (Nat.zero_lt_of_lt r.isLt)⟩

/-- The inserter of `async_insert`, which appends the item to the local bag. -/
def insert {V : Type} (b : BagImpl V) (item : V) : BagImpl V :=
  { b with localBag := b.localBag ++ [item] }

end BagImpl

/-! ## What a map makes of a key -/

namespace MapImpl

variable (m : MapImpl K V) (key : K) (value : V) (key' : K)

@[simp] theorem insertMulti_get : (m.insertMulti key value).localMap.get key'
    = m.localMap.get key' ++ if key = key' then [value] else [] :=
  m.localMap.get_insert key value key'

/-- After `insertUnique`, a key with at most one entry has exactly the inserted value, and all
other keys have what they had. -/
theorem insertUnique_get (unique : (m.localMap.get key).length ≤ 1) :
    (m.insertUnique key value).localMap.get key'
      = if key = key' then [value] else m.localMap.get key' := by
  unfold insertUnique
  cases found : m.localMap.get key with
  | nil =>
      by_cases same : key = key'
      · subst same
        simp [found]
      · simp [same]
  | cons old rest =>
      by_cases same : key = key'
      · subst same
        have none : rest = [] := by simpa [found] using unique
        simp [found, none]
      · simp [same]

theorem ensure_get : (m.ensure key).localMap.get key'
    = if key = key' ∧ m.localMap.get key = [] then [m.defaultValue]
      else m.localMap.get key' := by
  unfold ensure
  cases found : m.localMap.get key with
  | nil =>
      by_cases same : key = key'
      · subst same
        simp [found]
      · simp [same]
  | cons old rest => simp

@[simp] theorem localVisit_get (f : V → V) : (m.localVisit key f).localMap.get key'
    = if key = key' then (m.localMap.get key').map f else m.localMap.get key' :=
  m.localMap.get_modify key key' f

@[simp] theorem localErase_get : (m.localErase key).localMap.get key'
    = if key = key' then [] else m.localMap.get key' :=
  m.localMap.get_erase key key'

@[simp] theorem localClear_get : m.localClear.localMap.get key' = [] :=
  rfl

@[simp] theorem insertUnique_default : (m.insertUnique key value).defaultValue = m.defaultValue := by
  unfold insertUnique
  split <;> rfl

@[simp] theorem ensure_default : (m.ensure key).defaultValue = m.defaultValue := by
  unfold ensure
  split <;> rfl

end MapImpl

end YGM
