import Mathlib.Data.Int.Notation
import Mathlib.Data.List.Perm.Basic
import YGM.Containers.Local

/-!
# What containers write to files

`serialize` and `deserialize` of `map_impl.hpp`, `set_impl.hpp` and `bag_impl.hpp`, on one
rank.  `counting_set` saves the map below it.

A file is the list of the values that its archive was called with.  The library below the
containers is a parameter: `Element` is how it writes and reads a value of an element type,
`Loader` how it fills a table with the entries it has read.  It may put the entries of one key
in another order; up to that, a container reads what it wrote (`Format.round`).
-/

namespace YGM

/-! ## File names -/

/-- The name of the file of a rank: `fname + std::to_string(m_comm.rank())`. -/
def rankFile (fname : List Char) (rank : ℕ) : List Char :=
  fname ++ Nat.toDigits 10 rank

theorem toDigits_injective {r r' : ℕ} (same : Nat.toDigits 10 r = Nat.toDigits 10 r') :
    r = r' := by
  have value : ∀ k, Nat.ofDigitChars 10 (Nat.toDigits 10 k) 0 = k := fun k =>
    Nat.ofDigitChars_toDigits (by decide) (by decide)
  rw [← value r, ← value r', same]

/-- Under one file name, different ranks have different files. -/
theorem rankFile_rank {fname : List Char} {r r' : ℕ}
    (same : rankFile fname r = rankFile fname r') : r = r' :=
  toDigits_injective (List.append_cancel_left same)

/-- Ranks of one digit have the same file only under the same file name. -/
theorem rankFile_of_lt_ten {fname fname' : List Char} {r r' : ℕ} (digit : r < 10)
    (digit' : r' < 10) (same : rankFile fname r = rankFile fname' r') : fname = fname' := by
  rw [rankFile, rankFile, Nat.toDigits_of_lt_base digit, Nat.toDigits_of_lt_base digit'] at same
  exact (List.append_inj' same rfl).1

/-! ## Archives -/

/-- **A value of a JSON archive** whose elements have type `J`: a number, an element, an array
of elements or an object of pairs. -/
inductive Field (J : Type)
  | number (value : ℤ)
  | element (value : J)
  | array (items : List J)
  | object (entries : List (J × J))
deriving DecidableEq

abbrev Archive (J : Type) : Type :=
  List (Field J)

/-- **An element type**: the form in which its values are stored in an archive, and the proof
that they are read back. -/
structure Element (J α : Type) where
  save : α → J
  load : J → Option α
  round : ∀ value, load (save value) = some value

/-- Natural numbers, stored as themselves in an archive of numbers. -/
def natElement : Element ℕ ℕ where
  save := id
  load := some
  round := fun _ => rfl

/-- **A loader of tables**: a way to fill a table with the entries read from an archive, which
keeps all of them. -/
structure Loader (K V : Type) [LinearOrder K] where
  build : List (K × V) → Multimap K V
  perm : ∀ entries, (build entries).entries.Perm entries

/-- The loader that inserts one entry after the other into an empty table. -/
def Loader.inserting (K V : Type) [LinearOrder K] : Loader K V where
  build := fun entries => entries.foldl (fun m e => m.insert e.1 e.2) .empty
  perm := fun entries => by
    have add : ∀ (entries : List (K × V)) (m : Multimap K V),
        (entries.foldl (fun m e => m.insert e.1 e.2) m).entries.Perm (m.entries ++ entries) := by
      intro entries
      induction entries with
      | nil => intro m; simp
      | cons e rest ih =>
          intro m
          obtain ⟨front, back, split, inserted⟩ := Multimap.exists_insertEntry e.1 e.2 m.entries
          have one : (m.insert e.1 e.2).entries.Perm (m.entries ++ [e]) := by
            change (Multimap.insertEntry e.1 e.2 m.entries).Perm _
            rw [inserted, split, List.append_assoc]
            exact (List.Perm.refl front).append (List.perm_append_singleton e back).symm
          refine (ih _).trans ?_
          simpa using one.append_right rest
    exact add entries .empty

/-- Elements that are saved one by one are loaded one by one, and the load succeeds. -/
theorem mapM_load {α β : Type} {save : α → β} {load : β → Option α}
    (round : ∀ value, load (save value) = some value) (values : List α) :
    (values.map save).mapM load = some values := by
  induction values with
  | nil => rfl
  | cons value rest ih => simp [List.mapM_cons, round, ih]

variable {J K V : Type} [LinearOrder K]

section MapImpl

variable (key : Element J K) (value : Element J V) (loader : Loader K V)

/-- `map_impl::serialize`: the local map, the default value and the size of the communicator, in
this order. -/
def MapImpl.save (m : MapImpl K V) (commSize : ℕ) : Archive J :=
  [.object (m.localMap.entries.map fun e => (key.save e.1, value.save e.2)),
    .element (value.save m.defaultValue), .number commSize]

/-- The part of `map_impl::deserialize` that reads the archive: the local map, the default value
and `comm_size`. -/
def MapImpl.load : Archive J → Option (MapImpl K V × ℤ)
  | .object entries :: .element default :: .number commSize :: _ =>
      (entries.mapM fun e => (key.load e.1).bind fun k => (value.load e.2).map (k, ·)).bind
        fun entries => (value.load default).map fun default =>
          (⟨default, loader.build entries⟩, commSize)
  | _ => none

/-- Two maps have the same default value and, up to their order, the same entries. -/
def MapImpl.Same (m m' : MapImpl K V) : Prop :=
  m.defaultValue = m'.defaultValue ∧ m.localMap.entries.Perm m'.localMap.entries

theorem MapImpl.load_save (m : MapImpl K V) (commSize : ℕ) :
    ∃ m', MapImpl.load key value loader (m.save key value commSize) = some (m', (commSize : ℤ)) ∧
      m'.Same m := by
  have entry : ∀ e : K × V, ((key.load (key.save e.1)).bind fun k =>
      (value.load (value.save e.2)).map (k, ·)) = some e := by
    intro e
    simp [key.round, value.round]
  refine ⟨⟨m.defaultValue, loader.build m.localMap.entries⟩, ?_, rfl, loader.perm _⟩
  simp only [MapImpl.save, MapImpl.load]
  rw [mapM_load entry]
  simp [value.round]

end MapImpl

section SetImpl

variable (key : Element J K) (loader : Loader K Unit)

/-- `set_impl::serialize`: the local set and the size of the communicator, in this order. -/
def SetImpl.save (s : SetImpl K) (commSize : ℕ) : Archive J :=
  [.array (s.localSet.entries.map fun e => key.save e.1), .number commSize]

/-- The part of `set_impl::deserialize` that reads the archive: the local set and `comm_size`. -/
def SetImpl.load : Archive J → Option (SetImpl K × ℤ)
  | .array items :: .number commSize :: _ =>
      (items.mapM key.load).map fun keys => (⟨loader.build (keys.map (·, ()))⟩, commSize)
  | _ => none

theorem SetImpl.load_save (s : SetImpl K) (commSize : ℕ) :
    SetImpl.load key loader (s.save key commSize) = some (s, (commSize : ℤ)) := by
  have pairs : (s.localSet.entries.map Prod.fst).map (·, ()) = s.localSet.entries := by
    rw [List.map_map]
    exact List.map_id _
  have same : loader.build s.localSet.entries = s.localSet := by
    refine Multimap.ext_of_count fun k => ?_
    rw [← Multimap.count_keys, ← Multimap.count_keys]
    exact ((loader.perm _).map Prod.fst).count_eq k
  have items : s.localSet.entries.map (fun e => key.save e.1)
      = (s.localSet.entries.map Prod.fst).map key.save := by
    rw [List.map_map]
    rfl
  rw [SetImpl.save, SetImpl.load, items, mapM_load key.round, Option.map_some, pairs, same]

end SetImpl

section BagImpl

variable (value : Element J V)

/-- `bag_impl::serialize`: the local bag, the round robin counter and the size of the
communicator, in this order. -/
def BagImpl.save (b : BagImpl V) (commSize : ℕ) : Archive J :=
  [.array (b.localBag.map value.save), .number b.roundRobin.toNat, .number commSize]

/-- The part of `bag_impl::deserialize` that reads the archive: the local bag, the round robin
counter and `comm_size`. -/
def BagImpl.load : Archive J → Option (BagImpl V × ℤ)
  | .array items :: .number roundRobin :: .number commSize :: _ =>
      (items.mapM value.load).map fun items =>
        (⟨UInt64.ofNat roundRobin.toNat, items⟩, commSize)
  | _ => none

theorem BagImpl.load_save (b : BagImpl V) (commSize : ℕ) :
    BagImpl.load value (b.save value commSize) = some (b, (commSize : ℤ)) := by
  simp [BagImpl.save, BagImpl.load, mapM_load value.round]

end BagImpl

/-! ## Formats -/

/-- **A kind of container**: its state on a rank, the archive that `serialize` writes of the
state, and the state that `deserialize` reads. -/
structure Format (J : Type) where
  State : Type
  /-- Two states have the same contents. -/
  Same : State → State → Prop
  save : State → ℕ → Archive J
  load : Archive J → Option (State × ℤ)
  equivalence : Equivalence Same
  /-- The archive that `serialize` writes is one that `deserialize` reads, as the same contents
  and the same size of the communicator. -/
  round : ∀ state commSize, ∃ state',
    load (save state commSize) = some (state', (commSize : ℤ)) ∧ Same state' state

/-- The format of `map` and `multimap`, and of the map inside a `counting_set`. -/
def mapFormat (key : Element J K) (value : Element J V) (loader : Loader K V) : Format J where
  State := MapImpl K V
  Same := MapImpl.Same
  save := MapImpl.save key value
  load := MapImpl.load key value loader
  equivalence := ⟨fun _ => ⟨rfl, .refl _⟩, fun h => ⟨h.1.symm, h.2.symm⟩,
    fun h h' => ⟨h.1.trans h'.1, h.2.trans h'.2⟩⟩
  round := MapImpl.load_save key value loader

/-- The format of `set` and `multiset`. -/
def setFormat (key : Element J K) (loader : Loader K Unit) : Format J where
  State := SetImpl K
  Same := Eq
  save := SetImpl.save key
  load := SetImpl.load key loader
  equivalence := eq_equivalence
  round := fun s commSize => ⟨s, SetImpl.load_save key loader s commSize, rfl⟩

def bagFormat (value : Element J V) : Format J where
  State := BagImpl V
  Same := Eq
  save := BagImpl.save value
  load := BagImpl.load value
  equivalence := eq_equivalence
  round := fun b commSize => ⟨b, BagImpl.load_save value b commSize, rfl⟩

/-- **The files of all ranks**, by their names; a name without a file has none. -/
abbrev Files (J : Type) : Type :=
  List Char → Option (Archive J)

/-- `serialize` on one rank, which writes or overwrites the file of this rank. -/
def Format.serialize (format : Format J) (files : Files J) (fname : List Char) (commSize rank : ℕ)
    (state : format.State) : Files J :=
  Function.update files (rankFile fname rank) (some (format.save state commSize))

/-- `deserialize` on one rank: the state read, with `comm_size`, or an exception of the archive
if the file is missing or has other fields. -/
def Format.deserialize (format : Format J) (files : Files J) (fname : List Char) (rank : ℕ) :
    Option (format.State × ℤ) :=
  (files (rankFile fname rank)).bind format.load

end YGM
