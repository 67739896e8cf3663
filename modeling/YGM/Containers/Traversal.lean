import YGM.Library.Cursor
import YGM.Library.Multimap

/-!
# Traversals that call out

`local_for_all` and `local_visit` of `include/ygm/container/detail/map_impl.hpp` walk
`m_local_map` with iterators while they call a function of the user's.  Such a function
may call `async`, which runs handlers of any rank at once, and these insert into the same
map and erase from it.

So the entries are modelled as the nodes of a `std::multimap` (`NodeMap`), which keep
their identity, and an iterator is the identity of a node.  What one call of the function
does to the map, directly and through handlers, is a list of operations (`Op`) that may
depend on everything.

`traversal_proper_iff` says when a traversal does what it should.  An entry inserted
right behind the current one is traversed too, and after the erasure of the current entry,
or of the one at the end of the range, the traversal is lost (`traversal_disturbed`).
-/

namespace YGM

variable {K V τ : Type} [LinearOrder K]

/-- **`m_local_map`**, as a table in which every entry carries the identity of its node. -/
structure NodeMap (K V : Type) [LinearOrder K] where
  table : Multimap K (ℕ × V)
  /-- The identity that the next inserted node will get. -/
  fresh : ℕ
  below : ∀ e ∈ table.entries, e.2.1 < fresh
  nodup : (table.entries.map fun e => e.2.1).Nodup

/-- **The operations of handlers on the local map**, and assignments by the function that
traverses it. -/
inductive NodeOp (K V : Type)
  | insertUnique (key : K) (value : V)
  | insertMulti (key : K) (value : V)
  | visit (key : K) (f : V → V)
  | visitIfExists (key : K) (f : V → V)
  | erase (key : K)
  /-- The function assigns to the value of an entry that it was given by reference. -/
  | assign (id : ℕ) (value : V)

namespace NodeMap

variable (m : NodeMap K V)

/-- The identities of the nodes, in the order of the map. -/
def ids : List ℕ :=
  m.table.entries.map fun e => e.2.1

/-- `insert`: a node with a new identity is placed at the upper bound of its key. -/
def insert (key : K) (value : V) : NodeMap K V where
  table := m.table.insert key (m.fresh, value)
  fresh := m.fresh + 1
  below e he := by
    obtain ⟨front, back, entries, inserted⟩ :=
      Multimap.exists_insertEntry key (m.fresh, value) m.table.entries
    change e ∈ Multimap.insertEntry _ _ _ at he
    rw [inserted, List.mem_append, List.mem_cons] at he
    have old : ∀ e ∈ front ++ back, e.2.1 < m.fresh := entries ▸ m.below
    rcases he with he | rfl | he
    · exact Nat.lt_succ_of_lt (old e (by simp [he]))
    · exact Nat.lt_succ_self _
    · exact Nat.lt_succ_of_lt (old e (by simp [he]))
  nodup := by
    obtain ⟨front, back, entries, inserted⟩ :=
      Multimap.exists_insertEntry key (m.fresh, value) m.table.entries
    change ((Multimap.insertEntry _ _ _).map _).Nodup
    have old : ∀ e ∈ front ++ back, e.2.1 < m.fresh := entries ▸ m.below
    have apart : m.fresh ∉ (front ++ back).map fun e => e.2.1 := by
      intro h
      obtain ⟨e, he, same⟩ := List.mem_map.mp h
      exact absurd same (old e he).ne
    have nodup := m.nodup
    rw [entries] at nodup
    rw [inserted, List.map_append, List.map_cons, List.nodup_middle, ← List.map_append]
    exact List.nodup_cons.mpr ⟨apart, nodup⟩

/-- Change the values of all entries, while every node keeps its identity and its place. -/
def assign (f : K → ℕ × V → V) : NodeMap K V where
  table := m.table.map fun key node => (node.1, f key node)
  fresh := m.fresh
  below e he := by
    obtain ⟨e', he', rfl⟩ := List.mem_map.mp he
    exact m.below e' he'
  nodup := by
    simpa [Multimap.map, Function.comp_def] using m.nodup

/-- `erase`: remove all nodes of a key. -/
def erase (key : K) : NodeMap K V where
  table := m.table.erase key
  fresh := m.fresh
  below e he := m.below e (List.mem_of_mem_filter he)
  nodup := m.nodup.sublist (List.filter_sublist.map _)

/-- `local_visit` by a visitor that makes no calls, on all values of the key. -/
def modify (key : K) (f : V → V) : NodeMap K V :=
  m.assign fun key' node => if key' = key then f node.2 else node.2

/-- **One operation on the local map**, of a map with default value `dv`. -/
def perform (dv : V) : NodeOp K V → NodeMap K V
  | .insertUnique key value =>
      match m.table.get key with
      | [] => m.insert key value
      | found :: _ => m.assign fun _ node => if node.1 = found.1 then value else node.2
  | .insertMulti key value => m.insert key value
  | .visit key f =>
      match m.table.get key with
      | [] => (m.insert key dv).modify key f
      | _ :: _ => m.modify key f
  | .visitIfExists key f => m.modify key f
  | .erase key => m.erase key
  | .assign id value => m.assign fun _ node => if node.1 = id then value else node.2

end NodeMap

/-! ## The loops -/

/-- A local map, and the rest of the memory that the user's code can reach. -/
structure World (K V τ : Type) [LinearOrder K] where
  map : NodeMap K V
  user : τ

/-- The nodes of a map, as a linked list through which a cursor walks. -/
def World.linked (K V τ : Type) [LinearOrder K] : Linked (World K V τ) where
  ids w := w.map.ids
  fresh w := w.map.fresh
  nodup w := w.map.nodup
  below w i hi := by
    obtain ⟨e, he, rfl⟩ := List.mem_map.mp hi
    exact w.map.below e he

/-- The target of a traversal: all entries of the map, or the entries of one key. -/
inductive Target (K : Type)
  | all
  | key (key : K)

namespace Target

variable (m : NodeMap K V)

/-- The iterator at which a traversal starts: `begin()`, or the lower bound of the key. -/
def first : Target K → Option ℕ
  | .all => m.ids.head?
  | .key k => ((m.table.entries.filter fun e => k ≤ e.1).map fun e => e.2.1).head?

/-- The iterator at which a traversal ends: `end()`, or the upper bound of the key. -/
def last : Target K → Option ℕ
  | .all => none
  | .key k => ((m.table.entries.filter fun e => k < e.1).map fun e => e.2.1).head?

/-- The nodes that a traversal is to visit, in the order of the map. -/
def range : Target K → List ℕ
  | .all => m.ids
  | .key k => (m.table.entries.filter fun e => e.1 = k).map fun e => e.2.1

/-- **The iterators of a traversal enclose its range**: the first is the start of the range and
the last is the entry behind it. -/
theorem encloses (target : Target K) :
    ∃ before behind, m.ids = before ++ (target.range m ++ behind) ∧
      target.first m = (target.range m ++ behind).head? ∧ target.last m = behind.head? := by
  cases target with
  | all => exact ⟨[], [], by simp [range], by simp [range, first], rfl⟩
  | key k =>
      obtain ⟨low, high⟩ := Multimap.entries_split m.table.ordered k
      refine ⟨(m.table.entries.filter fun e => e.1 < k).map fun e => e.2.1,
        (m.table.entries.filter fun e => k < e.1).map fun e => e.2.1, ?_, ?_, rfl⟩
      · rw [NodeMap.ids, range, ← List.map_append, ← high, ← List.map_append, ← low]
      · rw [first, range, ← List.map_append, ← high]

end Target

section Loops

variable (dv : V) (fn : ℕ → World K V τ → List (NodeOp K V) × τ)

/-- **One call of the function**, for the entry of a node: the operations that are done before
the call returns. -/
def applyFn (i : ℕ) (w : World K V τ) : World K V τ where
  map := (fn i w).1.foldl (fun m op => m.perform dv op) w.map
  user := (fn i w).2

/-- **`local_for_all` and `local_visit`**: the walk from the first iterator to the last, for at
most `fuel` entries. -/
def traverse (target : Target K) (fuel : ℕ) (w : World K V τ) : WalkEnd (World K V τ) :=
  (World.linked K V τ).walk (applyFn dv fn) (target.last w.map) fuel (target.first w.map) w []

/-- **A proper traversal**: it ends without using an erased entry, and has applied the function
once to each entry of the range that has not been erased, and to no entry outside the range. -/
def ProperTraversal (target : Target K) (w : World K V τ) : Prop :=
  ∃ fuel w' applied, traverse dv fn target fuel w = .returned w' applied ∧ applied.Nodup ∧
    (∀ i ∈ applied, i ∈ target.range w.map) ∧
    ∀ i ∈ target.range w.map, i ∈ w'.map.ids → i ∈ applied

/-- **An undisturbed traversal**: whenever the function returns, its entry is still in the map,
and what follows the entry is the next entry of the range that is still in the map or, if there
is none, the end of the range. -/
def Undisturbed (target : Target K) (w : World K V τ) : Prop :=
  (World.linked K V τ).Calm (applyFn dv fn) (target.last w.map) (target.range w.map) w

instance (target : Target K) (w : World K V τ) : Decidable (Undisturbed dv fn target w) :=
  inferInstanceAs (Decidable (Linked.Calm _ _ _ _ _))

end Loops

/-! ## Operations keep the nodes in order -/

namespace NodeMap

variable {dv : V}

theorem ids_assign (m : NodeMap K V) (f : K → ℕ × V → V) : (m.assign f).ids = m.ids := by
  simp [ids, assign, Multimap.map]

theorem keeps_of_ids {w w' : World K V τ} (ids : w'.map.ids = w.map.ids)
    (fresh : w'.map.fresh = w.map.fresh) : (World.linked K V τ).Keeps w w' where
  fresh := fresh.ge
  order := by
    change (List.filter _ w'.map.ids).Sublist w.map.ids
    rw [ids]
    exact List.filter_sublist

theorem keeps_insert (m : NodeMap K V) (key : K) (value : V) (user user' : τ) :
    (World.linked K V τ).Keeps ⟨m, user⟩ ⟨m.insert key value, user'⟩ where
  fresh := Nat.le_succ _
  order := by
    obtain ⟨front, back, entries, inserted⟩ :=
      Multimap.exists_insertEntry key (m.fresh, value) m.table.entries
    change (((Multimap.insertEntry key (m.fresh, value) m.table.entries).map fun e => e.2.1).filter
      fun i => i < m.fresh).Sublist (m.table.entries.map fun e => e.2.1)
    rw [inserted, List.map_append, List.map_cons, List.filter_append,
      List.filter_cons_of_neg (by simp), ← List.filter_append, ← List.map_append, ← entries]
    exact List.filter_sublist

theorem keeps_perform (m : NodeMap K V) (op : NodeOp K V) (user user' : τ) :
    (World.linked K V τ).Keeps ⟨m, user⟩ ⟨m.perform dv op, user'⟩ := by
  cases op with
  | insertUnique key value =>
      simp only [perform]
      split
      · exact keeps_insert m key value user user'
      · exact keeps_of_ids (ids_assign _ _) rfl
  | insertMulti key value => exact keeps_insert m key value user user'
  | visit key f =>
      simp only [perform]
      split
      · exact (keeps_insert m key dv user user).trans (keeps_of_ids (ids_assign _ _) rfl)
      · exact keeps_of_ids (ids_assign _ _) rfl
  | visitIfExists key f => exact keeps_of_ids (ids_assign _ _) rfl
  | erase key => exact ⟨le_rfl, List.filter_sublist.trans (List.filter_sublist.map _)⟩
  | assign id value => exact keeps_of_ids (ids_assign _ _) rfl

end NodeMap

theorem applyFn_keeps (dv : V) (fn : ℕ → World K V τ → List (NodeOp K V) × τ) (i : ℕ)
    (w : World K V τ) : (World.linked K V τ).Keeps w (applyFn dv fn i w) := by
  have all : ∀ (ops : List (NodeOp K V)) (m : NodeMap K V), (World.linked K V τ).Keeps
      ⟨m, w.user⟩ ⟨ops.foldl (fun m op => m.perform dv op) m, (fn i w).2⟩ := by
    intro ops
    induction ops with
    | nil => exact fun m => NodeMap.keeps_of_ids rfl rfl
    | cons op ops ih => exact fun m => (NodeMap.keeps_perform m op w.user w.user).trans (ih _)
  exact all _ _

section Traversal

variable (dv : V) (fn : ℕ → World K V τ → List (NodeOp K V) × τ) (target : Target K)
variable (w : World K V τ)

theorem undisturbed_of_proper (proper : ProperTraversal dv fn target w) :
    Undisturbed dv fn target w := by
  obtain ⟨before, behind, whole, first, last⟩ := target.encloses w.map
  have iff := Linked.proper_iff_calm (L := World.linked K V τ) (applyFn_keeps dv fn) whole
  rw [← first, ← last] at iff
  exact iff.mp proper

theorem proper_of_undisturbed (undisturbed : Undisturbed dv fn target w) :
    ProperTraversal dv fn target w := by
  obtain ⟨before, behind, whole, first, last⟩ := target.encloses w.map
  have iff := Linked.proper_iff_calm (L := World.linked K V τ) (applyFn_keeps dv fn) whole
  rw [← first, ← last] at iff
  exact iff.mpr undisturbed

/-- **A traversal is proper if and only if it is undisturbed**, for every map, every range of
it, and every function with the operations whose handlers run before its calls return. -/
theorem traversal_proper_iff : ProperTraversal dv fn target w ↔ Undisturbed dv fn target w :=
  ⟨undisturbed_of_proper dv fn target w, proper_of_undisturbed dv fn target w⟩

end Traversal

/-! ## Functions that insert and erase -/

/-- A map with the single entry `(1, 5)`. -/
def oneEntry : World ℕ ℕ Unit where
  map := (⟨.empty, 0, by simp [Multimap.empty], by simp [Multimap.empty]⟩ : NodeMap ℕ ℕ).insert 1 5
  user := ()

/-- A function that inserts the entry `(2, 6)` when it is called for the first node. -/
def insertNext (i : ℕ) (_ : World ℕ ℕ Unit) : List (NodeOp ℕ ℕ) × Unit :=
  (if i = 0 then [.insertUnique 2 6] else [], ())

/-- A function that erases key 1, which is the key of its own entry. -/
def eraseOwn (_ : ℕ) (_ : World ℕ ℕ Unit) : List (NodeOp ℕ ℕ) × Unit :=
  ([.erase 1], ())

/-- **Traversals can be disturbed**: `for_all` goes on to an entry inserted by its function, and
fails to step on from an entry that its function has erased. -/
theorem traversal_disturbed :
    ¬ ProperTraversal 0 insertNext .all oneEntry ∧ ¬ ProperTraversal 0 eraseOwn .all oneEntry :=
  ⟨fun proper => absurd (undisturbed_of_proper _ _ _ _ proper) (by decide),
    fun proper => absurd (undisturbed_of_proper _ _ _ _ proper) (by decide)⟩

end YGM
