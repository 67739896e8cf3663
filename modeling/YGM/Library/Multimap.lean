import Mathlib.Data.Finset.Sort
import Mathlib.Data.List.Basic
import Mathlib.Order.Basic

/-!
# Ordered multimaps

`Multimap K V` is what `std::multimap` stores: entries in the order of their keys,
those of one key in the order in which they were inserted.  The order is a field, so
an unordered table cannot be built.

`get` reads the values of one key, and each operation comes with the lemma that says
what `get` reads afterwards (`get_insert`, `get_set`, `get_modify`, `get_erase`).
Everything that is proved about tables goes through these.
-/

namespace YGM

variable {K V : Type} [LinearOrder K]

/-- **A table with ordered keys**: a list of entries whose keys are in order and may repeat, as
in a `std::multimap`. -/
structure Multimap (K V : Type) [LinearOrder K] where
  entries : List (K × V)
  ordered : (entries.map Prod.fst).Pairwise (· ≤ ·)

namespace Multimap

@[ext] theorem ext {m m' : Multimap K V} (h : m.entries = m'.entries) : m = m' := by
  cases m
  cases m'
  cases h
  rfl

/-! ## Entry lists -/

/-- Insert an entry at the upper bound of its key, behind all entries whose keys are not
greater. -/
def insertEntry (key : K) (value : V) : List (K × V) → List (K × V)
  | [] => [(key, value)]
  | e :: rest => if e.1 ≤ key then e :: insertEntry key value rest else (key, value) :: e :: rest

/-- The values that a list of entries holds for a key, in the order of the list. -/
def getEntries (key : K) (entries : List (K × V)) : List V :=
  (entries.filter fun e => e.1 = key).map Prod.snd

/-- Overwrite the first entry of a key, and leave a list without this key as it is. -/
def setEntry (key : K) (value : V) : List (K × V) → List (K × V)
  | [] => []
  | e :: rest => if e.1 = key then (key, value) :: rest else e :: setEntry key value rest

/-- Apply a function to the value at position `i` among the values of a key. -/
def modifyEntry (key : K) (f : V → V) : ℕ → List (K × V) → List (K × V)
  | _, [] => []
  | 0, e :: rest => if e.1 = key then (key, f e.2) :: rest else e :: modifyEntry key f 0 rest
  | i + 1, e :: rest => e :: modifyEntry key f (if e.1 = key then i else i + 1) rest

theorem mem_keys_insertEntry {key x : K} {value : V} {entries : List (K × V)}
    (h : x ∈ (insertEntry key value entries).map Prod.fst) :
    x = key ∨ x ∈ entries.map Prod.fst := by
  induction entries with
  | nil => simpa [insertEntry] using h
  | cons e rest ih =>
      simp only [insertEntry] at h
      split at h
      · simp only [List.map_cons, List.mem_cons] at h ⊢
        rcases h with h | h
        · exact .inr (.inl h)
        · rcases ih h with h | h
          · exact .inl h
          · exact .inr (.inr h)
      · simpa using h

theorem ordered_insertEntry {key : K} {value : V} {entries : List (K × V)}
    (h : (entries.map Prod.fst).Pairwise (· ≤ ·)) :
    ((insertEntry key value entries).map Prod.fst).Pairwise (· ≤ ·) := by
  induction entries with
  | nil => simp [insertEntry]
  | cons e rest ih =>
      rw [List.map_cons, List.pairwise_cons] at h
      simp only [insertEntry]
      split
      case isTrue le =>
        rw [List.map_cons, List.pairwise_cons]
        refine ⟨fun x hx => ?_, ih h.2⟩
        rcases mem_keys_insertEntry hx with rfl | hx
        · exact le
        · exact h.1 x hx
      case isFalse lt =>
        have before : key ≤ e.1 := (not_le.mp lt).le
        rw [List.map_cons, List.pairwise_cons, List.map_cons, List.pairwise_cons]
        refine ⟨fun x hx => ?_, h⟩
        rcases List.mem_cons.mp hx with rfl | hx
        · exact before
        · exact before.trans (h.1 x hx)

/-- An inserted value is placed behind the values its key already has, and the values of all
other keys stay. -/
theorem getEntries_insertEntry {key : K} {value : V} {entries : List (K × V)}
    (h : (entries.map Prod.fst).Pairwise (· ≤ ·)) (key' : K) :
    getEntries key' (insertEntry key value entries)
      = getEntries key' entries ++ if key = key' then [value] else [] := by
  induction entries with
  | nil => by_cases same : key = key' <;> simp [insertEntry, getEntries, same]
  | cons e rest ih =>
      rw [List.map_cons, List.pairwise_cons] at h
      simp only [insertEntry]
      split
      case isTrue le =>
        have rest_eq := ih h.2
        simp only [getEntries] at rest_eq ⊢
        by_cases here : e.1 = key' <;> simp [here, rest_eq]
      case isFalse lt =>
        by_cases same : key = key'
        · subst same
          have none : getEntries key (e :: rest) = [] := by
            simp only [getEntries, List.map_eq_nil_iff, List.filter_eq_nil_iff, decide_eq_true_eq]
            intro x hx
            rcases List.mem_cons.mp hx with rfl | hx
            · exact fun eq => lt eq.le
            · exact fun eq => lt ((h.1 x.1 (List.mem_map_of_mem hx)).trans eq.le)
          rw [none]
          simp only [getEntries] at none ⊢
          simp [none]
        · simp [getEntries, same]

theorem keys_setEntry (key : K) (value : V) (entries : List (K × V)) :
    (setEntry key value entries).map Prod.fst = entries.map Prod.fst := by
  induction entries with
  | nil => rfl
  | cons e rest ih =>
      simp only [setEntry]
      split
      case isTrue same => simp [same]
      case isFalse => simp [ih]

theorem getEntries_setEntry (key : K) (value : V) (entries : List (K × V)) (key' : K) :
    getEntries key' (setEntry key value entries)
      = if key = key' then (getEntries key' entries).set 0 value
        else getEntries key' entries := by
  induction entries with
  | nil => simp [setEntry, getEntries]
  | cons e rest ih =>
      simp only [setEntry, getEntries] at ih ⊢
      by_cases here : e.1 = key
      · by_cases same : key = key' <;> simp [here, same]
      · by_cases same : key = key'
        · subst same
          simpa [here] using ih
        · rw [if_neg here, List.filter_cons, List.filter_cons]
          rw [if_neg same] at ih ⊢
          split <;> simp [ih]

theorem keys_modifyEntry (key : K) (f : V → V) (i : ℕ) (entries : List (K × V)) :
    (modifyEntry key f i entries).map Prod.fst = entries.map Prod.fst := by
  induction entries generalizing i with
  | nil => cases i <;> rfl
  | cons e rest ih =>
      cases i with
      | zero =>
          simp only [modifyEntry]
          split
          case isTrue same => simp [same]
          case isFalse => simp [ih]
      | succ i => simp [modifyEntry, ih]

/-- An insertion splits the list into a front and a back and puts the new entry between the two. -/
theorem exists_insertEntry (key : K) (value : V) (entries : List (K × V)) :
    ∃ front back, entries = front ++ back ∧
      insertEntry key value entries = front ++ (key, value) :: back := by
  induction entries with
  | nil => exact ⟨[], [], rfl, rfl⟩
  | cons e rest ih =>
      rw [insertEntry]
      split
      · obtain ⟨front, back, rfl, inserted⟩ := ih
        exact ⟨e :: front, back, rfl, by rw [inserted]; rfl⟩
      · exact ⟨[], e :: rest, rfl, rfl⟩

/-- **The range of a key**: an ordered list is its entries below the key, then the entries of
the key, then its entries above the key. -/
theorem entries_split {entries : List (K × V)}
    (h : (entries.map Prod.fst).Pairwise (· ≤ ·)) (key : K) :
    entries = entries.filter (fun e => e.1 < key) ++ entries.filter (fun e => key ≤ e.1) ∧
      entries.filter (fun e => key ≤ e.1)
        = entries.filter (fun e => e.1 = key) ++ entries.filter (fun e => key < e.1) := by
  induction entries with
  | nil => simp
  | cons e rest ih =>
      rw [List.map_cons, List.pairwise_cons] at h
      obtain ⟨low, high⟩ := ih h.2
      have above : ∀ x ∈ rest, e.1 ≤ x.1 := fun x hx => h.1 x.1 (List.mem_map_of_mem hx)
      rcases lt_trichotomy e.1 key with lt | eq | gt
      · refine ⟨?_, ?_⟩
        · rw [List.filter_cons_of_pos (by simpa using lt),
            List.filter_cons_of_neg (by simpa using lt), List.cons_append, ← low]
        · rw [List.filter_cons_of_neg (by simpa using lt),
            List.filter_cons_of_neg (by simpa using lt.ne),
            List.filter_cons_of_neg (by simpa using lt.le), high]
      · have none : rest.filter (fun x => x.1 < key) = [] :=
          List.filter_eq_nil_iff.mpr fun x hx => by simpa [eq] using above x hx
        refine ⟨?_, ?_⟩
        · rw [List.filter_cons_of_neg (by simp [eq]), List.filter_cons_of_pos (by simp [eq]), none]
          rw [none] at low
          simpa using low
        · rw [List.filter_cons_of_pos (by simp [eq]), List.filter_cons_of_pos (by simp [eq]),
            List.filter_cons_of_neg (by simp [eq]), List.cons_append, high]
      · have none : rest.filter (fun x => x.1 < key) = [] :=
          List.filter_eq_nil_iff.mpr fun x hx => by
            simpa using (gt.trans_le (above x hx)).le
        have none' : rest.filter (fun x => x.1 = key) = [] :=
          List.filter_eq_nil_iff.mpr fun x hx => by
            simpa using (gt.trans_le (above x hx)).ne'
        refine ⟨?_, ?_⟩
        · rw [List.filter_cons_of_neg (by simpa using gt.le),
            List.filter_cons_of_pos (by simpa using gt.le), none]
          rw [none] at low
          simpa using low
        · rw [List.filter_cons_of_pos (by simpa using gt.le),
            List.filter_cons_of_neg (by simpa using gt.ne'),
            List.filter_cons_of_pos (by simpa using gt), none', high, none']
          rfl

/-! ## The operations -/

/-- The table without entries. -/
def empty : Multimap K V :=
  ⟨[], by simp⟩

/-- `equal_range`: the values of a key, in the order in which the table holds them. -/
def get (m : Multimap K V) (key : K) : List V :=
  getEntries key m.entries

/-- `size`: the number of entries of the table. -/
def size (m : Multimap K V) : ℕ :=
  m.entries.length

/-- `count`: the number of entries a key has in the table. -/
def count (m : Multimap K V) (key : K) : ℕ :=
  (m.get key).length

/-- `insert` of `std::multimap`, which adds an entry at the upper bound of its key. -/
def insert (m : Multimap K V) (key : K) (value : V) : Multimap K V :=
  ⟨insertEntry key value m.entries, ordered_insertEntry m.ordered⟩

/-- `insert` of `std::map`, which leaves the table as it is when the key is already there. -/
def insertNew (m : Multimap K V) (key : K) (value : V) : Multimap K V :=
  if m.count key = 0 then m.insert key value else m

/-- `insert` of `std::multimap` if `multi` is set, and of `std::map` otherwise. -/
def insertAs (multi : Bool) (m : Multimap K V) (key : K) (value : V) : Multimap K V :=
  if multi then m.insert key value else m.insertNew key value

/-- Insert the values of a list under one key, one after the other. -/
def insertValues (multi : Bool) (m : Multimap K V) (key : K) (values : List V) : Multimap K V :=
  values.foldl (fun m value => m.insertAs multi key value) m

/-- Assign to the entry that `find` returns, which is the first entry of the key. -/
def set (m : Multimap K V) (key : K) (value : V) : Multimap K V :=
  ⟨setEntry key value m.entries, by
    rw [keys_setEntry]
    exact m.ordered⟩

/-- Change the values of all entries by a function of key and value, without moving an entry. -/
def map (m : Multimap K V) (f : K → V → V) : Multimap K V :=
  ⟨m.entries.map fun e => (e.1, f e.1 e.2), by
    rw [List.map_map]
    exact m.ordered⟩

/-- Change all values of one key by a function. -/
def modify (m : Multimap K V) (key : K) (f : V → V) : Multimap K V :=
  m.map fun key' value => if key' = key then f value else value

/-- Change the value at position `i` of one key by a function. -/
def modifyAt (m : Multimap K V) (key : K) (i : ℕ) (f : V → V) : Multimap K V :=
  ⟨modifyEntry key f i m.entries, by
    rw [keys_modifyEntry]
    exact m.ordered⟩

/-- `erase`: remove all entries of a key. -/
def erase (m : Multimap K V) (key : K) : Multimap K V :=
  ⟨m.entries.filter fun e => ¬ e.1 = key, m.ordered.sublist (List.filter_sublist.map _)⟩

variable (m : Multimap K V) (key : K) (value : V) (key' : K)

@[simp] theorem get_empty : (empty : Multimap K V).get key = [] :=
  rfl

@[simp] theorem get_insert :
    (m.insert key value).get key' = m.get key' ++ if key = key' then [value] else [] :=
  getEntries_insertEntry m.ordered key'

theorem get_insertNew : (m.insertNew key value).get key'
    = if key = key' ∧ m.get key = [] then [value] else m.get key' := by
  simp only [insertNew, count, List.length_eq_zero_iff]
  by_cases none : m.get key = []
  · by_cases same : key = key'
    · subst same
      simp [none]
    · simp [none, same]
  · simp [none]

/-- A map that is given several values for a key keeps the value it has, or takes the first of
the new values if it has none. -/
theorem get_insertValues_map (values : List V) :
    (m.insertValues false key values).get key'
      = if key = key' ∧ m.get key = [] then values.take 1 else m.get key' := by
  induction values generalizing m with
  | nil =>
      by_cases same : key = key' ∧ m.get key = []
      · obtain ⟨rfl, none⟩ := same
        simp [insertValues, none]
      · rw [if_neg same]
        rfl
  | cons value values ih =>
      have step : m.insertValues false key (value :: values)
          = (m.insertNew key value).insertValues false key values := rfl
      rw [step, ih, get_insertNew, get_insertNew]
      by_cases none : m.get key = [] <;> simp [none]

/-- A multimap that is given several values for a key takes all of them, behind those it has. -/
theorem get_insertValues_multimap (values : List V) :
    (m.insertValues true key values).get key'
      = m.get key' ++ if key = key' then values else [] := by
  induction values generalizing m with
  | nil => simp [insertValues]
  | cons value values ih =>
      have step : m.insertValues true key (value :: values)
          = (m.insert key value).insertValues true key values := rfl
      rw [step, ih, get_insert]
      by_cases same : key = key' <;> simp [same]

@[simp] theorem get_set :
    (m.set key value).get key'
      = if key = key' then (m.get key').set 0 value else m.get key' :=
  getEntries_setEntry key value m.entries key'

@[simp] theorem get_modify (f : V → V) :
    (m.modify key f).get key' = if key = key' then (m.get key').map f else m.get key' := by
  simp only [get, modify, map, getEntries, List.filter_map, List.map_map]
  split
  case isTrue same =>
    subst same
    refine List.map_congr_left fun e he => ?_
    have here : e.1 = key := by simpa using (List.mem_filter.mp he).2
    simp [here]
  case isFalse other =>
    refine List.map_congr_left fun e he => ?_
    have here : e.1 = key' := by simpa using (List.mem_filter.mp he).2
    have apart : e.1 ≠ key := fun eq => other (eq.symm.trans here)
    simp [apart]

@[simp] theorem get_erase :
    (m.erase key).get key' = if key = key' then [] else m.get key' := by
  simp only [get, erase, getEntries, List.filter_filter]
  split
  case isTrue same =>
    subst same
    simp
  case isFalse other =>
    congr 1
    refine List.filter_congr fun e _ => ?_
    by_cases here : e.1 = key'
    · simp [here, Ne.symm other]
    · simp [here]

theorem mem_get {m : Multimap K V} {key : K} {value : V} :
    value ∈ m.get key ↔ (key, value) ∈ m.entries := by
  simp [get, getEntries]

/-! ## Collecting the values of keys -/

/-- Insert the values that `stored` gives for each key of a list, key by key. -/
def collect (multi : Bool) (stored : K → List V) (m : Multimap K V) (keys : List K) :
    Multimap K V :=
  keys.foldl (fun m key => m.insertValues multi key (stored key)) m

/-- **A map collects one value for each key** of the list that has values, however often the key
occurs in the list. -/
theorem get_collect_map (stored : K → List V) (m : Multimap K V) (keys : List K) (key : K) :
    (m.collect false stored keys).get key
      = if m.get key = [] ∧ key ∈ keys then (stored key).take 1 else m.get key := by
  induction keys generalizing m with
  | nil => simp [collect]
  | cons first keys ih =>
      have step : m.collect false stored (first :: keys)
          = (m.insertValues false first (stored first)).collect false stored keys := rfl
      rw [step, ih, get_insertValues_map]
      by_cases none : m.get key = []
      · by_cases same : first = key
        · subst same
          by_cases empty : (stored first).take 1 = [] <;> simp [none, empty]
        · simp [none, same, Ne.symm same]
      · by_cases same : first = key
        · subst same
          simp [none]
        · simp [none, same]

/-- **A multimap collects all values of each key** of the list, if no key occurs in the list
twice. -/
theorem get_collect_multimap (stored : K → List V) (m : Multimap K V) {keys : List K}
    (nodup : keys.Nodup) (key : K) :
    (m.collect true stored keys).get key = m.get key ++ if key ∈ keys then stored key else [] := by
  induction keys generalizing m with
  | nil => simp [collect]
  | cons first keys ih =>
      have step : m.collect true stored (first :: keys)
          = (m.insertValues true first (stored first)).collect true stored keys := rfl
      obtain ⟨fresh, rest⟩ := List.nodup_cons.mp nodup
      rw [step, ih _ rest, get_insertValues_multimap]
      by_cases same : first = key
      · subst same
        simp [fresh]
      · simp [same, Ne.symm same]

/-! ## Tables with the same contents -/

@[simp] theorem count_empty : (empty : Multimap K V).count key = 0 :=
  rfl

theorem count_insert :
    (m.insert key value).count key' = m.count key' + if key = key' then 1 else 0 := by
  by_cases same : key = key' <;> simp [count, same]

/-- The list of all stored keys holds a key as often as `count` says. -/
theorem count_keys : (m.entries.map Prod.fst).count key = m.count key := by
  rw [count, get, getEntries, List.length_map, List.count, List.countP_map,
    ← List.countP_eq_length_filter]
  refine List.countP_congr fun e _ => ?_
  simp

theorem count_getEntries [DecidableEq V] (entries : List (K × V)) :
    (getEntries key entries).count value = entries.count (key, value) := by
  rw [getEntries, List.count, List.countP_map, List.countP_filter, List.count]
  refine List.countP_congr fun e _ => ?_
  simp [Prod.ext_iff, and_comm]

/-- Two lists of entries that hold the same values for every key are permutations of each other. -/
theorem perm_of_getEntries {entries entries' : List (K × V)}
    (h : ∀ key, getEntries key entries = getEntries key entries') : entries.Perm entries' := by
  classical
  refine List.perm_iff_count.mpr fun e => ?_
  rw [← count_getEntries, ← count_getEntries, h]

/-- A table without values is determined by the number of its entries for each key. -/
theorem ext_of_count {m m' : Multimap K Unit} (h : ∀ key, m.count key = m'.count key) :
    m = m' := by
  have keys : m.entries.map Prod.fst = m'.entries.map Prod.fst := by
    refine List.Perm.eq_of_pairwise (fun a b _ _ => le_antisymm) m.ordered m'.ordered
      (List.perm_iff_count.mpr fun key => ?_)
    rw [count_keys, count_keys, h]
  have pairs : ∀ entries : List (K × Unit), entries = (entries.map Prod.fst).map (·, ()) := by
    intro entries
    rw [List.map_map]
    exact (List.map_id entries).symm
  refine Multimap.ext ?_
  rw [pairs m.entries, pairs m'.entries, keys]

/-- The entries of a table that has one value for each key of a finite set are these keys in
order, each with its value. -/
theorem entries_eq {m : Multimap K V} {keys : Finset K} {f : K → V}
    (h : ∀ key, m.get key = if key ∈ keys then [f key] else []) :
    m.entries = keys.sort.map fun key => (key, f key) := by
  have once : ∀ key, (m.entries.map Prod.fst).count key = keys.sort.count key := by
    intro key
    rw [count_keys, count, h]
    by_cases member : key ∈ keys
    · rw [List.count_eq_one_of_mem (keys.sort_nodup _) ((keys.mem_sort _).mpr member)]
      simp [member]
    · rw [List.count_eq_zero_of_not_mem fun found => member ((keys.mem_sort _).mp found)]
      simp [member]
  have sorted : m.entries.map Prod.fst = keys.sort :=
    List.Perm.eq_of_pairwise (fun a b _ _ => le_antisymm) m.ordered (keys.pairwise_sort _)
      (List.perm_iff_count.mpr once)
  have pairs : ∀ e ∈ m.entries, e = (e.1, f e.1) := by
    intro e he
    have value : e.2 ∈ m.get e.1 := mem_get.mpr he
    rw [h] at value
    split at value
    · exact Prod.ext rfl (List.mem_singleton.mp value)
    · simp at value
  rw [← sorted, List.map_map]
  conv_lhs => rw [← List.map_id m.entries]
  exact List.map_congr_left pairs

end Multimap

end YGM
