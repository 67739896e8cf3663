import Mathlib.Data.Nat.Basic
import YGM.Containers.Files

/-!
# Loading with another number of ranks

A container is saved by `p` ranks and loaded by `q` ranks.  `deserialize` reads the file of
its own rank before it compares the two sizes, and the comparison only prints a warning: a load at
another size returns normally, with the former contents overwritten.  A load is refused only where
a rank finds no file and its archive throws, that is with more ranks than have saved.

So a load is all or nothing exactly in two cases (`load_all_or_nothing_iff`).  Either every saved
key happens to be owned, among the `q` ranks, by the rank that saved it, and every rank that saved
one loads.  Or there are ranks without a file, and all the others happen to hold already what they
read.
-/

namespace YGM

variable {J K : Type}

/-- **A container placed by key**: a format with the values that a state holds for each key,
which depend on the contents of the state only, up to their order. -/
structure Keyed (J K : Type) extends Format J where
  Value : Type
  get : State → K → List Value
  get_perm : ∀ {state state'}, Same state state' → ∀ key, (get state key).Perm (get state' key)

section Kinds

variable {V : Type} [LinearOrder K]

/-- Maps and multimaps, as containers placed by key. -/
def keyedMap (key : Element J K) (value : Element J V) (loader : Loader K V) : Keyed J K where
  toFormat := mapFormat key value loader
  Value := V
  get := fun m key => MapImpl.localGet m key
  get_perm := fun same _ => (same.2.filter _).map _

/-- Sets and multisets, as containers placed by key, with one `()` for each copy of a key. -/
def keyedSet (key : Element J K) (loader : Loader K Unit) : Keyed J K where
  toFormat := setFormat key loader
  Value := Unit
  get := fun s key => SetImpl.localSet s |>.get key
  get_perm := fun same _ => same ▸ .refl _

end Kinds

/-! ## What the ranks do -/

section Resize

variable (format : Format J) (fname : List Char) {p q : ℕ}

/-- The files after all ranks of a list have saved in its order, where no file has been written
before. -/
def Format.serializeAll (saved : Fin p → format.State) (order : List (Fin p)) : Files J :=
  order.foldl (fun files (r : Fin p) => format.serialize files fname p r (saved r)) fun _ => none

/-- The state of a rank after `deserialize`: the state read, or the prior state if the archive
throws. -/
def Format.after (files : Files J) (prior : Fin q → format.State) (r : Fin q) : format.State :=
  ((format.deserialize files fname r).map Prod.fst).getD (prior r)

/-- A rank refuses the load if its archive throws.  A `comm_size` that differs from the number
of ranks is no refusal: `deserialize` prints a warning and returns. -/
def Format.Refuses (files : Files J) (r : Fin q) : Prop :=
  format.deserialize files fname r = none

end Resize

/-- **All or nothing**: either all `q` ranks load, and they hold what was saved with every key
on its owner; or a rank refuses the load, and all ranks hold what they did before. -/
def AllOrNothing (keyed : Keyed J K) (partitioner : ∀ n [NeZero n], Partitioner n K)
    (fname : List Char) {p q : ℕ} [NeZero p] [NeZero q] (saved : Fin p → keyed.State)
    (order : List (Fin p)) (prior : Fin q → keyed.State) : Prop :=
  let files := keyed.serializeAll fname saved order
  let after := keyed.after fname files prior
  ((∀ r : Fin q, (keyed.deserialize files fname r).isSome = true) ∧
    ∀ key, (∀ r, r ≠ (partitioner q).owner key → keyed.get (after r) key = []) ∧
      (keyed.get (after ((partitioner q).owner key)) key).Perm
        (keyed.get (saved ((partitioner p).owner key)) key)) ∨
  ((∃ r : Fin q, keyed.Refuses fname files r) ∧ ∀ r, keyed.Same (after r) (prior r))

/-! ## The files -/

section Files

variable {format : Format J} {fname : List Char} {p q : ℕ}

/-- The file of a rank that is not among the saving ranks stays as it is. -/
theorem Format.serialize_other (saved : Fin p → format.State) {order : List (Fin p)}
    {rank : ℕ} (other : ∀ r ∈ order, r.val ≠ rank) (files : Files J) :
    order.foldl (fun files (r : Fin p) => format.serialize files fname p r (saved r)) files
      (rankFile fname rank) = files (rankFile fname rank) := by
  induction order generalizing files with
  | nil => rfl
  | cons r rest ih =>
      rw [List.foldl_cons, ih fun r' hr' => other r' (List.mem_cons_of_mem _ hr')]
      refine Function.update_of_ne (fun same => ?_) _ _
      exact other r List.mem_cons_self (rankFile_rank same).symm

/-- The file of a saving rank holds what this rank has saved. -/
theorem Format.serialize_file (saved : Fin p → format.State) {order : List (Fin p)}
    {r : Fin p} (member : r ∈ order) (files : Files J) :
    order.foldl (fun files (r : Fin p) => format.serialize files fname p r (saved r)) files
      (rankFile fname r) = some (format.save (saved r) p) := by
  induction order generalizing files with
  | nil => cases member
  | cons r' rest ih =>
      rw [List.foldl_cons]
      by_cases again : r ∈ rest
      · exact ih again _
      · obtain rfl := (List.mem_cons.mp member).resolve_right again
        rw [serialize_other saved fun r' hr' same => again ((Fin.ext same : r' = r) ▸ hr')]
        exact Function.update_self _ _ _

variable (saved : Fin p → format.State) {order : List (Fin p)}

/-- A rank that has saved reads back, as the same contents, the state it has saved. -/
theorem Format.deserialize_low (every : ∀ r, r ∈ order) (r : Fin p) :
    ∃ state, format.deserialize (format.serializeAll fname saved order) fname r
      = some (state, (p : ℤ)) ∧ format.Same state (saved r) := by
  obtain ⟨state, loaded, same⟩ := format.round (saved r) p
  refine ⟨state, ?_, same⟩
  rw [deserialize, serializeAll, serialize_file saved (every r)]
  exact loaded

/-- A rank beyond those that have saved finds no file, so its archive throws. -/
theorem Format.deserialize_high {rank : ℕ} (high : p ≤ rank) :
    format.deserialize (format.serializeAll fname saved order) fname rank = none := by
  rw [deserialize, serializeAll, serialize_other saved fun r _ => Nat.ne_of_lt (Nat.lt_of_lt_of_le r.isLt high)]
  rfl

/-- All ranks load their files if and only if none of them is new. -/
theorem Format.loads_iff (every : ∀ r, r ∈ order) :
    (∀ r : Fin q, (format.deserialize (format.serializeAll fname saved order) fname r).isSome = true)
      ↔ q ≤ p := by
  constructor
  · intro loads
    by_contra more
    have high := loads ⟨p, Nat.lt_of_not_le more⟩
    rw [format.deserialize_high saved (Nat.le_refl p)] at high
    cases high
  · intro fewer r
    obtain ⟨state, loaded, -⟩ :=
      format.deserialize_low saved every ⟨r, Nat.lt_of_lt_of_le r.isLt fewer⟩
    rw [loaded]
    rfl

/-- A rank refuses the load if and only if there are new ranks, which find no file. -/
theorem Format.refuses_iff (every : ∀ r, r ∈ order) :
    (∃ r : Fin q, format.Refuses fname (format.serializeAll fname saved order) r) ↔ p < q := by
  rw [← not_iff_not, not_lt, ← format.loads_iff saved every, not_exists]
  exact forall_congr' fun r => Option.isSome_iff_ne_none.symm

/-- A rank that has saved holds the contents it has saved after the load. -/
theorem Format.after_low (every : ∀ r, r ∈ order) (prior : Fin q → format.State) {r : Fin q}
    (low : r.val < p) :
    format.Same (format.after fname (format.serializeAll fname saved order) prior r)
      (saved ⟨r, low⟩) := by
  obtain ⟨state, loaded, same⟩ := format.deserialize_low saved every ⟨r, low⟩
  rw [after, loaded]
  exact same

theorem Format.after_high (prior : Fin q → format.State) {r : Fin q} (high : p ≤ r.val) :
    format.after fname (format.serializeAll fname saved order) prior r = prior r := by
  rw [after, format.deserialize_high saved high]
  rfl

end Files

/-! ## When it is all or nothing -/

/-- Two states with the same contents store the same keys. -/
theorem Keyed.get_ne_nil (keyed : Keyed J K) {state state' : keyed.State} {key : K}
    (same : keyed.Same state state') (stored : keyed.get state key ≠ []) :
    keyed.get state' key ≠ [] := by
  intro none
  have perm := keyed.get_perm same key
  rw [none] at perm
  exact stored perm.eq_nil

section Keyed

variable {keyed : Keyed J K} {partitioner : ∀ n [NeZero n], Partitioner n K} {fname : List Char}
variable {p q : ℕ} [NeZero p] [NeZero q] {saved : Fin p → keyed.State} {order : List (Fin p)}
variable {prior : Fin q → keyed.State}

/-- **Loading with another number of ranks is all or nothing** exactly if no rank is new and
every saved key is owned by the rank it was saved on, or there are new ranks and every rank that
reads a file finds in it what it had. -/
theorem Keyed.all_or_nothing (every : ∀ r, r ∈ order)
    (placed : ∀ r key, keyed.get (saved r) key ≠ [] → (partitioner p).owner key = r) :
    AllOrNothing keyed partitioner fname saved order prior ↔
      (q ≤ p ∧ ∀ r key, keyed.get (saved r) key ≠ [] → ((partitioner q).owner key).val = r.val) ∨
      (p < q ∧ ∀ (r : Fin q) (low : r.val < p), keyed.Same (saved ⟨r, low⟩) (prior r)) := by
  have equiv := keyed.equivalence
  have reads : ∀ (r : Fin q) (low : r.val < p),
      keyed.Same (keyed.after fname (keyed.serializeAll fname saved order) prior r)
        (saved ⟨r, low⟩) := fun r low => keyed.after_low saved every prior low
  simp only [AllOrNothing, keyed.loads_iff saved every, keyed.refuses_iff saved every]
  refine or_congr (and_congr_right fun fewer => ?_) (and_congr_right fun more => ?_)
  · have low := fun r : Fin q => Nat.lt_of_lt_of_le r.isLt fewer
    constructor
    · intro right r key stored
      -- what is found on the new owner was read from the file of that rank
      have home := placed r key stored
      have found : keyed.get (keyed.after fname (keyed.serializeAll fname saved order) prior
          ((partitioner q).owner key)) key ≠ [] := by
        intro none
        have perm := (right key).2
        rw [none, home] at perm
        exact stored perm.symm.eq_nil
      have file := placed ⟨_, low _⟩ key (keyed.get_ne_nil (reads _ (low _)) found)
      rw [home] at file
      exact (congrArg Fin.val file).symm
    · refine fun owned key => ⟨fun r other => ?_, ?_⟩
      · by_contra stored
        have file := keyed.get_ne_nil (reads r (low r)) stored
        exact other (Fin.ext (owned _ key file).symm)
      · have perm := keyed.get_perm (reads _ (low ((partitioner q).owner key))) key
        refine perm.trans ?_
        by_cases stored : keyed.get (saved ((partitioner p).owner key)) key = []
        · by_cases file : keyed.get (saved ⟨_, low ((partitioner q).owner key)⟩) key = []
          · rw [stored, file]
          · rw [← placed _ key file]
        · have here : (⟨_, low ((partitioner q).owner key)⟩ : Fin p) = (partitioner p).owner key :=
            Fin.ext (owned _ key stored)
          rw [here]
  · constructor
    · exact fun unchanged r low => equiv.trans (equiv.symm (reads r low)) (unchanged r)
    · intro same r
      by_cases low : r.val < p
      · exact equiv.trans (reads r low) (same r low)
      · rw [keyed.after_high saved prior (Nat.le_of_not_lt low)]
        exact equiv.refl _

end Keyed

/-- A map of numbers with a single entry, or with none. -/
def singleEntry : Option (ℕ × ℕ) → MapImpl ℕ ℕ
  | none => ⟨0, .empty⟩
  | some e => ⟨0, Multimap.empty.insert e.1 e.2⟩

/-- Maps from numbers to numbers, as containers placed by key. -/
def numberMap : Keyed ℕ ℕ :=
  keyedMap natElement natElement (Loader.inserting ℕ ℕ)

def remainder (n : ℕ) [NeZero n] : Partitioner n ℕ :=
  hashPartitioner n UInt64.ofNat

end YGM
