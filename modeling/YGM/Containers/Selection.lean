import YGM.Comm.Wire
import YGM.Containers.Topk
import YGM.Reduce.AllReduce

/-!
# What `topk` returns

This file is `map_impl::topk` of `include/ygm/container/detail/map_impl.hpp` over the tree
reduction of `comm::impl::all_reduce`: the entries of the local map go one by one into a
sorted vector that is cut off behind `k`, and the vectors are merged, sorted and cut off
along the tree.  They travel as `cereal` writes a vector of pairs.

The cut-offs lose nothing, as an entry that is dropped has `k` others before it or level
with it (`Env.value_isTop`).  So in every run, on every rank, the result is one and the same
list of the first entries of all local maps together (`topk_selects`), which a strict total
order determines.

That holds as long as no vector packs to a gibibyte: then the assertion of `all_reduce`
throws (`topk_too_large`).
-/

namespace YGM

variable {n : ℕ} {ι K V A τ U : Type} [LinearOrder K]
variable {env : Env n ι K V A τ U} {cfn : K × V → K × V → Bool} {k : ℕ}

/-! ## The call -/

/-- A vector of entries, packed into bytes. -/
def packEntries (entry : Codec (K × V)) (entries : List (K × V)) : List UInt8 :=
  (Codec.word 8).encode (BitVec.ofNat 64 entries.length) ++ entries.flatMap entry.encode

/-- The vector of entries that was packed into these bytes. -/
def unpackEntries (entry : Codec (K × V)) (packed : List UInt8) : List (K × V) :=
  (entry.sized.decode (.ofData packed)).elim [] fun out => out.1.val

omit [LinearOrder K] in
theorem unpackEntries_packEntries (entry : Codec (K × V)) {entries : List (K × V)}
    (short : entries.length < 2 ^ 64) : unpackEntries entry (packEntries entry entries) = entries := by
  have ahead : (Reader.ofData (packEntries entry entries)).rest
      = entry.sized.encode ⟨entries, short⟩ ++ [] :=
    (List.append_nil _).symm
  obtain ⟨ar, read, -⟩ := entry.sized.reads ⟨entries, short⟩ _ _ ahead
  rw [unpackEntries, read]
  rfl

theorem Env.localTopk_length (sorts : Sorts cfn (env.sort cfn)) (entries : List (K × V)) :
    (env.localTopk k cfn entries).length ≤ k := by
  suffices loop : ∀ (rest top : List (K × V)), top.length ≤ k →
      (rest.foldl (fun top kv =>
        let sorted := env.sort cfn (top ++ [kv])
        if k < sorted.length then sorted.dropLast else sorted) top).length ≤ k from
    loop entries [] (Nat.zero_le k)
  intro rest
  induction rest with
  | nil => exact fun top short => short
  | cons kv rest ih =>
      intro top short
      have length : (env.sort cfn (top ++ [kv])).length = top.length + 1 := by
        rw [(sorts.perm _).length_eq, List.length_append, List.length_singleton]
      rw [List.foldl_cons]
      refine ih _ ?_
      dsimp only
      split
      · rw [List.length_dropLast, length]
        omega
      · omega

/-- **One call of `topk`**, made by all ranks on their local maps, as a call of the tree
reduction. -/
def Env.topkCall (env : Env n ι K V A τ U) (entry : Codec (K × V)) (k : BitVec 64)
    (cfn : K × V → K × V → Bool) (sorts : Sorts cfn (env.sort cfn)) (maps : Fin n → MapImpl K V) :
    Reduce.Call n (List (K × V)) where
  Is entries := entries.length < 2 ^ 64
  input r := env.localTopk k.toNat cfn (maps r).localMap.entries
  merge := env.mergeTopk k.toNat cfn
  pack := packEntries entry
  unpack := unpackEntries entry
  input_is _ := (env.localTopk_length sorts _).trans_lt k.isLt
  merge_is _ _ _ _ := (List.length_take_le _ _).trans_lt k.isLt
  unpack_pack _ short := unpackEntries_packEntries entry short

/-! ## Its value -/

section Value

variable [NeZero n] {entry : Codec (K × V)} {size : BitVec 64}
variable {sorts : Sorts cfn (env.sort cfn)} {maps : Fin n → MapImpl K V}

/-- The entries of all local maps together, as a multiset. -/
def globalEntries (maps : Fin n → MapImpl K V) : Multiset (K × V) :=
  ∑ r, ((maps r).localMap.entries : Multiset (K × V))

/-- **The root of the tree finds the first of all entries**, whatever rank they are on. -/
theorem Env.value_isTop (order : StrictWeak cfn) :
    IsTop cfn size.toNat (globalEntries maps)
      ((env.topkCall entry size cfn sorts maps).value 0) := by
  have root : 0 < n := Nat.pos_of_neZero n
  have own : ∀ r, r < n → IsTop cfn size.toNat
      ((maps (Fin.ofNat n r)).localMap.entries : Multiset (K × V))
      ((env.topkCall entry size cfn sorts maps).input (Fin.ofNat n r)) :=
    fun r _ => env.localTopk_isTop order sorts _
  have tree := env.merged_isTop order sorts own 0 root
  have total : ((leaves n 0).map fun r =>
      ((maps (Fin.ofNat n r)).localMap.entries : Multiset (K × V))).sum = globalEntries maps := by
    rw [leaves_zero root]
    show ∑ r ∈ Finset.range n, _ = _
    rw [Finset.sum_range, globalEntries]
    exact Finset.sum_congr rfl fun r _ => by rw [Fin.ofNat_val_eq_self]
  rw [total] at tree
  exact tree

/-- The reduction of the container program returns the list that the root of the tree finds. -/
theorem Env.combine_topk [DecidableEq ι] (id : Id ι) :
    (env.combine fun r => .topk id size.toNat cfn
        ((env.topkCall entry size cfn sorts maps).input r)).entries
      = (env.topkCall entry size cfn sorts maps).value 0 := by
  have root : 0 < n := Nat.pos_of_neZero n
  simp only [combine, root, dif_pos, Value.entries]
  refine merged_congr (fun r below => ?_) 0 root
  rw [dif_pos below]
  congr 1
  exact Fin.ext (Nat.mod_eq_of_lt below).symm

end Value

/-! ## Runs -/

/-- **The outcome of the `j`-th call of all ranks**, if it is a call of `topk` on these maps. -/
structure Selected [NeZero n] [DecidableEq ι] (env : Env n ι K V A τ U) (synchronous : Bool)
    (calls : List (Reduce.Call n (List (K × V)))) (j : ℕ) (cfn : K × V → K × V → Bool) (k : ℕ)
    (maps : Fin n → MapImpl K V) (c : Reduce.System n (List (K × V))) (top : List (K × V)) :
    Prop where
  /-- The list is in order, has `k` entries or all there are, and no other entry comes before
  one of them. -/
  first : IsTop cfn k (globalEntries maps) top
  /-- A rank that has returned from the call has returned this list. -/
  returned : ∀ r x, (c.node r).returned[j]? = some x → x = top
  /-- When no rank can make a step, every rank has returned this list. -/
  finished : (∀ r, Reduce.step synchronous calls r c = none) →
    ∀ r, (c.node r).returned[j]? = some top
  /-- The work done has a bound and grows with every step, so the ranks come to the end of their
  calls. -/
  bounded : c.work ≤ n * (10 * calls.length) ∧
    ∀ r c', Reduce.step synchronous calls r c = some c' → c.work < c'.work
  /-- If the order is total, the list is the front of the sorted entries. -/
  determined : (∀ a b, cfn a b = false → cfn b a = false → a = b) →
    ∀ sorted : List (K × V), (sorted : Multiset (K × V)) = globalEntries maps →
      sorted.Pairwise (fun a b => cfn b a = false) → top = sorted.take k
  /-- The container program gets the same list from its reduction. -/
  program : ∀ id : Id ι, (env.combine fun r =>
    .topk id k cfn (env.localTopk k cfn (maps r).localMap.entries)).entries = top

/-- **`topk` returns the first entries of the whole map on all ranks**, wherever the entries are
and in whatever order messages arrive, among any calls of which every packed message is small
enough for its assertion. -/
theorem topk_selects [NeZero n] [DecidableEq ι] {entry : Codec (K × V)} {size : BitVec 64}
    (order : StrictWeak cfn) (sorts : Sorts cfn (env.sort cfn)) {maps : Fin n → MapImpl K V}
    {synchronous : Bool} {calls : List (Reduce.Call n (List (K × V)))} (fits : Reduce.Fits calls)
    {j : ℕ} (here : calls[j]? = some (env.topkCall entry size cfn sorts maps))
    {c : Reduce.System n (List (K × V))} (h : (Reduce.reduction synchronous calls).Reachable c) :
    ∃ top, Selected env synchronous calls j cfn size.toNat maps c top := by
  have inStep := Reduce.inStep_of_reachable fits h
  have first : IsTop cfn size.toNat (globalEntries maps)
      ((env.topkCall entry size cfn sorts maps).value 0) := env.value_isTop order
  refine ⟨_, first, fun r x returned => ?_, fun stuck r => ?_,
    ⟨inStep.work_le, fun _ _ => Reduce.work_lt⟩, fun total sorted => first.eq_take total sorts,
    fun id => env.combine_topk id⟩
  · rw [(inStep.node r).returned, List.getElem?_map, List.getElem?_take] at returned
    split at returned
    · rw [here] at returned
      exact (Option.some.inj returned).symm
    · cases returned
  · rw [(inStep.finished (inStep.progress stuck) r).1, List.getElem?_map, here]
    rfl

/-! ## Strings -/

/-- A `std::string`, as fewer than `2 ^ 64` bytes. -/
abbrev CString : Type :=
  Sized (BitVec (8 * 1))

/-- A `bool`, stored in one byte. -/
def Codec.bool : Codec Bool :=
  (Codec.word 1).via (fun b => if b then 1 else 0) (· != 0) (by decide)

/-- The entries of a map from `bool` to `std::string`, the key stored before the string. -/
def stringEntry : Codec (Bool × CString) :=
  Codec.bool.pair (Codec.word 1).sized

/-- The order in which longer strings come first. -/
def longer : Bool × CString → Bool × CString → Bool :=
  decreasing fun kv => kv.2.val.length

/-- An environment for maps from `bool` to strings, whose user code does nothing. -/
def stringEnv (n : ℕ) [NeZero n] : Env n Unit Bool CString Unit Unit Unit where
  partitioner := hashPartitioner n fun key => if key then 1 else 0
  visitor _ := ⟨fun _ _ value => value, none⟩
  sort cfn := List.insertionSort fun a b => cfn b a = false
  next _ _ := .ret ()
  start _ u := u
  packedSize _ := 8
  offset_le _ := le_rfl

/-- A string of `size` bytes, all of them 1. -/
def stringOf (size : ℕ) (short : size < 2 ^ 64) : CString :=
  ⟨List.replicate size 1, by rwa [List.length_replicate]⟩

/-- A local map with one entry, a string of `size` bytes. -/
def oneString (key : Bool) (size : ℕ) (short : size < 2 ^ 64) : MapImpl Bool CString :=
  ⟨stringOf 0 (by decide), Multimap.empty.insert key (stringOf size short)⟩

/-- The local maps of three ranks, with one string each, of two, three and four bytes. -/
def threeStrings (r : Fin 3) : MapImpl Bool CString :=
  oneString (r = 1) (r + 2) (by omega)

/-- The call of `topk` that asks for the two longest of these strings. -/
def threeCall : Reduce.Call 3 (List (Bool × CString)) :=
  (stringEnv 3).topkCall stringEntry 2 longer (decreasing_sorts _) threeStrings

def threeState : Reduce.System 3 (List (Bool × CString)) :=
  (Reduce.reduction true [threeCall]).drive (fun _ _ => True) (Reduce.reduction true [threeCall]).init
    (List.replicate 20 [2, 0, 1]).flatten

/-- All three ranks get the two longest strings, the longer one first. -/
theorem topk_selects_strings :
    ((List.finRange 3).map fun r => (threeState.node r).returned.map fun top =>
        top.map fun kv => kv.2.val.length) = [[[4, 3]], [[4, 3]], [[4, 3]]] ∧
      ∃ top, Selected (stringEnv 3) true [threeCall] 0 longer 2 threeStrings threeState top := by
  have fits : Reduce.Fits [threeCall] := by
    intro call member
    obtain rfl : call = threeCall := by simpa using member
    decide +kernel
  have here : [threeCall][0]? = some ((stringEnv 3).topkCall stringEntry 2 longer
      (decreasing_sorts _) threeStrings) := rfl
  have reached : (Reduce.reduction true [threeCall]).Reachable threeState :=
    Machine.ReachableBy.init.drive _
  exact ⟨by decide +kernel,
    topk_selects (decreasing_order _) (decreasing_sorts _) fits here reached⟩

/-- The local map of a single rank, with a string of a gibibyte. -/
def hugeString (_ : Fin 1) : MapImpl Bool CString :=
  oneString true Reduce.gibibyte (by decide)

def hugeCall : Reduce.Call 1 (List (Bool × CString)) :=
  (stringEnv 1).topkCall stringEntry 1 longer (decreasing_sorts _) hugeString

/-- A reachable state in which the rank has come to the broadcast of its string. -/
def hugeTop : Reduce.System 1 (List (Bool × CString)) :=
  (Reduce.reduction false [hugeCall]).drive (fun _ _ => True)
    (Reduce.reduction false [hugeCall]).init [0, 0, 0]

/-- A packed vector of one entry has at least as many bytes as the string in the entry. -/
theorem packEntries_one (key : Bool) (value : CString) :
    value.val.length ≤ (packEntries stringEntry [(key, value)]).length := by
  have bytes : ∀ bits : List (BitVec (8 * 1)),
      (bits.flatMap (Codec.word 1).encode).length = bits.length := by
    intro bits
    simp [List.length_flatMap]
  simp only [packEntries, stringEntry, Codec.pair, Codec.sized, Codec.collection,
    List.length_append, List.flatMap_cons, List.flatMap_nil, bytes]
  omega

/-- **A string of a gibibyte is too large** for `topk`, even on a single rank: the assertion of
the broadcast throws, and the call returns nothing. -/
theorem topk_too_large :
    ∃ c : Reduce.System 1 (List (Bool × CString)),
      (Reduce.reduction false [hugeCall]).Reachable c ∧ (c.node 0).stage = .thrown ∧
      (∀ r, Reduce.step false [hugeCall] r c = none) ∧ (c.node 0).returned = [] ∧
      ¬ ∃ top, Selected (stringEnv 1) false [hugeCall] 0 longer 1 hugeString c top := by
  have reached : (Reduce.reduction false [hugeCall]).Reachable hugeTop :=
    Machine.ReachableBy.init.drive _
  have stage : (hugeTop.node 0).stage = .bcastSize := rfl
  have tmp : (hugeTop.node 0).tmp = [(true, stringOf Reduce.gibibyte (by decide))] := rfl
  have calls : (hugeTop.node 0).calls = 0 := rfl
  have returned : (hugeTop.node 0).returned = [] := rfl
  have large : ¬ (hugeCall.pack (hugeTop.node 0).tmp).length < Reduce.gibibyte := by
    have long := packEntries_one true (stringOf Reduce.gibibyte (by decide))
    rw [tmp]
    simp only [stringOf, List.length_replicate] at long
    exact Nat.not_lt.mpr long
  have throws : (Reduce.reduction false [hugeCall]).step hugeTop 0 = some { hugeTop with
      node := Function.update hugeTop.node 0 { hugeTop.node 0 with stage := .thrown } } := by
    simp [Reduce.reduction, Reduce.step, stage, calls, large]
  have stuck : ∀ r, Reduce.step false [hugeCall] r { hugeTop with
      node := Function.update hugeTop.node 0 { hugeTop.node 0 with stage := .thrown } } = none := by
    intro r
    obtain rfl : r = 0 := Subsingleton.elim _ _
    simp [Reduce.step, calls]
  refine ⟨_, reached.step throws, by simp, stuck, by simp [returned], ?_⟩
  rintro ⟨top, selected⟩
  have result := selected.finished stuck 0
  simp [returned] at result

end YGM
