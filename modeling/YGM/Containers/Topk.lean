import YGM.Containers.Epochs
import YGM.Library.Top
import Mathlib.Data.List.Sort

/-!
# `topk`

`topk` is a reduction and nothing else: every rank contributes the first entries of its
own part of the map, and these are merged along the tree.  It returns the first entries
of the parts *as they were contributed*; there is no barrier before, as there is in
`size`, `count` and `for_all`, so an operation that is still on its way is missing.

When the last rank contributes, all others stand still (`exists_moment`), so what is
returned are the first entries of the whole map in that state.  If no operation on the map
is pending in it, it has seen every one that was issued before (`topk_sees`); if one
is, its entry is missing (`topk_misses`).
-/

namespace YGM

variable {n : ℕ} {ι K V A τ U : Type} [LinearOrder K]
variable {env : Env n ι K V A τ U} {cfg : Config}

/-! ## The merge -/

section Merge

variable {cfn : K × V → K × V → Bool} {k : ℕ}

/-- **The loop of `topk` over the local map** keeps the first `k` of the entries it has seen. -/
theorem Env.localTopk_isTop (order : StrictWeak cfn) (sorts : Sorts cfn (env.sort cfn))
    (entries : List (K × V)) : IsTop cfn k entries (env.localTopk k cfn entries) := by
  suffices loop : ∀ (rest seen top : List (K × V)), IsTop cfn k (seen : Multiset (K × V)) top →
      IsTop cfn k (seen ++ rest : List (K × V)) (rest.foldl (fun top kv =>
        let sorted := env.sort cfn (top ++ [kv])
        if k < sorted.length then sorted.dropLast else sorted) top) by
    refine loop entries [] [] ⟨.nil, by simp, 0, by simp, by simp⟩
  intro rest
  induction rest with
  | nil => exact fun seen top h => by simpa using h
  | cons kv rest ih =>
      intro seen top h
      have merge := h.retains.merge order sorts (Retains.refl (([kv] : List (K × V)) : Multiset (K × V)))
      have short : (env.sort cfn (top ++ [kv])).length ≤ k + 1 := by
        have := h.length
        rw [(sorts.perm _).length_eq, List.length_append, List.length_singleton]
        omega
      have dropped : (if k < (env.sort cfn (top ++ [kv])).length
          then (env.sort cfn (top ++ [kv])).dropLast else env.sort cfn (top ++ [kv]))
          = (env.sort cfn (top ++ [kv])).take k := by
        split
        · rw [List.dropLast_eq_take]
          congr 1
          omega
        · rw [List.take_of_length_le]
          omega
      have next := ih (seen ++ [kv]) _ (by simpa only [Multiset.coe_add] using merge)
      rw [List.append_assoc, List.singleton_append] at next
      rw [List.foldl_cons]
      simpa only [dropped] using next

/-- **The tree merge of `topk`**: a rank holds the first `k` of all entries that the ranks below
it in the tree have contributed. -/
theorem Env.merged_isTop (order : StrictWeak cfn) (sorts : Sorts cfn (env.sort cfn))
    {tops : ℕ → List (K × V)} {parts : ℕ → Multiset (K × V)}
    (own : ∀ r, r < n → IsTop cfn k (parts r) (tops r)) (r : ℕ) (below : r < n) :
    IsTop cfn k ((leaves n r).map parts).sum (merged (env.mergeTopk k cfn) n tops r) := by
  induction r using tree_induction n with
  | node r first second =>
      have child : ∀ (c : ℕ) (all : Multiset (K × V)) (top : List (K × V)),
          (c < n → c < n → IsTop cfn k ((leaves n c).map parts).sum
            (merged (env.mergeTopk k cfn) n tops c)) →
          IsTop cfn k all top →
          IsTop cfn k (all + if c < n then ((leaves n c).map parts).sum else 0)
            (mergeChild (env.mergeTopk k cfn) n (merged (env.mergeTopk k cfn) n tops) top c) := by
        intro c all top subtree h
        by_cases hc : c < n
        · simp only [hc, if_true, mergeChild]
          exact h.retains.merge order sorts (subtree hc hc).retains
        · simpa [hc, mergeChild] using h
      have both := child (secondChild r) _ _ second
        (child (firstChild r) _ _ first (own r below))
      rw [merged_eq, leaves_eq]
      have parts_eq : ∀ c, ((if c < n then leaves n c else 0).map parts).sum
          = if c < n then ((leaves n c).map parts).sum else 0 := by
        intro c
        split <;> simp
      simpa only [Multiset.map_add, Multiset.sum_add, Multiset.map_singleton,
        Multiset.sum_singleton, parts_eq] using both

/-- **The reduction of `topk`** returns the first `k` of the entries of all ranks, if each rank
contributes the first `k` of its own. -/
theorem Env.combine_isTop [DecidableEq ι] (order : StrictWeak cfn)
    (sorts : Sorts cfn (env.sort cfn)) {id : Id ι} {tops : Fin n → List (K × V)}
    {parts : Fin n → Multiset (K × V)} (r : Fin n)
    (own : ∀ i, IsTop cfn k (parts i) (tops i)) :
    IsTop cfn k (∑ i, parts i) (env.combine fun i => .topk id k cfn (tops i)).entries := by
  have root : 0 < n := r.pos
  have each : ∀ i, i < n → IsTop cfn k (if hi : i < n then parts ⟨i, hi⟩ else 0)
      (if hi : i < n then tops ⟨i, hi⟩ else []) := fun i hi => by
    simpa [hi] using own ⟨i, hi⟩
  have tree := env.merged_isTop order sorts each 0 root
  have total : ((leaves n 0).map fun i => if hi : i < n then parts ⟨i, hi⟩ else 0).sum
      = ∑ i, parts i := by
    rw [leaves_zero root]
    change ∑ i ∈ Finset.range n, _ = _
    rw [Finset.sum_range]
    simp
  rw [total] at tree
  simpa only [combine, root, dif_pos, Value.entries] using tree

end Merge

/-! ## What every rank contributes -/

variable [DecidableEq ι]

/-- A command of the user's code that reduces entries is a call of `topk`, and the entries are
the local top `k` of its map. -/
theorem Env.command_topk {mem : Mem n ι K V A τ} (wrap : U → Code n ι K V A τ U)
    {ret : Mem n ι K V A τ → Cmd n (Payload ι K V A U) (Mem n ι K V A τ) (Value ι K V)
      (Code n ι K V A τ U)} (rets : ∀ mem value next, ret mem ≠ .allReduce value next)
    {call : Call n ι K V A τ U} {id : Id ι} {k : ℕ} {cfn : K × V → K × V → Bool}
    {top : List (K × V)} {next : Value ι K V → Code n ι K V A τ U}
    (cmd : env.command mem wrap ret call = .allReduce (.topk id k cfn top) next) :
    top = env.localTopk k cfn (mem.maps id).localMap.entries ∧
      ∃ next, call = .topk id k cfn next := by
  cases call with
  | ret user => exact absurd cmd (rets _ _ _)
  | topk id' k' cfn' next' =>
      simp only [Env.command, Cmd.allReduce.injEq, Value.topk.injEq] at cmd
      obtain ⟨⟨rfl, rfl, rfl, rfl⟩, -⟩ := cmd
      exact ⟨rfl, next', rfl⟩
  | _ => simp [Env.command] at cmd

/-- A contribution of entries to a reduction comes from a call of `topk` in the user's code, and
consists of the local top `k` of its map. -/
theorem Env.topk_entries {code : Code n ι K V A τ U} {mem : Mem n ι K V A τ} {id : Id ι} {k : ℕ}
    {cfn : K × V → K × V → Bool} {top : List (K × V)} {next : Value ι K V → Code n ι K V A τ U}
    (cmd : env.program.next code mem = .allReduce (.topk id k cfn top) next) :
    top = env.localTopk k cfn (mem.maps id).localMap.entries ∧
      ∃ u next, env.next u mem = .topk id k cfn next := by
  cases code with
  | user u => exact (env.command_topk .user (by simp) cmd).imp_right fun call => ⟨u, call⟩
  | visiting u src id' key a pos =>
      simp only [program] at cmd
      exact (env.command_topk _ (by simp) cmd).imp_right fun call => ⟨u, call⟩
  | serve src o =>
      simp only [program, serve] at cmd
      repeat' split at cmd
      all_goals cases cmd
  | entry src id' key a pos =>
      simp only [program, visitEntry] at cmd
      repeat' split at cmd
      all_goals cases cmd
  | issue dest o k' => cases cmd
  | step step k' =>
      simp only [program] at cmd
      split at cmd <;> cases cmd

/-! ## Pending operations -/

/-- Whether the call carries an operation on the map `id`. -/
def Payload.onMap (id : Id ι) : Payload ι K V A U → Bool
  | .op (.mapInsertUnique i _ _) | .op (.mapInsertMulti i _ _) | .op (.mapVisit i _ _)
  | .op (.mapVisitIfExists i _ _) | .op (.mapErase i _) => decide (i = id)
  | _ => false

/-- The map whose first entries the main program of the rank is about to contribute to a `topk`,
if there is one. -/
def Env.topkAt (env : Env n ι K V A τ U)
    (s : Rank n (Payload ι K V A U) (Mem n ι K V A τ) (Value ι K V) (Code n ι K V A τ U)) :
    Option (Id ι) :=
  if s.pc.isUser && s.stack.isEmpty then
    match env.program.next s.code s.mem with
    | .allReduce (.topk id _ _ _) _ => some id
    | _ => none
  else none

/-- **The last rank to contribute to a `topk` finds the map settled**: no operation on the map
is pending on any rank. -/
def Env.Settled (env : Env n ι K V A τ U) (c : Tables n ι K V A τ U) : Action n → Prop
  | .main r _ => ∀ id ∈ env.topkAt (c.rank r),
      (∀ i, i ≠ r → (c.rank r).otherPosts.length < (c.rank i).otherPosts.length) →
        ∀ m ∈ c.pending, m.payload.onMap id = false
  | .listen _ _ => True

instance (env : Env n ι K V A τ U) (c : Tables n ι K V A τ U) :
    ∀ a, Decidable (env.Settled c a)
  | .main r _ => inferInstanceAs (Decidable (∀ id ∈ env.topkAt (c.rank r), _))
  | .listen _ _ => inferInstanceAs (Decidable True)

/-- The entries of a map on all ranks together, as a multiset. -/
def Sys.contents (c : Tables n ι K V A τ U) (id : Id ι) : Multiset (K × V) :=
  ∑ i, (((c.rank i).mem.maps id).localMap.entries : Multiset (K × V))

section Runs

variable {start : Fin n → Mem n ι K V A τ} {main : Fin n → U}

/-- **`topk` sees every earlier operation**, in runs in which the last contribution to a
`topk` finds the map settled.  There is a state in which all ranks are in this call of
`topk`, every operation issued on the map has been executed, and the first entries of the
whole map are what `topk` returns on every rank. -/
theorem topk_sees {c : Tables n ι K V A τ U}
    (h : (comm cfg env.program start fun r => .user (main r)).ReachableBy env.Settled c)
    {id : Id ι} {k j : ℕ} {cfn : K × V → K × V → Bool} (order : StrictWeak cfn)
    (sorts : Sorts cfn (env.sort cfn))
    (called : ∀ i, ∃ top, (c.rank i).otherPosts[j]? = some (.topk id k cfn top)) {r : Fin n}
    (waits : (c.rank r).otherPosts.length = j + 1) {result : Value ι K V}
    (returned : c.reduced env.program r = some result) :
    ∃ d, (comm cfg env.program start fun r => .user (main r)).Reachable d ∧
      (comm cfg env.program start fun r => .user (main r)).Leads d c ∧
      (∀ i, (d.rank i).otherPosts.length = j + 1 ∧ ∃ next, (d.rank i).pc = .reduce next) ∧
      (∀ m ∈ d.pending, m.payload.onMap id = false) ∧
      IsTop cfn k (d.contents id) result.entries := by
  have posted : ∀ i, j < (c.rank i).otherPosts.length := by
    intro i
    obtain ⟨top, at_j⟩ := called i
    exact (List.getElem?_eq_some_iff.mp at_j).1
  obtain ⟨r', flag, b, d, reached, settled, taken, leads, moment⟩ :=
    exists_moment h r.pos posted
  have reached' : (comm cfg env.program start fun r => .user (main r)).Reachable d :=
    reached.reachable.step (a := .main r' flag) taken
  -- what a rank contributes is what it has in `d`
  have tops : ∀ i, (c.rank i).otherPosts.get ⟨j, posted i⟩
      = .topk id k cfn (env.localTopk k cfn ((d.rank i).mem.maps id).localMap.entries) ∧
      (d.rank i).otherPosts[j]? = some
        (.topk id k cfn (env.localTopk k cfn ((d.rank i).mem.maps id).localMap.entries)) := by
    intro i
    obtain ⟨top, at_j⟩ := called i
    obtain ⟨length, next, pc⟩ := moment.inside i
    obtain ⟨-, value, last, cmd⟩ := (inTurn_of_reachable reached').entered i next pc
    rw [List.getLast?_eq_getElem?, length, Nat.add_sub_cancel] at last
    have same := (leads_otherPosts leads i).getElem (i := j) (by omega)
    obtain ⟨lt, at_j⟩ := List.getElem?_eq_some_iff.mp at_j
    obtain ⟨lt', last⟩ := List.getElem?_eq_some_iff.mp last
    rw [last, at_j] at same
    subst same
    have entries := (env.topk_entries cmd).1
    subst entries
    exact ⟨at_j, List.getElem?_eq_some_iff.mpr ⟨lt', last⟩⟩
  refine ⟨d, reached', leads, moment.inside, ?_, ?_⟩
  · rw [moment.pending]
    obtain ⟨pc, stack, value, next, cmd, rfl⟩ := moment.enters
    refine settled id ?_ moment.last
    have length := (moment.inside r').1
    have mine := (tops r').2
    simp only [Function.update_self, List.length_append, List.length_singleton,
      Nat.add_right_cancel_iff] at length mine
    rw [List.getElem?_append_right (by omega), length, Nat.sub_self] at mine
    simp only [List.getElem?_cons_zero, Option.some.injEq] at mine
    simp [Env.topkAt, pc, stack, cmd, mine, Pc.isUser]
  · simp only [Sys.reduced, waits, Nat.add_sub_cancel, posted, implies_true, dif_pos,
      Option.some.injEq] at returned
    rw [← returned]
    simp only [(tops _).1]
    exact env.combine_isTop order sorts r fun i => env.localTopk_isTop order sorts _

end Runs

/-! ## Two ranks -/

/-- The order in which entries with larger values come first. -/
def largerValue (a b : ℕ × ℕ) : Bool :=
  decide (b.2 < a.2)

theorem largerValue_order : StrictWeak largerValue :=
  decreasing_order Prod.snd

theorem largerValue_sorts :
    Sorts largerValue (List.insertionSort fun a b => largerValue b a = false) :=
  decreasing_sorts Prod.snd

/-- A program of two ranks: rank 0 inserts an entry that rank 1 owns, and both ask for the entry
with the largest value, after a barrier if `settle` is set. -/
def topkCalls (settle : Bool) (u : ℕ) (mem : Mem 2 Unit ℕ ℕ ℕ Unit) : Call 2 Unit ℕ ℕ ℕ Unit ℕ :=
  match mem.self, u with
  | 0, 0 => .mapInsert ⟨false, ()⟩ 1 5 1
  | _, 0 => .compute () 1
  | _, 1 => if settle then .barrier 2 else .compute () 2
  | _, 2 => .topk ⟨false, ()⟩ 1 largerValue fun _ => 3
  | _, 3 => .barrier 4
  | _, _ => .ret ()

def topkEnv (settle : Bool) : Env 2 Unit ℕ ℕ ℕ Unit ℕ :=
  { tableEnv with
    sort := fun cfn => List.insertionSort fun a b => cfn b a = false
    next := topkCalls settle
    offset_le := tableEnv_offset }

def topkComm (settle : Bool) : Machine (Tables 2 Unit ℕ ℕ ℕ Unit ℕ) (Action 2) :=
  comm ⟨16, false⟩ (topkEnv settle).program tableStart fun _ => .user 0

def Value.isTopk : Value ι K V → Bool
  | .topk .. => true
  | .count _ => false

/-- The first reduction of the program is this call of `topk` on both ranks. -/
theorem topkCalls_posts {settle : Bool} {c : Tables 2 Unit ℕ ℕ ℕ Unit ℕ}
    (h : (topkComm settle).Reachable c)
    (posts : ∀ i, ((c.rank i).otherPosts[0]?.map Value.isTopk) = some true) (i : Fin 2) :
    ∃ top, (c.rank i).otherPosts[0]? = some (.topk ⟨false, ()⟩ 1 largerValue top) := by
  obtain ⟨value, found, topk⟩ := Option.map_eq_some_iff.mp (posts i)
  cases value with
  | count value => cases topk
  | topk id k cfn top =>
      have same := otherPosts_of_reachable
        (fun value => ∀ id k cfn top, value = .topk id k cfn top →
          id = ⟨false, ()⟩ ∧ k = 1 ∧ cfn = largerValue) ?_ h i _
        (List.mem_of_getElem? found) _ _ _ _ rfl
      · obtain ⟨rfl, rfl, rfl⟩ := same
        exact ⟨top, found⟩
      · rintro code mem value next cmd id k cfn top rfl
        obtain ⟨-, u, next', call⟩ := (topkEnv settle).topk_entries cmd
        simp only [topkEnv, topkCalls] at call
        repeat' split at call
        all_goals cases call
        exact ⟨rfl, rfl, rfl⟩

/-- A state of the program with the barrier, in which both ranks have contributed and rank 0 has
not returned from `topk`. -/
def topkSettled : Tables 2 Unit ℕ ℕ ℕ Unit ℕ :=
  (topkComm true).drive (topkEnv true).Settled (topkComm true).init
    (List.replicate 5 (mains 0 9 ++ mains 1 9 ++
      [.listen 1 0, .listen 1 0, .listen 0 1, .listen 0 1])).flatten

/-- With the barrier, rank 0 gets the entry it has inserted. -/
theorem topk_sees_barrier :
    ∃ result d, topkSettled.reduced (topkEnv true).program 0 = some result ∧
      result.entries = [(1, 5)] ∧ (topkComm true).Leads d topkSettled ∧
      IsTop largerValue 1 (d.contents ⟨false, ()⟩) result.entries := by
  have reached : (topkComm true).ReachableBy (topkEnv true).Settled topkSettled :=
    Machine.ReachableBy.init.drive _
  have completed : (topkSettled.reduced (topkEnv true).program 0).map Value.entries
      = some [(1, 5)] := by decide +kernel
  obtain ⟨result, returned, entries⟩ := Option.map_eq_some_iff.mp completed
  obtain ⟨d, -, leads, -, -, top⟩ := topk_sees reached largerValue_order largerValue_sorts
    (topkCalls_posts reached.reachable (by decide +kernel)) (by decide +kernel) returned
  exact ⟨result, d, returned, entries, leads, top⟩

/-- A state of the program without the barrier, in which both ranks have contributed and the
insert is in the send buffer of rank 0. -/
def topkUnsettled : Tables 2 Unit ℕ ℕ ℕ Unit ℕ :=
  (topkComm false).drive (fun _ _ => True) (topkComm false).init (mains 0 12 ++ mains 1 12)

/-- A later state of the program without the barrier, in which the insert has been executed. -/
def topkExecuted : Tables 2 Unit ℕ ℕ ℕ Unit ℕ :=
  (topkComm false).drive (fun _ _ => True) topkUnsettled
    (List.replicate 3 (mains 0 11 ++ mains 1 11 ++
      [.listen 1 0, .listen 1 0, .listen 0 1, .listen 0 1])).flatten

/-- **`topk` misses pending operations.** Rank 0 issues an insert and calls `topk`, rank 1 calls
`topk`, and the call returns nothing.  When the insert has been executed, and nothing else has
been issued, the map has an entry. -/
theorem topk_misses :
    ∃ c d result, (topkComm false).Reachable c ∧
      (∀ i, ∃ top, (c.rank i).otherPosts[0]? = some (.topk ⟨false, ()⟩ 1 largerValue top)) ∧
      (∀ r, c.reduced (topkEnv false).program r = some result) ∧
      (topkComm false).Leads c d ∧ d.pending = 0 ∧
      (∀ i, (d.rank i).issued.length = (c.rank i).issued.length ∧
        (d.rank i).otherPosts.length = (c.rank i).otherPosts.length) ∧
      ¬ IsTop largerValue 1 (d.contents ⟨false, ()⟩) result.entries := by
  have reached : (topkComm false).Reachable topkUnsettled := Machine.ReachableBy.init.drive _
  have completed : (topkUnsettled.reduced (topkEnv false).program 0).map Value.entries
      = some [] := by decide +kernel
  have waits : ∀ i, (topkUnsettled.rank i).otherPosts.length = 1 := by decide +kernel
  obtain ⟨result, returned, entries⟩ := Option.map_eq_some_iff.mp completed
  refine ⟨topkUnsettled, topkExecuted, result, reached,
    topkCalls_posts reached (by decide +kernel), fun r => ?_, Machine.Leads.drive .refl _,
    Multiset.card_eq_zero.mp (by decide +kernel), by decide +kernel, fun top => ?_⟩
  · simpa only [Sys.reduced, waits] using returned
  · have length := top.length
    rw [entries] at length
    have full : (topkExecuted.contents ⟨false, ()⟩).card = 1 := by decide +kernel
    rw [full] at length
    simp at length

end YGM
