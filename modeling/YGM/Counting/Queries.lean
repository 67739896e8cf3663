import YGM.Counting.Snapshot

/-!
# What the queries of a counting set see

At the end of the barrier of a query the ranks hold, each for the keys it owns, how often
they were inserted (`Env.exact`), if no insert was late and no flush was disturbed.  A rank
that reads its map reads this, and what is summed up over the ranks are the values of this
one state (`queries_account`).

An insert that a handler makes while its rank is in the barrier stays in the cache, and the
query does not see it (`insert_missed`).
-/

namespace YGM.Counting

open scoped BigOperators

variable {n : ℕ} {K τ U : Type} [LinearOrder K]

/-! ## Exact counts -/

/-- The keys of all calls of `async_insert` that have returned on any rank. -/
def insertedKeys (c : CountSys n K τ U) : Finset K :=
  Finset.univ.biUnion fun r => (c.rank r).mem.inserted.toFinset

/-- The inserted keys that a rank owns. -/
def Env.ownKeys (env : Env n K τ U) (c : CountSys n K τ U) (r : Fin n) : Finset K :=
  (insertedKeys c).filter fun key => env.partitioner.owner key = r

/-- **The exact entries of a rank**: the inserted keys it owns, in order, each with the number
of its inserts as a `size_t`. -/
def Env.exact (env : Env n K τ U) (c : CountSys n K τ U) (r : Fin n) : List (K × ℕ) :=
  (env.ownKeys c r).sort.map fun key => (key, sizeT (insertions c key))

section Exact

variable {env : Env n K τ U} {c : CountSys n K τ U}

theorem mem_insertedKeys {key : K} : key ∈ insertedKeys c ↔ 0 < insertions c key := by
  simp [insertedKeys, insertions, Finset.sum_pos_iff, List.count_pos_iff]

/-- The numbers of inserts of all inserted keys add up to the number of calls that have
returned. -/
theorem sum_insertions : ∑ key ∈ insertedKeys c, insertions c key
    = ∑ r, (c.rank r).mem.inserted.length := by
  simp only [insertions]
  rw [Finset.sum_comm]
  refine Finset.sum_congr rfl fun r _ => ?_
  have among : ∀ key ∈ ((c.rank r).mem.inserted : Multiset K), key ∈ insertedKeys c := by
    intro key hkey
    exact Finset.mem_biUnion.mpr ⟨r, Finset.mem_univ r, by simpa using hkey⟩
  simpa using Multiset.sum_count_eq_card among

theorem sizeT_natCast (m : ℕ) : sizeT m = m % 2 ^ 64 := by
  simp only [sizeT]
  omega

theorem sizeT_of_lt {m : ℕ} (few : m < 2 ^ 64) : sizeT m = m := by
  rw [sizeT_natCast, Nat.mod_eq_of_lt few]

@[simp] theorem sizeT_zero : sizeT 0 = 0 :=
  rfl

@[simp] theorem sizeT_sizeT (x : ℤ) : sizeT (sizeT x) = sizeT x := by
  simp only [sizeT]
  omega

/-- A sum of `size_t` values wraps around to the same value as the sum of the numbers
themselves. -/
theorem sizeT_sum {ι : Type} (s : Finset ι) (f : ι → ℕ) :
    sizeT ((∑ i ∈ s, sizeT (f i) : ℕ) : ℤ) = sizeT ((∑ i ∈ s, f i : ℕ) : ℤ) := by
  simp only [sizeT_natCast]
  rw [Finset.sum_nat_mod s (2 ^ 64) f]

/-- The reduction of the program is the sum of the contributed numbers, as a `size_t`. -/
theorem Env.combine_eq [Inhabited K] (env : Env n K τ U) (values : Fin n → ℕ) :
    env.program.combine values = sizeT ((∑ r, values r : ℕ) : ℤ) := by
  simp [program, Fin.sum_univ_def]

theorem Env.sum_exact (r : Fin n) : ((env.exact c r).map Prod.snd).sum
    = ∑ key ∈ env.ownKeys c r, sizeT (insertions c key) := by
  rw [exact, List.map_map, Finset.sum, ← Finset.sort_eq (env.ownKeys c r) (· ≤ ·)]
  rfl

/-- **The exact counts of all ranks add up** to the number of calls that have returned, as a
`size_t`. -/
theorem Env.total_exact [Inhabited K] :
    env.program.combine (fun r => sizeT (((env.exact c r).map Prod.snd).sum : ℕ))
      = sizeT ((∑ r, (c.rank r).mem.inserted.length : ℕ) : ℤ) := by
  simp only [combine_eq, sum_exact, sizeT_sum]
  rw [← sum_insertions]
  congr 2
  exact Finset.sum_fiberwise_of_maps_to (fun _ _ => Finset.mem_univ _) (insertions c)

/-- **The numbers of exact entries of all ranks add up** to the number of inserted keys, as a
`size_t`. -/
theorem Env.size_exact [Inhabited K] : env.program.combine (fun r => (env.exact c r).length)
    = sizeT ((insertedKeys c).card : ℤ) := by
  simp only [combine_eq, exact, List.length_map, Finset.length_sort]
  congr 2
  exact (Finset.card_eq_sum_card_fiberwise fun _ _ => Finset.mem_coe.mpr (Finset.mem_univ _)).symm

end Exact

/-! ## At the meeting of a query -/

section Meeting

variable [Inhabited K] {env : Env n K τ U} {cfg : Config} {start : Fin n → Mem K τ}
variable {main : Fin n → U} {d : CountSys n K τ U}

omit [Inhabited K] in
/-- A map that stores the number of inserts for each key it owns has the exact entries. -/
theorem Env.entries_eq {m : MapImpl K ℕ} {r : Fin n} (stored : ∀ key, m.localGet key
      = if env.partitioner.owner key = r ∧ 0 < insertions d key then [sizeT (insertions d key)]
        else []) : m.localMap.entries = env.exact d r := by
  refine Multimap.entries_eq fun key => ?_
  have here := stored key
  rw [MapImpl.localGet] at here
  rw [here]
  simp only [ownKeys, Finset.mem_filter, mem_insertedKeys, and_comm]

/-- If the owner of a key stores the number of its inserts and no other rank stores the key, the
reduction of `count` is this number. -/
theorem Env.combine_count (key : K) {values : Fin n → ℕ}
    (stored : ∀ r, values r = sizeT
      ((if env.partitioner.owner key = r ∧ 0 < insertions d key then [sizeT (insertions d key)]
        else []).sum : ℕ)) :
    env.program.combine values = sizeT (insertions d key) := by
  have one : ∀ r, values r
      = if env.partitioner.owner key = r then sizeT (insertions d key) else 0 := by
    intro r
    rw [stored r]
    by_cases owner : env.partitioner.owner key = r
    · by_cases counted : 0 < insertions d key
      · simp [owner, counted]
      · simp [owner, Nat.eq_zero_of_not_pos counted]
    · simp [owner]
  rw [combine_eq, Finset.sum_congr rfl fun r _ => one r, Finset.sum_ite_eq]
  simp

/-- **What queries see**, in runs in which no flush is disturbed and no insert is late: when
all ranks are at the end of the barrier of a query, everything issued before has been
executed, and every call of `async_insert` is counted exactly once by what the queries read.
The results are those of `size_t`. -/
theorem queries_account (new : ∀ r, (start r).New) {e : ℕ} (meeting : Meeting d e)
    (reached : (comm cfg env.program start fun r => .user (main r)).ReachableBy
      (fun c a => env.Undisturbed c a ∧ env.Timely c a) d)
    (queries : ∀ r, ∃ q, (d.rank r).code = .read q) :
    d.issued = d.executed ∧
    -- `for_all` and `serialize` read the exact entries
    (∀ r, (d.rank r).mem.map.localMap.entries = env.exact d r) ∧
    (∀ c r q, (comm cfg env.program start fun r => .user (main r)).Leads d c →
      (c.rank r).pc = .user → (c.rank r).code = .read q → (c.rank r).epoch = e + 1 →
      (d.rank r).code = .read q ∧ (c.rank r).mem = (d.rank r).mem) ∧
    -- the reductions of `count`, `count_all` and `size`
    (∀ c r turn result, (comm cfg env.program start fun r => .user (main r)).Leads d c →
      (∀ i, (d.rank i).otherPosts.length = turn) → (c.rank r).otherPosts.length = turn + 1 →
      c.reduced env.program r = some result →
      (∀ key, (∀ i, ∃ k, (d.rank i).code = .read (.count key k)) →
        result = sizeT (insertions d key) ∧
          (insertions d key < 2 ^ 64 → result = insertions d key)) ∧
      ((∀ i, ∃ k, (d.rank i).code = .read (.countAll k)) →
        result = sizeT ((∑ i, (d.rank i).mem.inserted.length : ℕ) : ℤ)) ∧
      ((∀ i, ∃ k, (d.rank i).code = .read (.size k)) →
        result = sizeT ((insertedKeys d).card : ℤ))) ∧
    -- what `all_gather` returns
    (∀ c (keys : Fin n → List K) (k : Fin n → List (K × ℕ) → U) r preturn k',
      (comm cfg env.program start fun r => .user (main r)).Leads d c →
      (∀ i, (d.rank i).code = .read (.allGather (keys i) (k i))) →
      (c.rank r).pc = .user → (c.rank r).code = .gathered preturn k' →
      (c.rank r).epoch = e + 2 → k' = k r ∧ ∀ key, ((c.rank r).mem.output preturn).get key
        = if key ∈ keys r ∧ 0 < insertions d key then [sizeT (insertions d key)] else []) := by
  have stored := stored_of_meeting new meeting (reached.mono fun _ _ => And.left)
    (reached.mono fun _ _ => And.right) queries
  have entries : ∀ r, (d.rank r).mem.map.localMap.entries = env.exact d r :=
    fun r => Env.entries_eq (stored r)
  refine ⟨meeting.executed reached.reachable, entries, fun c r q leads pc code epoch => ?_,
    fun c r turn result leads same waits returned => ⟨fun key counts => ?_, fun counts => ?_,
      fun counts => ?_⟩, fun c keys k r preturn k' leads called pc back epoch => ?_⟩
  · have avoids : ∀ (cause : Option (Rpc n (Payload K U))) k mem, env.serving.code cause k →
        (env.program.next k mem).Avoids fun code => ∃ q, code = .read q := fun _ k mem _ =>
      (env.program_avoids k mem).mono (by rintro _ ⟨q, rfl⟩; trivial)
    have still := meeting.found avoids
      (fun r => by simp [Env.serving, Code.Serves])
      (by simp) reached.reachable leads ⟨q, code⟩ pc epoch
    exact ⟨still.code.symm.trans code, still.mem⟩
  · choose k counts using counts
    have posts : ∀ i, ∃ next, env.program.next (d.rank i).code (d.rank i).mem
        = .allReduce (sizeT ((d.rank i).mem.map.localGet key).sum) next := by
      intro i
      rw [counts i]
      exact ⟨_, rfl⟩
    have total : result = sizeT (insertions d key) := by
      rw [meeting.reduced_eq reached.reachable posts same leads waits returned]
      exact Env.combine_count key fun r => by rw [stored r key]
    exact ⟨total, fun few => total.trans (sizeT_of_lt few)⟩
  · choose k counts using counts
    have posts : ∀ i, ∃ next, env.program.next (d.rank i).code (d.rank i).mem
        = .allReduce (sizeT (((env.exact d i).map Prod.snd).sum : ℕ)) next := by
      intro i
      rw [counts i, ← entries i]
      exact ⟨_, rfl⟩
    rw [meeting.reduced_eq reached.reachable posts same leads waits returned]
    exact Env.total_exact
  · choose k counts using counts
    have posts : ∀ i, ∃ next, env.program.next (d.rank i).code (d.rank i).mem
        = .allReduce (env.exact d i).length next := by
      intro i
      rw [counts i, ← entries i]
      exact ⟨_, rfl⟩
    rw [meeting.reduced_eq reached.reachable posts same leads waits returned]
    exact Env.size_exact
  · obtain ⟨same, output, -⟩ := gathered_of_stored meeting reached.reachable stored leads called
      pc back epoch
    exact ⟨same, output⟩

end Meeting

/-! ## A handler that inserts during a query -/

/-- A program in which rank 1 calls a handler on rank 0 that inserts key 1, and both ranks ask
for its count; rank 0 first calls a handler on rank 1 that does nothing. -/
def lateCalls (u : ℕ) (_ : Mem ℕ Unit) : Call 2 ℕ Unit ℕ :=
  match u with
  | 0 => .async 1 21 1
  | 1 | 12 => .query (.count 1 fun out => 100 + out)
  | 10 => .async 0 20 11
  | 11 => .asyncFlush 0 12
  | 20 => .insert 1 21
  | _ => .ret ()

def lateEnv : Env 2 ℕ Unit ℕ :=
  { nestedEnv 0 with next := lateCalls, offset_le := nestedEnv_offset }

def lateComm : Machine (CountSys 2 ℕ Unit ℕ) (Action 2) :=
  comm ⟨16, false⟩ lateEnv.program emptyMem fun r => .user (10 * r)

/-- The state of a run in which both ranks are at the end of the barrier of the query, and the
handler has inserted during it. -/
def lateMeeting : CountSys 2 ℕ Unit ℕ :=
  lateComm.drive (fun _ _ => True) lateComm.init (mains 0 30 ++ turns 16 16 3 ++ mains 0 9)

/-- A later state of this run, in which both ranks have contributed to the count. -/
def lateReduced : CountSys 2 ℕ Unit ℕ :=
  lateComm.drive (fun _ _ => True) lateMeeting (mains 0 2 ++ mains 1 2)

/-- The key whose count a rank is about to read, if it is. -/
def Code.counted? {n : ℕ} {K τ U : Type} : Code n K τ U → Option K
  | .read (.count key _) => some key
  | _ => none

theorem Code.of_counted {n : ℕ} {K τ U : Type} {code : Code n K τ U} {key : K}
    (h : code.counted? = some key) : ∃ k, code = .read (.count key k) := by
  cases code with
  | read q =>
      cases q <;> cases h
      exact ⟨_, rfl⟩
  | _ => cases h

/-- **An insert that a handler makes during a query is missed**: it was called before all ranks
were at the end of the barrier, and both ranks get the count zero. -/
theorem insert_missed :
    lateComm.Reachable lateMeeting ∧ Meeting lateMeeting 0 ∧
      (∀ i, ∃ k, (lateMeeting.rank i).code = .read (.count 1 k)) ∧
      insertions lateMeeting 1 = 1 ∧ lateComm.Leads lateMeeting lateReduced ∧
      ∀ r, lateReduced.reduced lateEnv.program r = some 0 := by
  have reached : lateComm.Reachable lateMeeting := Machine.ReachableBy.init.drive _
  have codes : ∀ i, (lateMeeting.rank i).code.counted? = some 1 := by decide +kernel
  exact ⟨reached, .of_waiting reached (r := 0) (by decide +kernel) (by decide +kernel)
    (by decide +kernel) (by decide +kernel) (by decide +kernel), fun i => Code.of_counted (codes i),
    by decide +kernel, Machine.Leads.drive .refl _, by decide +kernel⟩

/-- The state of a run in which both ranks are at the end of the barrier, and the handler has
inserted before rank 0 asked. -/
def earlyMeeting : CountSys 2 ℕ Unit ℕ :=
  lateComm.drive (fun c a => lateEnv.Undisturbed c a ∧ lateEnv.Timely c a) lateComm.init
    (mains 1 12 ++ [.listen 0 1] ++ turns 16 12 4 ++ mains 0 9)

def earlyReduced : CountSys 2 ℕ Unit ℕ :=
  lateComm.drive (fun _ _ => True) earlyMeeting (mains 0 2 ++ mains 1 2)

/-- In this run, rank 0 gets the count one, and the map of rank 1 has the exact entries. -/
theorem queries_account_early :
    earlyReduced.reduced lateEnv.program 0 = some 1 ∧
      (earlyMeeting.rank 1).mem.map.localMap.entries = lateEnv.exact earlyMeeting 1 := by
  have reached : lateComm.ReachableBy (fun c a => lateEnv.Undisturbed c a ∧ lateEnv.Timely c a)
      earlyMeeting := Machine.ReachableBy.init.drive _
  have meeting : Meeting earlyMeeting 0 :=
    .of_waiting reached.reachable (r := 0) (by decide +kernel) (by decide +kernel)
      (by decide +kernel) (by decide +kernel) (by decide +kernel)
  have codes : ∀ i, (earlyMeeting.rank i).code.counted? = some 1 := by decide +kernel
  have counts := fun i => Code.of_counted (codes i)
  obtain ⟨-, entries, -, reduced, -⟩ := queries_account emptyMem_new meeting reached
    fun i => (counts i).imp' _ fun _ code => code
  have completed : (earlyReduced.reduced lateEnv.program 0).isSome := by decide +kernel
  obtain ⟨result, returned⟩ := Option.isSome_iff_exists.mp completed
  have one := ((reduced earlyReduced 0 0 result (Machine.Leads.drive .refl _) (by decide +kernel)
    (by decide +kernel) returned).1 1 counts).1
  have inserted : sizeT (insertions earlyMeeting 1) = 1 := by decide +kernel
  exact ⟨by rw [returned, one, inserted], entries 1⟩

end YGM.Counting
