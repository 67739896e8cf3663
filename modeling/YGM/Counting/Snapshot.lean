import YGM.Containers.Snapshot
import YGM.Counting.Flushed

/-!
# `all_gather` of a counting set

`counting_set::all_gather` flushes the cache and calls the one of its map, so it is an
instance of the protocol between two barriers (`Env.gather`).  If only main code inserts,
its first barrier ends with all counts in the map, and what a rank gets for each key it asks
for is the number of calls of `async_insert` with that key (`gathered_counts`).

`all_gather_exact` has this and what `all_gather` of maps and multimaps returns.
-/

namespace YGM.Counting

variable {n : ℕ} {K τ U : Type} [LinearOrder K] [Inhabited K]

/-- The `all_gather` of the set's map, as an exchange of requests and answers between two
barriers. -/
def Env.gather (env : Env n K τ U) :
    Gather env.program Unit ℕ K (List (K × ℕ) → U) (List ℕ) (MapImpl K ℕ) (Multimap K ℕ) where
  owner := env.partitioner.owner
  pack
    | .ask _ pcont key => .fetch key pcont
    | .answer pcont key values => .returner key values pcont
  place
    | .create _ keys k => .read (.allGather keys k)
    | .fetching _ preturn keys k => .fetching preturn keys k
    | .gathered preturn k => .gathered preturn k
    | .fetch src _ pcont key => .fetch src key pcont
    | .fetched src _ pcont key => .fetched src key pcont
    | .returner pcont key values => .returner key values pcont
  table := Mem.map
  stored map _ key := map.localGet key
  output := Mem.output
  put _ key values out := out.insertValues false key values
  preturn mem _ := mem.sptrs
  fresh := .empty
  pack_injective m m' h := by
    cases m <;> cases m' <;> cases h <;> rfl
  place_injective p p' h := by
    cases p <;> cases p' <;> cases h <;> rfl
  handler src m := by cases m <;> rfl
  next_create _ keys k mem := ⟨mem.pointed, rfl, rfl, by simp [Mem.pointed]⟩
  next_nil _ _ _ _ := rfl
  next_cons _ _ _ _ _ _ := rfl
  next_fetch _ _ _ _ _ := rfl
  next_fetched _ _ _ _ _ := rfl
  next_returner preturn key values mem := by
    refine ⟨_, rfl, rfl, fun q => ?_⟩
    by_cases same : q = preturn
    · subst same
      simp
    · simp [same]

/-- Code right behind a barrier of a query or of `all_gather`. -/
def Code.Behind : Code n K τ U → Prop
  | .read _ | .gathered .. => True
  | _ => False

/-- Code right behind such a barrier is reached by leaving the barrier only. -/
theorem Env.program_avoids (env : Env n K τ U) (k : Code n K τ U) (mem : Mem K τ) :
    (env.program.next k mem).Avoids Code.Behind := by
  cases k with
  | user u =>
      simp only [program, Call.command]
      split <;> simp [Cmd.Avoids, Code.Behind]
  | insert key u =>
      simp only [program, cacheInsert]
      repeat' split
      all_goals simp [Cmd.Avoids, Code.Behind]
  | check slot key u =>
      simp only [program]
      split <;> simp [Cmd.Avoids, Code.Behind]
  | clear slot a => cases a <;> simp [program, Cmd.Avoids, Code.Behind, After.code]
  | flushAll i again q =>
      simp only [program]
      split
      · simp [Cmd.Avoids, Code.Behind]
      · cases again <;> simp [Cmd.Avoids, Code.Behind]
  | read q => cases q <;> simp [program, Query.answer, Cmd.Avoids, Code.Behind]
  | fetching preturn keys k => cases keys <;> simp [program, Cmd.Avoids, Code.Behind]
  | _ => simp [program, Cmd.Avoids, Code.Behind]

section

variable {env : Env n K τ U} {cfg : Config} {start : Fin n → Mem K τ} {main : Fin n → U}
variable {c d : CountSys n K τ U}

/-- If the map stores all counts at the end of the first barrier, `all_gather` returns for each
key of its list the number of its inserts. -/
theorem gathered_of_stored {e : ℕ} (meeting : Meeting d e)
    (reached : (comm cfg env.program start fun r => .user (main r)).Reachable d)
    (stored : ∀ r key, (d.rank r).mem.map.localGet key
      = if env.partitioner.owner key = r ∧ 0 < insertions d key then [sizeT (insertions d key)]
        else [])
    (leads : (comm cfg env.program start fun r => .user (main r)).Leads d c)
    {keys : Fin n → List K} {k : Fin n → List (K × ℕ) → U}
    (called : ∀ i, (d.rank i).code = .read (.allGather (keys i) (k i))) {r : Fin n} {preturn : ℕ}
    {k' : List (K × ℕ) → U} (pc : (c.rank r).pc = .user)
    (back : (c.rank r).code = .gathered preturn k') (epoch : (c.rank r).epoch = e + 2) :
    k' = k r ∧ (∀ key, ((c.rank r).mem.output preturn).get key
        = if key ∈ keys r ∧ 0 < insertions d key then [sizeT (insertions d key)] else []) ∧
      ∃ d', (comm cfg env.program start fun r => .user (main r)).Leads d d' ∧
        (comm cfg env.program start fun r => .user (main r)).Leads d' c ∧
        Meeting d' (e + 1) ∧ ∀ i, (d'.rank i).mem.map = (d.rank i).mem.map := by
  have creates : ∀ i, (d.rank i).code = env.gather.place (.create () (keys i) (k i)) := called
  obtain ⟨-, rfl, ⟨order, perm, output⟩, unchanged⟩ := env.gather.returned meeting
    reached creates leads
    (fun k mem => (env.program_avoids k mem).mono (by rintro _ ⟨q, x, rfl⟩; trivial))
    (by simp [Env.gather]) pc back epoch
  refine ⟨rfl, fun key => ?_, unchanged⟩
  have collected : (c.rank r).mem.output preturn = Multimap.empty.collect false
      (fun key => (d.rank (env.partitioner.owner key)).mem.map.localGet key) order := output
  have asks : key ∈ order ↔ key ∈ keys r := perm.mem_iff
  rw [collected, Multimap.get_collect_map, Multimap.get_empty, stored]
  by_cases asked : key ∈ keys r <;> by_cases counted : 0 < insertions d key <;>
    simp [asks, asked, counted]

/-- **The result of `all_gather`**, if only main code inserts: for each key of the list that was
inserted, the number of its inserts. -/
theorem gathered_counts (new : ∀ r, (start r).New) {e : ℕ} (meeting : Meeting d e)
    (reached : (comm cfg env.program start fun r => .user (main r)).ReachableBy env.MainOnly d)
    (leads : (comm cfg env.program start fun r => .user (main r)).Leads d c)
    {keys : Fin n → List K} {k : Fin n → List (K × ℕ) → U}
    (called : ∀ i, (d.rank i).code = .read (.allGather (keys i) (k i))) {r : Fin n} {preturn : ℕ}
    {k' : List (K × ℕ) → U} (pc : (c.rank r).pc = .user)
    (back : (c.rank r).code = .gathered preturn k') (epoch : (c.rank r).epoch = e + 2) :
    k' = k r ∧ (∀ key, ((c.rank r).mem.output preturn).get key
        = if key ∈ keys r ∧ 0 < insertions d key then [sizeT (insertions d key)] else []) ∧
      ∃ d', (comm cfg env.program start fun r => .user (main r)).Leads d d' ∧
        (comm cfg env.program start fun r => .user (main r)).Leads d' c ∧
        Meeting d' (e + 1) ∧ ∀ i, (d'.rank i).mem.map = (d.rank i).mem.map := by
  obtain ⟨timely, -⟩ := timely_of_mainOnly reached
  have stored := stored_of_meeting new meeting (timely.mono fun _ _ => And.left)
    (timely.mono fun _ _ => And.right) fun i => ⟨_, called i⟩
  exact gathered_of_stored meeting reached.reachable stored leads called pc back epoch

end

end YGM.Counting

namespace YGM

/-- **`all_gather` returns an exact snapshot.**  A rank that is back from it has passed the
end of its first barrier, where everything issued before had been executed.  If all ranks had
called it there, each gets what was stored there for the keys of its own list; nothing is
created for the others, nor is a table of any rank changed until the second barrier ends.

What is stored for a key is on its owner; of a counting set it is the number of its inserts,
if only main code inserts. -/
theorem all_gather_exact {n : ℕ} {P σ W C ι K V A τ U : Type} [DecidableEq ι] [LinearOrder K]
    [Inhabited K] (cfg : Config) :
    (∀ (u : GatherUser n P σ W C ι K V) start (main : Fin n → C) c r preturn k' e,
      (comm cfg u.program start fun r => .base (main r)).Reachable c →
      (c.rank r).pc = .user → (c.rank r).code = .gathered preturn k' →
      (c.rank r).epoch = e + 2 →
      (∃ d, (comm cfg u.program start fun r => .base (main r)).Reachable d ∧
        (comm cfg u.program start fun r => .base (main r)).Leads d c ∧ Meeting d e) ∧
      ∀ d, (comm cfg u.program start fun r => .base (main r)).Reachable d →
        (comm cfg u.program start fun r => .base (main r)).Leads d c → Meeting d e →
        d.issued = d.executed ∧
        ∀ (id : Fin n → Id ι) (keys : Fin n → List K) (k : Fin n → Multimap K V → C),
          (∀ i, (d.rank i).code = .create (id i) (keys i) (k i)) → k' = k r ∧
          ((id r).multi = false → ∀ key, ((c.rank r).mem.output preturn).get key
            = if key ∈ keys r then (u.stored d (id r) key).take 1 else []) ∧
          ((id r).multi = true → (keys r).Nodup → ∀ key, ((c.rank r).mem.output preturn).get key
            = if key ∈ keys r then u.stored d (id r) key else []) ∧
          ∃ d', (comm cfg u.program start fun r => .base (main r)).Leads d d' ∧
            (comm cfg u.program start fun r => .base (main r)).Leads d' c ∧
            Meeting d' (e + 1) ∧
            ∀ i, u.maps (d'.rank i).mem.base = u.maps (d.rank i).mem.base) ∧
    (∀ (env : Env n ι K V A τ U) gathers packedSize offset_le start (main : Fin n → U) d,
      env.Plain → (∀ r id, ((start r).base.maps id).localMap = .empty) →
      (∀ r, (start r).base.history = []) →
      (comm cfg (env.gatherUser gathers packedSize offset_le).program start
        fun r => .base (.user (main r))).Reachable d →
      ∀ r id key, (((d.rank r).mem.base.maps id).localGet key ≠ [] →
          env.partitioner.owner key = r) ∧
        (id.multi = false → (((d.rank r).mem.base.maps id).localGet key).length ≤ 1)) ∧
    (∀ (env : Counting.Env n K τ U) start (main : Fin n → U) c r preturn k' e,
      (∀ r, (start r).New) →
      (comm cfg env.program start fun r => .user (main r)).ReachableBy env.MainOnly c →
      (c.rank r).pc = .user → (c.rank r).code = .gathered preturn k' →
      (c.rank r).epoch = e + 2 →
      (∃ d, (comm cfg env.program start fun r => .user (main r)).ReachableBy env.MainOnly d ∧
        (comm cfg env.program start fun r => .user (main r)).Leads d c ∧ Meeting d e) ∧
      ∀ d, (comm cfg env.program start fun r => .user (main r)).ReachableBy env.MainOnly d →
        (comm cfg env.program start fun r => .user (main r)).Leads d c → Meeting d e →
        d.issued = d.executed ∧ ∀ (keys : Fin n → List K) (k : Fin n → List (K × ℕ) → U),
          (∀ i, (d.rank i).code = .read (.allGather (keys i) (k i))) → k' = k r ∧
          (∀ key, ((c.rank r).mem.output preturn).get key
            = if key ∈ keys r ∧ 0 < Counting.insertions d key
              then [Counting.sizeT (Counting.insertions d key)] else []) ∧
          ∃ d', (comm cfg env.program start fun r => .user (main r)).Leads d d' ∧
            (comm cfg env.program start fun r => .user (main r)).Leads d' c ∧
            Meeting d' (e + 1) ∧ ∀ i, (d'.rank i).mem.map = (d.rank i).mem.map) := by
  refine ⟨fun u start main c r preturn k' e h pc back epoch => ⟨?_, ?_⟩,
    fun env gathers packedSize offset_le start main d plain empty new h r id key =>
      stored_on_owner plain empty new h r id key,
    fun env start main c r preturn k' e new h pc back epoch => ⟨?_, ?_⟩⟩
  · have complete := Sys.epoch_le_round h r
    exact exists_meeting r.pos h (by omega)
  · intro d reached leads meeting
    exact ⟨meeting.executed reached, fun id keys k called =>
      GatherUser.gathered_values meeting reached leads called pc back epoch⟩
  · have complete := Sys.epoch_le_round h.reachable r
    exact exists_meeting r.pos h (by omega)
  · intro d reached leads meeting
    exact ⟨meeting.executed reached.reachable, fun keys k called =>
      Counting.gathered_counts new meeting reached leads called pc back epoch⟩

/-! ## Two ranks that gather -/

/-- A program of two ranks in which each inserts a key that the other one owns, and both call
`all_gather`. -/
def gatherCalls (u : ℕ) (mem : Mem 2 Unit ℕ ℕ ℕ Unit) : Call 2 Unit ℕ ℕ ℕ Unit ℕ :=
  match mem.self, u with
  | 0, 0 => .mapInsert ⟨false, ()⟩ 1 5 1
  | 1, 0 => .mapInsert ⟨false, ()⟩ 2 6 1
  | _, _ => .ret ()

def gatherKeys : Fin 2 → List ℕ
  | 0 => [2, 2, 9]
  | 1 => []

def gatherTables : GatherUser 2 (Payload Unit ℕ ℕ ℕ ℕ) (Mem 2 Unit ℕ ℕ ℕ Unit) (Value Unit ℕ ℕ)
    (Code 2 Unit ℕ ℕ ℕ Unit ℕ) Unit ℕ ℕ :=
  Env.gatherUser { tableEnv with next := gatherCalls, offset_le := tableEnv_offset }
    (fun u mem => if u = 1 then some (⟨false, ()⟩, gatherKeys mem.self, fun _ => 2) else none)
    (fun _ => 8) (fun _ => le_rfl)

def gatherStart (r : Fin 2) : GatherMem ℕ ℕ (Mem 2 Unit ℕ ℕ ℕ Unit) where
  base := tableStart r
  output _ := .empty
  sptrs _ := 0

def gatherComm :=
  comm ⟨16, false⟩ gatherTables.program gatherStart fun _ => .base (.user 0)

/-- A schedule in which the main threads move `a` and `b` times and then each listener once, `k`
times over. -/
def turns (a b k : ℕ) : List (Action 2) :=
  (List.replicate k (mains 0 a ++ mains 1 b ++ [.listen 0 1, .listen 1 0])).flatten

/-- The state of the run in which both ranks are at the end of the first barrier. -/
def gatherMeeting :=
  gatherComm.drive (fun _ _ => True) gatherComm.init
    (turns 12 12 2 ++ turns 4 4 1 ++ mains 0 10)

/-- The state of the run in which rank 0 is back from the second barrier. -/
def gatherReturned :=
  gatherComm.drive (fun _ _ => True) gatherMeeting (turns 20 12 5 ++ mains 1 20 ++ mains 0 8)

/-- The map and the keys of an `all_gather` that is back from its first barrier. -/
def GatherCode.keys? {n : ℕ} {ι K V C : Type} [LinearOrder K] :
    GatherCode n ι K V C → Option (Id ι × List K)
  | .create id keys _ => some (id, keys)
  | _ => none

/-- The pointer of an `all_gather` that is back from its second barrier. -/
def GatherCode.gathered? {n : ℕ} {ι K V C : Type} [LinearOrder K] :
    GatherCode n ι K V C → Option OutputPtr
  | .gathered preturn _ => some preturn
  | _ => none

theorem GatherCode.of_keys {n : ℕ} {ι K V C : Type} [LinearOrder K] {code : GatherCode n ι K V C}
    {id : Id ι} {keys : List K} (h : code.keys? = some (id, keys)) :
    ∃ k, code = .create id keys k := by
  cases code <;> cases h
  exact ⟨_, rfl⟩

theorem GatherCode.of_gathered {n : ℕ} {ι K V C : Type} [LinearOrder K]
    {code : GatherCode n ι K V C} {preturn : OutputPtr} (h : code.gathered? = some preturn) :
    ∃ k, code = .gathered preturn k := by
  cases code <;> cases h
  exact ⟨_, rfl⟩

namespace Counting

/-- A program of two ranks that both insert key 1 into a counting set and call `all_gather`. -/
def countCalls (u : ℕ) (_ : Mem ℕ Unit) : Call 2 ℕ Unit ℕ :=
  match u with
  | 0 => .insert 1 1
  | 1 => .query (.allGather [1, 1, 7] fun _ => 2)
  | 10 => .insert 1 11
  | 11 => .query (.allGather [] fun _ => 2)
  | _ => .ret ()

def countKeys : Fin 2 → List ℕ
  | 0 => [1, 1, 7]
  | 1 => []

def countEnv : Env 2 ℕ Unit ℕ :=
  { nestedEnv 0 with next := countCalls, offset_le := nestedEnv_offset }

def countComm : Machine (CountSys 2 ℕ Unit ℕ) (Action 2) :=
  comm ⟨16, false⟩ countEnv.program emptyMem fun r => .user (10 * r)

def countMeeting : CountSys 2 ℕ Unit ℕ :=
  countComm.drive countEnv.MainOnly countComm.init (turns 20 18 2 ++ mains 0 4)

def countReturned : CountSys 2 ℕ Unit ℕ :=
  countComm.drive countEnv.MainOnly countMeeting (turns 18 12 5 ++ mains 1 20 ++ mains 0 9)

def Code.keys? {n : ℕ} {K τ U : Type} : Code n K τ U → Option (List K)
  | .read (.allGather keys _) => some keys
  | _ => none

def Code.gathered? {n : ℕ} {K τ U : Type} : Code n K τ U → Option ℕ
  | .gathered preturn _ => some preturn
  | _ => none

theorem Code.of_keys {n : ℕ} {K τ U : Type} {code : Code n K τ U} {keys : List K}
    (h : code.keys? = some keys) : ∃ k, code = .read (.allGather keys k) := by
  cases code with
  | read q =>
      cases q <;> cases h
      exact ⟨_, rfl⟩
  | _ => cases h

theorem Code.of_gathered {n : ℕ} {K τ U : Type} {code : Code n K τ U} {preturn : ℕ}
    (h : code.gathered? = some preturn) : ∃ k, code = .gathered preturn k := by
  cases code <;> cases h
  exact ⟨_, rfl⟩

end Counting

/-- Rank 0 gets the value of key 2 from its owner and, from the counting set, the count of key
1, which both ranks have inserted; it gets nothing for the keys 9 and 7. -/
theorem all_gather_exact_two :
    ((gatherReturned.rank 0).mem.output ⟨false, 0⟩).get 2 = [6] ∧
      ((gatherReturned.rank 0).mem.output ⟨false, 0⟩).get 9 = [] ∧
      (∀ r id key, ((gatherMeeting.rank r).mem.base.maps id).localGet key ≠ [] →
        tableEnv.partitioner.owner key = r) ∧
      ((Counting.countReturned.rank 0).mem.output 0).get 1 = [2] ∧
      ((Counting.countReturned.rank 0).mem.output 0).get 7 = [] := by
  obtain ⟨tables, placed, counts⟩ := all_gather_exact (n := 2) (P := Payload Unit ℕ ℕ ℕ ℕ)
    (σ := Mem 2 Unit ℕ ℕ ℕ Unit) (W := Value Unit ℕ ℕ) (C := Code 2 Unit ℕ ℕ ℕ Unit ℕ)
    (ι := Unit) (K := ℕ) (V := ℕ) (A := ℕ) (τ := Unit) (U := ℕ) ⟨16, false⟩
  have reached : gatherComm.Reachable gatherMeeting := Machine.ReachableBy.init.drive _
  have leads : gatherComm.Leads gatherMeeting gatherReturned := Machine.Leads.drive .refl _
  have meeting : Meeting gatherMeeting 0 :=
    .of_waiting reached (r := 0) (by decide +kernel) (by decide +kernel) (by decide +kernel)
      (by decide +kernel) (by decide +kernel)
  have called : ∀ i, (gatherMeeting.rank i).code.keys? = some (⟨false, ()⟩, gatherKeys i) := by
    decide +kernel
  choose k called using fun i => GatherCode.of_keys (called i)
  have back : (gatherReturned.rank 0).code.gathered? = some ⟨false, 0⟩ := by decide +kernel
  obtain ⟨k', back⟩ := GatherCode.of_gathered back
  obtain ⟨-, map, -⟩ := ((tables gatherTables gatherStart (fun _ => .user 0) gatherReturned 0
    ⟨false, 0⟩ k' 0 (reached.leads leads) (Pc.eq_user (by decide +kernel)) back
    (by decide +kernel)).2 gatherMeeting reached leads meeting).2 _ gatherKeys k called
  have plain : Env.Plain { tableEnv with next := gatherCalls } := by
    refine ⟨fun _ => rfl, fun u mem step k next => ?_⟩
    simp only [gatherCalls] at next
    split at next <;> cases next
  have reached' : Counting.countComm.ReachableBy Counting.countEnv.MainOnly
      Counting.countMeeting := Machine.ReachableBy.init.drive _
  have leads' : Counting.countComm.Leads Counting.countMeeting Counting.countReturned :=
    Machine.Leads.drive .refl _
  have meeting' : Meeting Counting.countMeeting 0 :=
    .of_waiting reached'.reachable (r := 0) (by decide +kernel) (by decide +kernel)
      (by decide +kernel) (by decide +kernel) (by decide +kernel)
  have called' : ∀ i, (Counting.countMeeting.rank i).code.keys? = some (Counting.countKeys i) := by
    decide +kernel
  choose l called' using fun i => Counting.Code.of_keys (called' i)
  have back' : (Counting.countReturned.rank 0).code.gathered? = some 0 := by decide +kernel
  obtain ⟨l', back'⟩ := Counting.Code.of_gathered back'
  obtain ⟨-, count, -⟩ := ((counts Counting.countEnv Counting.emptyMem (fun r => 10 * r)
    Counting.countReturned 0 0 l' 0 Counting.emptyMem_new (reached'.drive _)
    (Pc.eq_user (by decide +kernel)) back' (by decide +kernel)).2 Counting.countMeeting reached'
    leads' meeting').2 Counting.countKeys l called'
  refine ⟨?_, ?_, fun r id key => (placed { tableEnv with next := gatherCalls } _ _ _ gatherStart
    (fun _ => 0) gatherMeeting plain (fun _ _ => rfl) (fun _ => rfl) reached r id key).1, ?_, ?_⟩
  · rw [map rfl]
    decide +kernel
  · rw [map rfl]
    decide +kernel
  · rw [count]
    decide +kernel
  · rw [count]
    decide +kernel

end YGM
