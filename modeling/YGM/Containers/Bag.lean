import YGM.Comm.Activations
import YGM.Comm.Script
import YGM.Containers.Confluence
import YGM.Library.Residues

/-!
# A bag spreads its items

`async_insert` of `include/ygm/container/detail/bag_impl.hpp` sends an item to the rank that
the bag's own counter, offset by the number of the calling rank, comes to modulo the number
of ranks.  Which item goes where depends on the interleaving if handlers insert, too; how many
go where does not: the destinations of a rank's insertions are those of its counter's first
turns (`Drawn`), as an insertion that has drawn its destination is issued before anything else
the rank does.

Behind a barrier no item is lost, and the numbers of items stored are those of
`Library/Residues` with `w = 2 ^ 64`: the sum of the counter and the rank is a `size_t`.
-/

namespace YGM

variable {n : ℕ} {ι K V A τ U : Type} [DecidableEq ι] [LinearOrder K]

/-! ## Destinations drawn -/

/-- The item that an operation inserts into the bag `name`, if it does. -/
def Op.bagItem (name : ι) : Op ι K V A → Option V
  | .bagInsert name' item => if name' = name then some item else none
  | _ => none

/-- The events that may change the bag `name` without inserting an item. -/
def Event.DisturbsBag (name : ι) : Event n ι K V A τ → Prop
  | .step (.clear (.bag name')) | .step (.deserialize (.bag name') _) => name' = name
  | .step (.swapBag i j) => name = i ∨ name = j
  | .step (.forAllBag name' fn) => name' = name ∧ ¬ ∀ item t, (fn item t).1 = item
  | _ => False

/-- None of the local steps recorded in a history disturbs the bag. -/
def Mem.Calm (name : ι) (mem : Mem n ι K V A τ) : Prop :=
  ∀ step, .step step ∈ mem.history → ¬ (Event.step step : Event n ι K V A τ).DisturbsBag name

/-- The destination of a call that inserts into the bag; `none` for other calls. -/
def Rpc.bagDest (name : ι) (m : Rpc n (Payload ι K V A U)) : Option (Fin n) :=
  (m.payload.picked (Op.bagItem name)).map fun _ => m.dest

/-- The destination of the insertion into the bag that code is about to issue, if it is. -/
def Code.bagDest (name : ι) : Code n ι K V A τ U → Option (Fin n)
  | .issue dest o _ => (o.bagItem name).map fun _ => dest
  | _ => none

/-- Code that is not about to issue an operation. -/
def Code.Plain : Code n ι K V A τ U → Prop
  | .issue .. => False
  | _ => True

/-- Code that issues at most one operation before it goes on with user code. -/
def Code.Single : Code n ι K V A τ U → Prop
  | .issue _ _ k => k.Plain
  | _ => True

omit [DecidableEq ι] [LinearOrder K] in
theorem Code.Plain.single {k : Code n ι K V A τ U} (h : k.Plain) : k.Single := by
  cases k <;> trivial

omit [LinearOrder K] in
theorem Code.Plain.bagDest {name : ι} {k : Code n ι K V A τ U} (h : k.Plain) :
    k.bagDest name = none := by
  cases k <;> first | rfl | exact h.elim

/-- The code at which a command goes on: `now` holds of it if it follows at once, and `later` if
it follows a call or a collective operation. -/
def Cmd.Resumes {P σ C : Type} {W : Type} (now later : C → Prop) : Cmd n P σ W C → Prop
  | .ret _ => True
  | .update _ k => now k
  | .async _ _ k | .asyncFlush _ k | .asyncFlushAll k | .barrier k | .kill k => later k
  | .allReduce _ k => ∀ value, later (k value)

section Next

variable {env : Env n ι K V A τ U} {name : ι} {mem mem' : Mem n ι K V A τ}
variable {k k' : Code n ι K V A τ U}

theorem Env.command_resumes {wrap : U → Code n ι K V A τ U}
    {ret : Mem n ι K V A τ → Cmd n (Payload ι K V A U) (Mem n ι K V A τ) (Value ι K V)
      (Code n ι K V A τ U)} (wraps : ∀ k, (wrap k).Plain)
    (rets : ∀ mem, (ret mem).Resumes Code.Single Code.Plain) (mem : Mem n ι K V A τ)
    (call : Call n ι K V A τ U) :
    (env.command mem wrap ret call).Resumes Code.Single Code.Plain := by
  cases call with
  | ret user => exact rets _
  | compute user k => exact (wraps k).single
  | bagInsert name item k => exact wraps k
  | collective step k => trivial
  | allReduceSum value k => exact fun _ => wraps _
  | topk id k cfn next => exact fun _ => wraps _
  | _ => exact wraps _

/-- **Code that waits is not about to issue an operation**: only code that goes on at once can
be. -/
theorem Env.resumes (env : Env n ι K V A τ U) (single : k.Single) (mem : Mem n ι K V A τ) :
    (env.program.next k mem).Resumes Code.Single Code.Plain := by
  cases k with
  | user u => refine env.command_resumes (fun _ => ?_) (fun _ => ?_) mem _ <;> trivial
  | visiting u src id key a pos =>
      simp only [program]
      refine env.command_resumes (fun _ => ?_) (fun _ => ?_) mem _ <;> trivial
  | serve src o =>
      simp only [program, serve]
      repeat' split
      all_goals trivial
  | entry src id key a pos =>
      simp only [program, visitEntry]
      repeat' split
      all_goals trivial
  | issue dest o k => exact single
  | step step k =>
      simp only [program]
      split
      · trivial
      · trivial
      · exact fun _ => trivial

/-- Code whose next command is not a call is not about to issue an operation. -/
theorem Env.plain_of_next (mem : Mem n ι K V A τ)
    (other : ∀ dest payload k', env.program.next k mem ≠ .async dest payload k') : k.Plain := by
  cases k <;> first | trivial | exact (other _ _ _ rfl).elim

/-- **A call inserts into the bag exactly if the code was about to insert**, and at the
destination for which the code was about to. -/
theorem Env.async_bagDest {m : Rpc n (Payload ι K V A U)}
    (cmd : env.program.next k mem = .async m.dest m.payload k') :
    m.bagDest name = k.bagDest name := by
  have user : ∀ {wrap : U → Code n ι K V A τ U}
      {ret : Mem n ι K V A τ → Cmd n (Payload ι K V A U) (Mem n ι K V A τ) (Value ι K V)
        (Code n ι K V A τ U)} (_ : ∀ mem dest payload k', ret mem ≠ .async dest payload k')
      {call : Call n ι K V A τ U} (_ : env.command mem wrap ret call = .async m.dest m.payload k'),
      m.bagDest name = none := by
    intro wrap ret rets call cmd
    obtain ⟨src, dest, payload, epoch, cut⟩ := m
    cases call with
    | ret user => exact (rets _ _ _ _ cmd).elim
    | mapInsert id key value k =>
        cases cmd
        cases id.multi <;> rfl
    | setInsert id key k =>
        cases cmd
        cases id.multi <;> rfl
    | _ => cases cmd <;> rfl
  cases k with
  | user u =>
      simp only [program] at cmd
      refine user (fun _ _ _ _ => ?_) cmd
      simp
  | visiting u src id key a pos =>
      simp only [program] at cmd
      refine user (fun _ _ _ _ => ?_) cmd
      simp
  | serve src o =>
      simp only [program, serve] at cmd
      repeat' split at cmd
      all_goals cases cmd
  | entry src id key a pos =>
      simp only [program, visitEntry] at cmd
      repeat' split at cmd
      all_goals cases cmd
  | issue dest o k =>
      obtain ⟨src, dest, payload, epoch, cut⟩ := m
      cases cmd
      rfl
  | step step k =>
      simp only [program] at cmd
      split at cmd <;> cases cmd

/-- A local step that does not disturb a bag leaves it as it is. -/
theorem localStep_bags {step : LocalStep ι K V τ}
    (calm : ¬ (Event.step step : Event n ι K V A τ).DisturbsBag name)
    (taken : mem.localStep step = some (.inl mem')) :
    mem'.bags name = mem.bags name ∧ mem'.self = mem.self := by
  cases step with
  | clear c =>
      cases taken
      cases c with
      | bag name' => exact ⟨Function.update_of_ne (fun same => calm same.symm) _ _, rfl⟩
      | map | set => exact ⟨rfl, rfl⟩
  | swapBag i j =>
      cases taken
      obtain ⟨first, second⟩ := not_or.mp calm
      simp [Mem.setBag, first, second]
  | forAllBag name' fn =>
      cases taken
      refine ⟨?_, rfl⟩
      by_cases here : name = name'
      · subst here
        have plain : ∀ item t, (fn item t).1 = item := by
          by_contra changes
          exact calm ⟨rfl, changes⟩
        simp only [Mem.setBag, Function.update_self, forEach_fst plain]
      · simp [Mem.setBag, here]
  | deserialize c file =>
      simp only [Mem.localStep, Option.map_eq_some_iff, Option.bind_eq_some_iff] at taken
      obtain ⟨_, ⟨saved, -, loaded⟩, out⟩ := taken
      cases out
      cases c with
      | bag name' =>
          cases saved <;> cases loaded
          exact ⟨Function.update_of_ne (fun same => calm same.symm) _ _, rfl⟩
      | map | set =>
          cases saved <;> cases loaded
          exact ⟨rfl, rfl⟩
  | size | countMap | countSet => cases taken
  | _ => cases taken; exact ⟨rfl, rfl⟩

/-- **A computation draws at most one destination**, with the counter of the bag, and leaves the
items as they are. -/
theorem Env.update_bag (cmd : env.program.next k mem = .update mem' k')
    (calm : mem'.Calm name) :
    mem'.self = mem.self ∧ k.bagDest name = none ∧
      (mem'.bags name).localBag = (mem.bags name).localBag ∧
      ((mem'.bags name).roundRobin = (mem.bags name).roundRobin ∧ k'.bagDest name = none ∨
        (mem'.bags name).roundRobin = (mem.bags name).roundRobin + 1 ∧
          k'.bagDest name = some ((mem.bags name).dest mem.self)) := by
  have user : ∀ {wrap : U → Code n ι K V A τ U}
      {ret : Mem n ι K V A τ → Cmd n (Payload ι K V A U) (Mem n ι K V A τ) (Value ι K V)
        (Code n ι K V A τ U)} {call : Call n ι K V A τ U}
      (_ : env.command mem wrap ret call = .update mem' k') (_ : ∀ k, (wrap k).Plain)
      (_ : ∀ mem, ret mem = .update mem' k' → mem' = mem ∧ k'.Plain), mem'.self = mem.self ∧ (mem'.bags name).localBag = (mem.bags name).localBag ∧
      ((mem'.bags name).roundRobin = (mem.bags name).roundRobin ∧ k'.bagDest name = none ∨
        (mem'.bags name).roundRobin = (mem.bags name).roundRobin + 1 ∧
          k'.bagDest name = some ((mem.bags name).dest mem.self)) := by
    intro wrap ret call cmd wraps rets
    cases call with
    | ret user =>
        obtain ⟨rfl, plain⟩ := rets _ cmd
        exact ⟨rfl, rfl, .inl ⟨rfl, plain.bagDest⟩⟩
    | compute user k =>
        cases cmd
        exact ⟨rfl, rfl, .inl ⟨rfl, (wraps k).bagDest⟩⟩
    | bagInsert name' item k =>
        cases cmd
        by_cases same : name' = name
        · subst same
          simp [Mem.setBag, Code.bagDest, Op.bagItem]
        · simp [Mem.setBag, Code.bagDest, Op.bagItem, same, Ne.symm same]
    | _ => cases cmd
  have plain : k.bagDest name = none :=
    (env.plain_of_next mem (by simp [cmd])).bagDest
  cases k with
  | user u =>
      simp only [program] at cmd
      obtain ⟨self, bag, draws⟩ := user cmd (fun _ => trivial) (fun _ => by simp)
      exact ⟨self, plain, bag, draws⟩
  | visiting u src id key a pos =>
      simp only [program] at cmd
      obtain ⟨self, bag, draws⟩ := user cmd (fun _ => trivial) (fun _ ret => by
        cases ret
        exact ⟨rfl, trivial⟩)
      exact ⟨self, plain, bag, draws⟩
  | serve src o =>
      simp only [program, serve] at cmd
      repeat' split at cmd
      all_goals cases cmd
      all_goals exact ⟨rfl, plain, rfl, .inl ⟨rfl, rfl⟩⟩
  | entry src id key a pos =>
      simp only [program, visitEntry] at cmd
      repeat' split at cmd
      all_goals cases cmd
      exact ⟨rfl, plain, rfl, .inl ⟨rfl, rfl⟩⟩
  | issue dest o k => cases cmd
  | step step k =>
      simp only [program] at cmd
      split at cmd
      · cases cmd
      · rename_i after taken
        cases cmd
        obtain ⟨bag, self⟩ := localStep_bags (calm step (by simp [Mem.log])) taken
        exact ⟨self, plain, congrArg BagImpl.localBag bag,
          .inl ⟨congrArg BagImpl.roundRobin bag, rfl⟩⟩
      · cases cmd

/-- **A handler that returns** has inserted the item of its call, and has drawn no destination. -/
theorem Env.ret_bag (name : ι) (cmd : env.program.next k mem = .ret mem') :
    mem'.self = mem.self ∧ (mem'.bags name).roundRobin = (mem.bags name).roundRobin ∧
      ∀ m, env.Runs (some m) k → (mem'.bags name).localBag = (mem.bags name).localBag
        ++ (m.payload.picked (Op.bagItem name)).toList := by
  have idle : (∀ m, env.Runs (some m) k → m.payload.picked (Op.bagItem name) = none) →
      mem'.self = mem.self → mem'.bags = mem.bags → mem'.self = mem.self ∧
        (mem'.bags name).roundRobin = (mem.bags name).roundRobin ∧
        ∀ m, env.Runs (some m) k → (mem'.bags name).localBag = (mem.bags name).localBag
          ++ (m.payload.picked (Op.bagItem name)).toList := by
    intro none self bags
    rw [bags]
    refine ⟨self, rfl, fun m runs => ?_⟩
    rw [none m runs]
    exact (List.append_nil _).symm
  cases k with
  | user u =>
      simp only [program] at cmd
      cases next : env.next u mem <;> rw [next] at cmd <;> cases cmd
      refine idle (fun m runs => ?_) rfl rfl
      obtain ⟨u', payload⟩ := runs m rfl
      rw [payload]
      rfl
  | visiting u src id key a pos =>
      simp only [program] at cmd
      cases next : env.next u mem <;> rw [next] at cmd <;> cases cmd
  | serve src o =>
      have served : ∀ {m}, env.Runs (some m) (.serve src o) → m.payload = .op o := by
        rintro m ⟨m', same, -, payload, -⟩
        cases same
        exact payload
      simp only [program, serve] at cmd
      cases o with
      | bagInsert name' item =>
          cases cmd
          by_cases same : name' = name
          · subst same
            refine ⟨rfl, by simp [perform, Mem.setBag, BagImpl.insert, Mem.log], fun m runs => ?_⟩
            simp [served runs, Payload.picked, Op.bagItem, perform, Mem.setBag, BagImpl.insert,
              Mem.log]
          · refine ⟨rfl, by simp [perform, Mem.setBag, Mem.log, Ne.symm same], fun m runs => ?_⟩
            simp [served runs, Payload.picked, Op.bagItem, perform, Mem.setBag, Mem.log, same,
              Ne.symm same]
      | mapVisit id key a | mapVisitIfExists id key a =>
          cases calls : (env.visitor a).calls <;> simp only [calls] at cmd <;> cases cmd
          exact idle (fun m runs => by rw [served runs]; rfl) rfl rfl
      | _ =>
          cases cmd
          exact idle (fun m runs => by rw [served runs]; rfl) rfl rfl
  | entry src id key a pos =>
      have none : ∀ m, env.Runs (some m) (.entry src id key a pos) →
          m.payload.picked (Op.bagItem name) = none := by
        rintro m ⟨m', o, same, payload, visits⟩
        cases same
        rw [payload]
        cases o <;> first | rfl | cases visits
      simp only [program, visitEntry] at cmd
      repeat' split at cmd
      all_goals cases cmd
      all_goals exact idle none rfl rfl
  | issue dest o k => cases cmd
  | step step k =>
      simp only [program] at cmd
      split at cmd <;> cases cmd
      exact idle (fun m runs => by cases runs) rfl rfl

end Next

/-! ## The first turns of a counter -/

/-- The destination that rank `r` draws in turn `k`, with the `size_t` sum of the source. -/
def spread (r : Fin n) (k : ℕ) : Fin n :=
  ⟨slot (2 ^ 64) n r k, Nat.mod_lt _ (Nat.zero_lt_of_lt r.isLt)⟩

theorem BagImpl.dest_eq {b : BagImpl V} {turn : ℕ} (counter : b.roundRobin = UInt64.ofNat turn)
    (r : Fin n) : b.dest r = spread r turn := by
  refine Fin.ext ?_
  simp [dest, spread, slot, counter, UInt64.toNat_add, Nat.add_mod]

section Drawn

variable {env : Env n ι K V A τ U} {name : ι} {r : Fin n}
variable {s t : Rank n (Payload ι K V A U) (Mem n ι K V A τ) (Value ι K V) (Code n ι K V A τ U)}

/-- The destinations of the insertions that a rank has started or is about to issue. -/
def Rank.drawn (name : ι) (s : Rank n (Payload ι K V A U) (Mem n ι K V A τ) (Value ι K V)
    (Code n ι K V A τ U)) : Multiset (Fin n) :=
  s.started.filterMap (Rpc.bagDest name) + (s.codes.filterMap (Code.bagDest name) : List (Fin n))

/-- **The destinations drawn by a rank are those of the first turns of its counter**, and none
of its waiting code is about to issue an operation. -/
structure Drawn (name : ι) (r : Fin n) (s : Rank n (Payload ι K V A U) (Mem n ι K V A τ)
    (Value ι K V) (Code n ι K V A τ U)) : Prop where
  waiting : ∀ k ∈ s.waiting, k.Plain
  running : ∀ k, s.running = some k → k.Single
  turns : ∃ turn, (s.mem.bags name).roundRobin = UInt64.ofNat turn ∧
    s.drawn name = (Multiset.range turn).map (spread r)

theorem Rank.drawn_of_plain (codes : ∀ k ∈ s.codes, k.Plain) :
    s.drawn name = s.started.filterMap (Rpc.bagDest name) := by
  have none : s.codes.filterMap (Code.bagDest name) = [] :=
    List.filterMap_eq_nil_iff.mpr fun k hk => (codes k hk).bagDest
  rw [Rank.drawn, none]
  exact add_zero _

theorem Rank.drawn_of_running {k : Code n ι K V A τ U} {rest : List (Code n ι K V A τ U)}
    (codes : s.codes = k :: rest) (plain : ∀ k ∈ rest, k.Plain) :
    s.drawn name
      = s.started.filterMap (Rpc.bagDest name) + ((k.bagDest name).toList : List (Fin n)) := by
  have none : rest.filterMap (Code.bagDest name) = [] :=
    List.filterMap_eq_nil_iff.mpr fun k hk => (plain k hk).bagDest
  rw [Rank.drawn, codes, List.filterMap_cons, none]
  cases k.bagDest name <;> rfl

/-- A step after which no code is about to issue an operation keeps the drawn destinations those
of the first turns. -/
theorem Drawn.of_plain (h : Drawn name r s) (codes : ∀ k ∈ t.codes, k.Plain)
    (counter : (t.mem.bags name).roundRobin = (s.mem.bags name).roundRobin)
    (drawn : t.started.filterMap (Rpc.bagDest name) = s.drawn name) : Drawn name r t := by
  obtain ⟨turn, same, turns⟩ := h.turns
  have parts := t.codes_eq
  refine ⟨fun k hk => codes k (by simp [parts, hk]), fun k hk => (codes k ?_).single, turn,
    counter.trans same, ?_⟩
  · simp [parts, hk]
  · rw [Rank.drawn_of_plain codes, drawn, turns]

/-- A step after which only running code is about to issue an operation keeps the drawn
destinations those of the first turns. -/
theorem Drawn.of_running (h : Drawn name r s) {k : Code n ι K V A τ U}
    {rest : List (Code n ι K V A τ U)} (running : t.running = some k) (codes : t.codes = k :: rest)
    (plain : ∀ k ∈ rest, k.Plain) (single : k.Single)
    (counter : (t.mem.bags name).roundRobin = (s.mem.bags name).roundRobin)
    (drawn : t.started.filterMap (Rpc.bagDest name) + ((k.bagDest name).toList : List (Fin n))
      = s.drawn name) : Drawn name r t := by
  obtain ⟨turn, same, turns⟩ := h.turns
  refine ⟨?_, fun k' hk => ?_, turn, counter.trans same, ?_⟩
  · rwa [Rank.waiting_of_running running codes]
  · rw [running] at hk
    cases hk
    exact single
  · rw [Rank.drawn_of_running codes plain, drawn, turns]

/-- **A step of a rank draws at most the destination of the next turn**, so the destinations
drawn stay those of the first turns. -/
theorem Acts.drawn (acts : Acts env.program r s t) (h : Drawn name r s) (self : s.mem.self = r)
    (calm : t.mem.Calm name) (entered : ∀ k, s.pc = .reduce k → ∃ value,
      env.program.next s.code s.mem = .allReduce value k) : Drawn name r t := by
  have idly : s.running = none → ∀ k ∈ s.codes, k.Plain := fun idle =>
    Rank.waiting_of_idle idle ▸ h.waiting
  have runs : ∀ {k}, s.running = some k → s.codes = k :: s.waiting := by
    intro k running
    rw [s.codes_eq, running]
    rfl
  have call : ∀ {k k' : Code n ι K V A τ U} {m : Rpc n (Payload ι K V A U)},
      s.running = some k → env.program.next k s.mem = .async m.dest m.payload k' →
      t.started = s.started + {m} →
      t.started.filterMap (Rpc.bagDest name) = s.drawn name := by
    intro k k' m running cmd started
    rw [started, Multiset.filterMap_add, Rank.drawn_of_running (runs running) h.waiting,
      ← Env.async_bagDest cmd]
    congr 1
  cases acts with
  | quiet idle codes mem started =>
      have plain := idly idle
      refine h.of_plain (codes ▸ plain) (by rw [mem]) ?_
      rw [started, Rank.drawn_of_plain plain]
  | start m idle received codes running mem started =>
      have plain := idly idle
      have handler : (env.program.handler m.src m.payload).Plain := by
        cases payload : m.payload <;> simp [Env.program, Code.Plain]
      refine h.of_running running codes plain handler.single (by rw [mem]) ?_
      rw [started, handler.bagDest, Rank.drawn_of_plain plain]
      exact add_zero _
  | reduced value k pc idle before codes running mem started =>
      have plain := idly idle
      obtain ⟨posted, cmd⟩ := entered k pc
      have after := env.resumes (plain s.code (by simp [before])).single s.mem
      rw [cmd] at after
      refine h.of_plain (by simpa [codes] using after value) (by rw [mem]) ?_
      rw [started, Rank.drawn_of_plain plain]
  | ret k running cmd codes started =>
      obtain ⟨-, counter, -⟩ := env.ret_bag name cmd
      have plain : k.Plain := env.plain_of_next s.mem (by simp [cmd])
      refine h.of_plain (codes ▸ h.waiting) counter ?_
      rw [started, Rank.drawn_of_running (runs running) h.waiting, plain.bagDest]
      exact (add_zero _).symm
  | update k k' running cmd codes after started =>
      obtain ⟨-, plain, -, ⟨same, none⟩ | ⟨next, drawn⟩⟩ := env.update_bag cmd calm
      · have single := env.resumes (h.running k running) s.mem
        rw [cmd] at single
        refine h.of_running after codes h.waiting single same ?_
        rw [started, Rank.drawn_of_running (runs running) h.waiting, plain, none]
      · have single := env.resumes (h.running k running) s.mem
        rw [cmd] at single
        obtain ⟨turn, counter, turns⟩ := h.turns
        refine ⟨?_, fun k'' hk => ?_, turn + 1, ?_, ?_⟩
        · rw [Rank.waiting_of_running after codes]
          exact h.waiting
        · rw [after] at hk
          cases hk
          exact single
        · rw [next, counter, UInt64.ofNat_add]
          rfl
        · rw [Rank.drawn_of_running (runs running) h.waiting, plain] at turns
          rw [Rank.drawn_of_running codes h.waiting, drawn, started, self,
            BagImpl.dest_eq counter, Multiset.range_succ, Multiset.map_cons, ← turns]
          simp [← Multiset.singleton_add, add_comm]
  | remote k k' m running src cmd codes idle mem started =>
      have after := env.resumes (h.running k running) s.mem
      rw [cmd] at after
      refine h.of_plain ?_ (by rw [mem]) (call running cmd started)
      rw [codes, List.forall_mem_cons]
      exact ⟨after, h.waiting⟩
  | self k k' m running src dest cmd codes after mem started =>
      have later := env.resumes (h.running k running) s.mem
      rw [cmd] at later
      have handler : (env.program.handler r m.payload).Plain := by
        cases payload : m.payload <;> simp [Env.program, Code.Plain]
      refine h.of_plain ?_ (by rw [mem]) (call running cmd started)
      rw [codes, List.forall_mem_cons, List.forall_mem_cons]
      exact ⟨handler, later, h.waiting⟩
  | leave k k' running cmd codes idle mem started =>
      have later := env.resumes (h.running k running) s.mem
      have plain : k.Plain := env.plain_of_next s.mem (by
        rcases cmd with ⟨dest, cmd⟩ | cmd | cmd | cmd <;> simp [cmd])
      refine h.of_plain ?_ (by rw [mem]) ?_
      · rw [codes, List.forall_mem_cons]
        refine ⟨?_, h.waiting⟩
        rcases cmd with ⟨dest, cmd⟩ | cmd | cmd | cmd <;> rw [cmd] at later <;> exact later
      · rw [started, Rank.drawn_of_running (runs running) h.waiting, plain.bagDest]
        exact (add_zero _).symm
  | reduce value k running cmd pc before codes idle mem started =>
      have plain : s.code.Plain := env.plain_of_next s.mem (by simp [cmd])
      have all : ∀ k ∈ s.codes, k.Plain := by simpa [before] using plain
      refine h.of_plain (codes ▸ all) (by rw [mem]) ?_
      rw [started, Rank.drawn_of_plain all]

end Drawn

section Runs

variable {cfg : Config} {env : Env n ι K V A τ U} {name : ι}
variable {start : Fin n → Mem n ι K V A τ} {main : Fin n → U} {c : Tables n ι K V A τ U}

omit [DecidableEq ι] in
theorem Mem.Calm.of_prefix {mem mem' : Mem n ι K V A τ} (calm : mem'.Calm name)
    (grows : mem.history <+: mem'.history) : mem.Calm name :=
  fun step done => calm step (grows.subset done)

/-- **A bag holds the items of the calls executed on its rank**, in the order of their
execution. -/
theorem bag_of_reachable (self : ∀ r, (start r).self = r)
    (fresh : ∀ r, (start r).bags name = ⟨0, []⟩)
    (h : (comm cfg env.program start fun r => .user (main r)).Reachable c) (r : Fin n)
    (calm : (c.rank r).mem.Calm name) : (c.rank r).mem.self = r ∧
      ((c.rank r).mem.bags name).localBag = (c.rank r).gathered (Op.bagItem name) := by
  refine env.placing.memory (I := fun r done mem => mem.Calm name → mem.self = r ∧
    (mem.bags name).localBag = done.filterMap fun e => e.rpc.payload.picked (Op.bagItem name))
    ⟨?_, ?_⟩ (fun r => env.placing_main _) (fun r _ => ⟨self r, by simp [fresh r]⟩) h r calm
  · intro r done mem cause k mem' k' held _ cmd calm
    obtain ⟨here, items⟩ := held (calm.of_prefix (env.effect_update cmd).history)
    obtain ⟨same, -, bag, -⟩ := env.update_bag cmd calm
    exact ⟨same.trans here, bag.trans items⟩
  · intro r done mem m k mem' e held runs _ cmd rpc _ calm
    obtain ⟨here, items⟩ := held (calm.of_prefix (env.effect_ret cmd).history)
    obtain ⟨same, -, bag⟩ := env.ret_bag name cmd
    refine ⟨same.trans here, ?_⟩
    rw [bag m runs, items, List.filterMap_append, List.filterMap_cons, List.filterMap_nil, rpc]
    cases m.payload.picked (Op.bagItem name) <;> rfl

/-- **Destinations are drawn in turn**, in every reachable state in which nothing but insertions
has been done to the bag. -/
theorem drawn_of_reachable (self : ∀ r, (start r).self = r)
    (fresh : ∀ r, (start r).bags name = ⟨0, []⟩)
    (h : (comm cfg env.program start fun r => .user (main r)).Reachable c) (r : Fin n)
    (calm : (c.rank r).mem.Calm name) : Drawn name r (c.rank r) := by
  refine h.invariant (I := fun c => ∀ r, (c.rank r).mem.Calm name → Drawn name r (c.rank r))
    ?_ ?_ r calm
  · intro r _
    refine ⟨?_, ?_, 0, ?_, ?_⟩
    · simp [comm, Rank.init, Rank.waiting, Rank.running, Rank.codes]
    · rintro k running
      cases running
      trivial
    · simp [comm, Rank.init, fresh r]
    · simp [comm, Rank.init, Rank.drawn, Rank.started, Rank.handed, Rank.codes, Code.bagDest]
  · intro c a d before inv taken i calm
    have calm' := calm.of_prefix (history_step taken i)
    have here := (bag_of_reachable self fresh before i calm').1
    have entered := fun k pc => ((inTurn_of_reachable before).entered i k pc).2
    rcases Sys.step_cases taken with
      ⟨r, flag, t, sent, -, move, rfl⟩ | ⟨r, src, t, stream, -, receive, rfl⟩
    · by_cases hi : i = r
      · subst hi
        have acts := move.acts ((Sys.routed_of_reachable before).rank i)
        simp only [Function.update_self] at calm ⊢
        refine acts.drawn (inv i calm') here calm fun k pc => ?_
        obtain ⟨value, -, cmd⟩ := entered k pc
        exact ⟨value, cmd⟩
      · simpa [hi] using inv i calm'
    · obtain ⟨listener, queue, eq⟩ := receive.frame i
      simp only [eq]
      exact ⟨(inv i calm').waiting, (inv i calm').running, (inv i calm').turns⟩

end Runs

/-! ## Behind a barrier -/

/-- The number of items that rank `s` has inserted in the epochs before `e`. -/
def Sys.insertsOf (name : ι) (c : Tables n ι K V A τ U) (e : ℕ) (s : Fin n) : ℕ :=
  (((c.issued.filter fun m => m.epoch < e).filter fun m => m.src = s).filterMap
    fun m => m.payload.picked (Op.bagItem name)).card

/-- The items inserted into the bag of a rank, with the ranks that have inserted them, in the
order of their execution. -/
def Rank.stored (name : ι) (s : Rank n (Payload ι K V A U) (Mem n ι K V A τ) (Value ι K V)
    (Code n ι K V A τ U)) : List (Fin n × V) :=
  s.executed.filterMap fun e => (e.rpc.payload.picked (Op.bagItem name)).map fun item =>
    (e.src, item)

/-- The number of items that rank `s` has inserted into the bag of this rank. -/
def Rank.storedFrom (name : ι) (rank : Rank n (Payload ι K V A U) (Mem n ι K V A τ)
    (Value ι K V) (Code n ι K V A τ U)) (s : Fin n) : ℕ :=
  (rank.stored name).countP fun entry => entry.1 = s

/-- **A bag has spread its items** over the ranks, behind a barrier that begins epoch `e`. -/
structure Spreads (name : ι) (at_rank : Fin n → Tables n ι K V A τ U) (c : Tables n ι K V A τ U)
    (e : ℕ) : Prop where
  /-- The bags of the ranks hold together the items inserted: no item is lost, and none is there
  twice. -/
  union : ∑ r, ((((at_rank r).rank r).mem.bags name).localBag : Multiset V)
    = c.inserted (Op.bagItem name) e
  /-- The items of each rank are spread evenly: any two ranks hold numbers of them that differ
  by at most one. -/
  even : ∀ s r r', ((at_rank r).rank r).storedFrom name s
    ≤ ((at_rank r').rank r').storedFrom name s + 1
  /-- If all ranks insert equally many items, each of them holds as many. -/
  level : ∀ m, (∀ s, c.insertsOf name e s = m) →
    ∀ r, (((at_rank r).rank r).mem.bags name).localBag.length = m

section Through

variable {cfg : Config} {env : Env n ι K V A τ U} {name : ι}
variable {start : Fin n → Mem n ι K V A τ} {main : Fin n → U}
variable {at_rank : Fin n → Tables n ι K V A τ U} {c : Tables n ι K V A τ U} {e : ℕ}

/-- Later states of the communicator have longer histories. -/
theorem history_leads {cfg : Config} {env : Env n ι K V A τ U}
    {start : Fin n → Mem n ι K V A τ} {main : Fin n → Code n ι K V A τ U}
    {c d : Tables n ι K V A τ U} (leads : (comm cfg env.program start main).Leads c d)
    (r : Fin n) : (c.rank r).mem.history <+: (d.rank r).mem.history := by
  induction leads with
  | refl => exact List.prefix_rfl
  | tail _ taken ih =>
      obtain ⟨a, taken⟩ := taken
      exact ih.trans (history_step taken r)

/-- **The destinations of the insertions of a rank** are those of the first turns of its
counter, one for each item. -/
theorem Through.turns (self : ∀ r, (start r).self = r)
    (fresh : ∀ r, (start r).bags name = ⟨0, []⟩)
    (run : Through cfg env start main (Event.DisturbsBag name) at_rank c e) (s : Fin n) :
    ((c.issued.filter fun m => m.epoch < e).filter fun m => m.src = s).filterMap
        (Rpc.bagDest name)
      = (Multiset.range (c.insertsOf name e s)).map (spread s) := by
  have card : ∀ calls : Multiset (Rpc n (Payload ι K V A U)),
      (calls.filterMap fun m => m.payload.picked (Op.bagItem name)).card
        = (calls.filterMap (Rpc.bagDest name)).card := by
    intro calls
    induction calls using Quotient.inductionOn with
    | h calls =>
        show (calls.filterMap _).length = (calls.filterMap _).length
        simp [List.length_filterMap_eq_countP, Rpc.bagDest]
  suffices drawn : ∃ turn, ((c.issued.filter fun m => m.epoch < e).filter
      fun m => m.src = s).filterMap (Rpc.bagDest name) = (Multiset.range turn).map (spread s) by
    obtain ⟨turn, drawn⟩ := drawn
    rw [Sys.insertsOf, card, drawn, Multiset.card_map, Multiset.card_range]
  cases e with
  | zero => exact ⟨0, by simp⟩
  | succ e =>
      have reached := (run.behind s).1
      have late : e + 1 ≤ (at_rank s).round := by
        rw [← run.epoch s]
        exact Sys.epoch_le_round reached s
      obtain ⟨d, before, leads, meeting⟩ := exists_meeting s.pos reached (by omega : e < _)
      have h : (comm cfg env.program start fun r => .user (main r)).Reachable d := before
      obtain ⟨waiting, -, turn, -, drawn⟩ := drawn_of_reachable self fresh h s
        (Mem.Calm.of_prefix (run.only s).steps (history_leads leads s))
      have idle : (d.rank s).running = none := by
        obtain ⟨first, second, pc⟩ := Pc.waiting_second (meeting.inside s)
        rcases pc with pc | pc <;> simp only [Rank.running, meeting.stack s, pc]
      rw [Rank.waiting_of_idle idle] at waiting
      rw [Rank.drawn_of_plain waiting] at drawn
      refine ⟨turn, ?_⟩
      -- all that is issued at the meeting has been issued before the epoch it begins
      have all : ∀ m ∈ d.issued, m.epoch < e + 1 := by
        intro m hm
        rw [meeting.executed h] at hm
        obtain ⟨i, -, hi⟩ := Multiset.mem_sum.mp hm
        obtain ⟨x, hx, rfl⟩ := List.mem_map.mp (Multiset.mem_coe.mp hi)
        obtain ⟨own, le⟩ := (Sys.epochs_of_reachable h).executed i x hx
        rw [← own]
        exact Nat.lt_succ_of_le (meeting.epoch i ▸ le)
      have own : d.issued.filter (fun m => m.src = s) = ((d.rank s).issued : Multiset _) := by
        have routed := Sys.routed_of_reachable h
        rw [Sys.issued, filter_sum, Finset.sum_eq_single s (fun i _ other => ?_) (by simp)]
        · exact Multiset.filter_eq_self.mpr (routed.rank s).issued
        · refine Multiset.filter_eq_nil.mpr fun m hm here => other ?_
          rw [← (routed.rank i).issued m hm, here]
      rw [← run.issued_eq s, Sys.issued_before h meeting.complete leads,
        Multiset.filter_eq_self.mpr all, own, ← drawn]
      simp [Rank.started, Rank.handed, meeting.stack s]

omit [LinearOrder K] in
/-- The number of items from rank `s` for rank `r` is the same, whether the calls are sorted by
destination or by origin. -/
theorem count_bagDest (name : ι) (s r : Fin n) (calls : Multiset (Rpc n (Payload ι K V A U))) :
    ((calls.filter fun m => m.dest = r).filterMap fun m =>
        (m.payload.picked (Op.bagItem name)).map fun item => (m.src, item)).countP
          (fun entry => entry.1 = s)
      = ((calls.filter fun m => m.src = s).filterMap (Rpc.bagDest name)).count r := by
  induction calls using Multiset.induction_on with
  | empty => rfl
  | cons m calls ih =>
      cases picked : m.payload.picked (Op.bagItem name) <;> by_cases dest : m.dest = r <;>
        by_cases src : m.src = s <;> simp [Rpc.bagDest, picked, dest, src, ih, @eq_comm _ r]

/-- Rank `r` holds an item of rank `s` for each turn in which the counter of `s` picks `r`. -/
theorem Through.storedFrom (self : ∀ r, (start r).self = r)
    (fresh : ∀ r, (start r).bags name = ⟨0, []⟩)
    (run : Through cfg env start main (Event.DisturbsBag name) at_rank c e) (s r : Fin n) :
    ((at_rank r).rank r).storedFrom name s = picks (2 ^ 64) n s (c.insertsOf name e s) r := by
  have stored : (((at_rank r).rank r).stored name : Multiset (Fin n × V))
      = ((c.issued.filter fun m => m.epoch < e).filter fun m => m.dest = r).filterMap fun m =>
          (m.payload.picked (Op.bagItem name)).map fun item => (m.src, item) := by
    rw [← run.calls r, Rank.done, Multiset.filterMap_coe, List.filterMap_map, Rank.stored]
    refine congrArg _ (List.filterMap_congr fun x hx => ?_)
    have src := (((Sys.routed_of_reachable (run.behind r).1).rank r).executed x hx).1
    simp [src]
  have counted := count_bagDest name s r (c.issued.filter fun m => m.epoch < e)
  rw [← stored, Multiset.coe_countP] at counted
  rw [Rank.storedFrom, counted, run.turns self fresh s, Multiset.count_map, picks, Nat.count_eq_card_filter_range]
  refine congrArg Multiset.card (Multiset.filter_congr fun k _ => ?_)
  rw [spread, Fin.ext_iff]
  exact eq_comm

/-- The bag of a rank holds the stored items in their order, and its length is the sum over all
ranks of the numbers of their items. -/
theorem Through.length_eq (self : ∀ r, (start r).self = r)
    (fresh : ∀ r, (start r).bags name = ⟨0, []⟩)
    (run : Through cfg env start main (Event.DisturbsBag name) at_rank c e) (r : Fin n) :
    (((at_rank r).rank r).mem.bags name).localBag
        = (((at_rank r).rank r).stored name).map Prod.snd ∧
      (((at_rank r).rank r).mem.bags name).localBag.length
        = ∑ s, ((at_rank r).rank r).storedFrom name s := by
  have items := (bag_of_reachable self fresh (run.behind r).1 r (run.only r).steps).2
  have same : (((at_rank r).rank r).mem.bags name).localBag
      = (((at_rank r).rank r).stored name).map Prod.snd := by
    rw [items, Rank.gathered, Rank.stored, List.map_filterMap]
    refine List.filterMap_congr fun x _ => ?_
    cases x.rpc.payload.picked (Op.bagItem name) <;> rfl
  have parts := congrArg Multiset.card
    (sum_filter_eq Prod.fst (((at_rank r).rank r).stored name : Multiset (Fin n × V)))
  refine ⟨same, ?_⟩
  rw [same, List.length_map, ← Multiset.coe_card, ← parts, Multiset.card_sum]
  refine Finset.sum_congr rfl fun s _ => ?_
  rw [Rank.storedFrom, ← Multiset.coe_countP, Multiset.countP_eq_card_filter]

/-- **No item of a bag is lost and none is doubled**, even if the counters wrap around. -/
theorem Through.union (self : ∀ r, (start r).self = r)
    (fresh : ∀ r, (start r).bags name = ⟨0, []⟩)
    (run : Through cfg env start main (Event.DisturbsBag name) at_rank c e) :
    ∑ r, ((((at_rank r).rank r).mem.bags name).localBag : Multiset V)
      = c.inserted (Op.bagItem name) e := by
  have items : ∀ r, ((((at_rank r).rank r).mem.bags name).localBag : Multiset V)
      = ((c.issued.filter fun m => m.epoch < e).filter fun m => m.dest = r).filterMap
          fun m => m.payload.picked (Op.bagItem name) := by
    intro r
    rw [(bag_of_reachable self fresh (run.behind r).1 r (run.only r).steps).2, Rank.gathered_eq,
      run.calls r]
  rw [Finset.sum_congr rfl fun r _ => items r, ← filterMap_sum, sum_filter_eq, Sys.inserted]

theorem Through.even_iff (ranks : n < 2 ^ 31) (self : ∀ r, (start r).self = r)
    (fresh : ∀ r, (start r).bags name = ⟨0, []⟩)
    (run : Through cfg env start main (Event.DisturbsBag name) at_rank c e) {s : Fin n}
    (few : c.insertsOf name e s < 2 ^ 64) :
    (∀ r r', ((at_rank r).rank r).storedFrom name s
        ≤ ((at_rank r').rank r').storedFrom name s + 1) ↔
      c.insertsOf name e s + s ≤ 2 ^ 64 ∨ 2 ^ 64 % n = 0 ∨ s ≤ 2 ^ 64 % n := by
  rw [← balanced_iff s.isLt (ranks.le.trans (by norm_num)) few]
  simp only [run.storedFrom self fresh]
  exact ⟨fun even j hj j' hj' => even ⟨j, hj⟩ ⟨j', hj'⟩, fun even r r' => even r r.isLt r' r'.isLt⟩

theorem Through.level_iff (pos : 0 < n) (ranks : n < 2 ^ 31) (self : ∀ r, (start r).self = r)
    (fresh : ∀ r, (start r).bags name = ⟨0, []⟩)
    (run : Through cfg env start main (Event.DisturbsBag name) at_rank c e) {m : ℕ}
    (few : m < 2 ^ 64) (all : ∀ s, c.insertsOf name e s = m) :
    (∀ r, (((at_rank r).rank r).mem.bags name).localBag.length = m) ↔
      m + n ≤ 2 ^ 64 + 1 ∨ 2 ^ 64 % n = 0 := by
  rw [← YGM.level_iff pos (ranks.le.trans (by norm_num)) few]
  simp only [(run.length_eq self fresh _).2, run.storedFrom self fresh, all]
  have sums : ∀ j, ∑ s : Fin n, picks (2 ^ 64) n s m j
      = ∑ s ∈ Finset.range n, picks (2 ^ 64) n s m j := fun j =>
    Fin.sum_univ_eq_sum_range (fun s => picks (2 ^ 64) n s m j) n
  simp only [sums]
  exact ⟨fun level j hj => level ⟨j, hj⟩, fun level r => level r r.isLt⟩

/-- **A bag spreads its items evenly and loses none, as long as no counter wraps around.**
Behind a barrier of a run that only inserts into a fresh bag, the bags of the ranks hold the
items inserted.  The items of each rank are spread evenly, and ranks that insert equally many
items get as many, exactly if the number of ranks divides `2 ^ 64`, or if the counter of each
rank, offset by the rank, stays within `2 ^ 64` or starts so low that it does not show. -/
theorem bag_spreads_iff (pos : 0 < n) (ranks : n < 2 ^ 31) (self : ∀ r, (start r).self = r)
    (fresh : ∀ r, (start r).bags name = ⟨0, []⟩)
    (run : Through cfg env start main (Event.DisturbsBag name) at_rank c e)
    (few : ∀ s, c.insertsOf name e s < 2 ^ 64) :
    (∑ r, ((((at_rank r).rank r).mem.bags name).localBag : Multiset V)
        = c.inserted (Op.bagItem name) e ∧
      ∀ r, (((at_rank r).rank r).mem.bags name).localBag
        = (((at_rank r).rank r).stored name).map Prod.snd) ∧
    (Spreads name at_rank c e ↔ 2 ^ 64 % n = 0 ∨
      (∀ s : Fin n, c.insertsOf name e s + s ≤ 2 ^ 64 ∨ s ≤ 2 ^ 64 % n) ∧
        ∀ m, (∀ s, c.insertsOf name e s = m) → m + n ≤ 2 ^ 64 + 1) := by
  have union := run.union self fresh
  have few' : ∀ {m}, (∀ s, c.insertsOf name e s = m) → m < 2 ^ 64 := by
    intro m all
    rw [← all ⟨0, pos⟩]
    exact few _
  refine ⟨⟨union, fun r => (run.length_eq self fresh r).1⟩, fun spreads => ?_, fun fits => ?_⟩
  · by_cases divides : 2 ^ 64 % n = 0
    · exact .inl divides
    · refine .inr ⟨fun s => ?_, fun m all => ?_⟩
      · rcases (run.even_iff ranks self fresh (few s)).mp (spreads.even s) with fits | zero | low
        · exact .inl fits
        · exact absurd zero divides
        · exact .inr low
      · exact ((run.level_iff pos ranks self fresh (few' all) all).mp
          (spreads.level m all)).resolve_right divides
  · refine ⟨union, fun s => (run.even_iff ranks self fresh (few s)).mpr ?_, fun m all =>
      (run.level_iff pos ranks self fresh (few' all) all).mpr ?_⟩
    · rcases fits with divides | ⟨fits, -⟩
      · exact .inr (.inl divides)
      · exact (fits s).imp_right .inr
    · rcases fits with divides | ⟨-, fits⟩
      · exact .inr divides
      · exact .inl (fits m all)

end Through

/-! ## Three ranks -/

/-- A program for each rank: insert the numbers from the one it starts with up to `m`, then ask
for the size of the bag. -/
def bagEnv (m : ℕ) : Env 3 Unit ℕ ℕ ℕ Unit ℕ where
  partitioner := hashPartitioner 3 UInt64.ofNat
  visitor _ := ⟨fun _ _ value => value, none⟩
  sort _ entries := entries
  next u _ :=
    if u < m then .bagInsert () u (u + 1)
    else if u = m then .collective (.size (.bag ())) fun _ => m + 1
    else .ret ()
  start _ u := u
  packedSize _ := 8
  offset_le := tableEnv_offset

def bagStart (r : Fin 3) : Mem 3 Unit ℕ ℕ ℕ Unit where
  self := r
  maps _ := ⟨0, .empty⟩
  sets _ := ⟨.empty⟩
  bags _ := ⟨0, []⟩
  files _ := none
  user := ()
  history := []

/-- The start of the program: rank 2 inserts `m` items, and the other ranks insert none. -/
def bagMain (m : ℕ) (r : Fin 3) : ℕ :=
  if r = 2 then 0 else m

/-- A configuration whose send buffers have room for all items, so that nothing is sent before
the barrier. -/
def bagConfig : Config :=
  ⟨2 ^ 67, false⟩

def bagComm (m : ℕ) : Machine (Tables 3 Unit ℕ ℕ ℕ Unit ℕ) (Action 3) :=
  comm bagConfig (bagEnv m).program bagStart fun r => .user (bagMain m r)

/-- All ranks are behind the barrier of `size`, and their histories hold operations only. -/
structure BagDone (m : ℕ) (c : Tables 3 Unit ℕ ℕ ℕ Unit ℕ) : Prop where
  reached : (bagComm m).Reachable c
  at_step : ∀ r, ∃ k, AtStep (c.rank r) (.size (.bag ())) k
  epoch : ∀ r, (c.rank r).epoch = 1
  history : ∀ r, (c.rank r).mem.history.all Event.isOp = true

theorem BagDone.through {m : ℕ} {c : Tables 3 Unit ℕ ℕ ℕ Unit ℕ} (done : BagDone m c) :
    Through bagConfig (bagEnv m) bagStart (bagMain m) (Event.DisturbsBag ()) (fun _ => c) c 1 where
  behind := fun r => ⟨done.reached, .inr ⟨_, done.at_step r⟩⟩
  epoch := done.epoch
  leads := fun _ => .refl
  only := fun r => ⟨fun _ _ _ _ => id, fun step taken => by
    cases List.all_eq_true.mp (done.history r) _ taken⟩

/-- The state of the program with four items in which all ranks are behind the barrier. -/
def bagState : Tables 3 Unit ℕ ℕ ℕ Unit ℕ :=
  (bagComm 4).drive (fun _ _ => True) (bagComm 4).init
    (mains 2 40 ++ [.listen 0 2, .listen 1 2] ++ mains 0 40 ++ mains 1 40 ++
      (List.replicate 5 (mains 0 1 ++ mains 1 1 ++ mains 2 1)).flatten)

/-- Four items of one rank are spread evenly over three ranks. -/
theorem bag_spreads_iff_four :
    (List.finRange 3).map (fun r => ((bagState.rank r).mem.bags ()).localBag) = [[1], [2], [0, 3]] ∧
      Spreads () (fun _ => bagState) bagState 1 := by
  have users : ∀ r, (bagState.rank r).pc.isUser = true := by decide +kernel
  have codes : ∀ r, (bagState.rank r).code.sizeOf? = some (.bag ()) := by decide +kernel
  have done : BagDone 4 bagState := ⟨Machine.ReachableBy.init.drive _,
    fun r => AtStep.of_size (users r) (codes r), by decide +kernel, by decide +kernel⟩
  have few : ∀ s, bagState.insertsOf () 1 s ≤ 4 := by decide +kernel
  refine ⟨by decide +kernel, (bag_spreads_iff (by decide) (by decide) (fun _ => rfl)
    (fun _ => rfl) done.through fun s => (few s).trans_lt (by decide)).2.mpr
      (.inr ⟨fun s => .inl ?_, fun m all => ?_⟩)⟩
  · exact (Nat.add_le_add (few s) s.isLt.le).trans (by decide)
  · exact (Nat.add_le_add_right (all 0 ▸ few 0) 3).trans (by decide)

/-! ### A counter that wraps around -/

abbrev BagRank : Type :=
  Rank 3 (Payload Unit ℕ ℕ ℕ ℕ) (Mem 3 Unit ℕ ℕ ℕ Unit) (Value Unit ℕ ℕ)
    (Code 3 Unit ℕ ℕ ℕ Unit ℕ)

/-- A call of rank 2 that inserts an item into the bag before the barrier. -/
def Rpc.Inserts (m : Rpc 3 (Payload Unit ℕ ℕ ℕ ℕ)) : Prop :=
  m.src = 2 ∧ m.epoch = 0 ∧ ∃ item, m.payload = .op (.bagInsert () item)

/-- **Rank 2 has inserted `k` items**, all of which wait in its send buffers. -/
structure Filled (k : ℕ) (s : BagRank) : Prop where
  pc : s.pc = .user
  stack : s.stack = []
  code : s.code = .user k
  queue : s.receiveQueue = []
  posts : s.barrierPosts = []
  epoch : s.epoch = 0
  counter : (s.mem.bags ()).roundRobin = UInt64.ofNat k
  self : s.mem.self = 2
  history : s.mem.history.all Event.isOp = true
  own : s.sendBuffers 2 = []
  counts : s.sendCount - s.recvCount = (s.sendBuffers 0).length + (s.sendBuffers 1).length
  size : ∀ d, (s.sendBuffers d).length ≤ k
  inserts : ∀ d, ∀ m ∈ s.sendBuffers d, m.Inserts
  first : 1 < k → s.sendBuffers 0 ≠ []
  second : 2 < k → s.sendBuffers 1 ≠ []
  length : s.issued.length = k
  issued : ∀ m ∈ s.issued, m.Inserts

theorem bufferSize_bag (m : ℕ) (msgs : List (Rpc 3 (Payload Unit ℕ ℕ ℕ ℕ))) :
    (bagEnv m).program.bufferSize msgs = 8 * msgs.length := by
  simp [Program.bufferSize, Env.program, bagEnv, mul_comm]

theorem Filled.step {m k : ℕ} {s : BagRank} (h : Filled k s) (more : k < m) (room : m ≤ 2 ^ 64) :
    ∃ t, Alone bagConfig (bagEnv m).program 2 s t ∧ Filled (k + 1) t := by
  set dest : Fin 3 := spread 2 k with hdest
  set call : Rpc 3 (Payload Unit ℕ ℕ ℕ ℕ) := ⟨2, dest, .op (.bagInsert () k), 0, s.cuts⟩ with hcall
  set mem : Mem 3 Unit ℕ ℕ ℕ Unit := s.mem.setBag ()
    { s.mem.bags () with roundRobin := (s.mem.bags ()).roundRobin + 1 } with hmem
  have drawn : (s.mem.bags ()).dest s.mem.self = dest := by
    rw [BagImpl.dest_eq h.counter, h.self]
  have draws : Alone bagConfig (bagEnv m).program 2 s
      { s with mem := mem, code := .issue dest (.bagInsert () k) (.user (k + 1)), stack := [] } :=
    .single fun w => by
      simp [mainStep, h.stack, topStep, h.pc, h.code, Env.program, bagEnv, more, Env.command,
        userStep, Rank.resume, drawn, hmem]
  have counter : (mem.bags ()).roundRobin = UInt64.ofNat (k + 1) := by
    simp [hmem, Mem.setBag, h.counter, UInt64.ofNat_add]
  have issues : (bagEnv m).program.next (.issue dest (.bagInsert () k) (.user (k + 1))) mem
      = .async dest (.op (.bagInsert () k)) (.user (k + 1)) := rfl
  have inserts : call.Inserts := ⟨rfl, rfl, k, rfl⟩
  have issued : ∀ m ∈ s.issued ++ [call], m.Inserts := by
    intro m hm
    rcases List.mem_append.mp hm with old | new
    · exact h.issued m old
    · rwa [List.mem_singleton.mp new]
  by_cases own : dest = 2
  · -- the handler runs at once
    have late : k ≠ 1 ∧ k ≠ 2 := by
      refine ⟨?_, ?_⟩ <;> rintro rfl <;> exact absurd own (by rw [hdest]; decide)
    have performed : (bagEnv m).program.next (.serve 2 (.bagInsert () k)) mem
        = .ret ((bagEnv m).perform 2 (mem.log (.op 2 (.bagInsert () k))) (.bagInsert () k)) := rfl
    refine ⟨{ s with
      mem := (bagEnv m).perform 2 (mem.log (.op 2 (.bagInsert () k))) (.bagInsert () k)
      code := .user (k + 1)
      issued := s.issued ++ [call]
      executed := s.executed ++ [⟨2, call, s.epoch, s.cuts⟩]
      stack := [] }, draws.trans ?_, ?_⟩
    · refine .head (b := { s with
        mem := mem
        code := .user (k + 1)
        issued := s.issued ++ [call]
        stack := [.user (.self call) (.serve 2 (.bagInsert () k)), .peek] }) (fun w => ?_) ?_
      · simp [mainStep, topStep, h.pc, Env.program, userStep, async, own, Rank.resume, Rank.call,
          Rank.issueEpoch, h.epoch, hcall, Rank.cuts]
      · refine .head (b := { s with
          mem := (bagEnv m).perform 2 (mem.log (.op 2 (.bagInsert () k))) (.bagInsert () k)
          code := .user (k + 1)
          issued := s.issued ++ [call]
          executed := s.executed ++ [⟨2, call, s.epoch, s.cuts⟩]
          stack := [.peek] }) (fun w => ?_) (.single fun w => ?_)
        · simp [mainStep, frameStep, performed, userStep, Rank.finish, Rank.cuts]
        · simp [mainStep, frameStep, h.queue]
    · refine ⟨h.pc, rfl, rfl, h.queue, h.posts, h.epoch, ?_, h.self, ?_, h.own, h.counts,
        fun d => (h.size d).trans k.le_succ, h.inserts, fun lt => h.first ?_,
        fun lt => h.second ?_, by simp [h.length], issued⟩
      · simpa [Env.perform, Mem.setBag, BagImpl.insert, Mem.log] using counter
      · simp [Env.perform, Mem.setBag, Mem.log, hmem, h.history, Event.isOp]
      · omega
      · omega
  · -- the item is stored in a send buffer
    have few := h.size dest
    refine ⟨{ s with
      mem := mem
      code := .user (k + 1)
      sendCount := s.sendCount + 1
      localBytesSent := s.localBytesSent + 8
      sendBuffers := Function.update s.sendBuffers dest (s.sendBuffers dest ++ [call])
      issued := s.issued ++ [call]
      stack := [] }, draws.trans ?_, ?_⟩
    · refine .head (b := { s with
        mem := mem
        code := .user (k + 1)
        sendCount := s.sendCount + 1
        localBytesSent := s.localBytesSent + 8
        stack := [.store call, .peek] }) (fun w => ?_) ?_
      · have size : ∀ p, (bagEnv m).program.packedSize p = 8 := fun _ => rfl
        simp [mainStep, topStep, h.pc, issues, userStep, async, own, Rank.resume, Rank.call,
          Rank.issueEpoch, h.epoch, hcall, Rank.cuts, bagConfig, size, bufferSize_bag]
        omega
      · refine .head (b := { s with
          mem := mem
          code := .user (k + 1)
          sendCount := s.sendCount + 1
          localBytesSent := s.localBytesSent + 8
          sendBuffers := Function.update s.sendBuffers dest (s.sendBuffers dest ++ [call])
          issued := s.issued ++ [call]
          stack := [.peek] }) (fun w => ?_) (.single fun w => ?_)
        · simp [mainStep, frameStep, hcall]
        · simp [mainStep, frameStep, h.queue]
    · have others : dest = 0 ∨ dest = 1 := by
        revert own
        generalize dest = d
        revert d
        decide
      refine ⟨h.pc, rfl, rfl, h.queue, h.posts, h.epoch, counter, h.self, ?_, ?_, ?_, fun d => ?_,
        fun d => ?_, fun lt => ?_, fun lt => ?_, by simp [h.length], issued⟩
      · simpa [hmem, Mem.setBag] using h.history
      · rcases others with here | here <;> simp [here, h.own]
      · have counts := h.counts
        rcases others with here | here <;> simp [here] <;> omega
      · have size := h.size d
        by_cases here : d = dest
        · subst here
          simpa using size
        · simpa [here] using size.trans k.le_succ
      · by_cases here : d = dest
        · subst here
          intro x hx
          simp only [Function.update_self] at hx
          rcases List.mem_append.mp hx with old | new
          · exact h.inserts _ x old
          · rwa [List.mem_singleton.mp new]
        · simpa [here] using h.inserts d
      · rcases others with here | here
        · simp [here]
        · have late : k ≠ 1 := by
            rintro rfl
            exact absurd here (by rw [hdest]; decide)
          simpa [here] using h.first (by omega)
      · rcases others with here | here
        · have late : k ≠ 2 := by
            rintro rfl
            exact absurd here (by rw [hdest]; decide)
          simpa [here] using h.second (by omega)
        · simp [here]

theorem exists_filled {m : ℕ} (room : m ≤ 2 ^ 64) {k : ℕ} (le : k ≤ m) :
    ∃ t, Alone bagConfig (bagEnv m).program 2 (Rank.init (bagStart 2) (.user 0)) t ∧
      Filled k t := by
  induction k with
  | zero =>
      refine ⟨_, .refl, rfl, rfl, rfl, rfl, rfl, rfl, rfl, rfl, rfl, rfl, rfl, fun _ => le_rfl,
        ?_, ?_, ?_, rfl, ?_⟩
      all_goals simp [Rank.init]
  | succ k ih =>
      obtain ⟨s, before, filled⟩ := ih (by omega)
      obtain ⟨t, steps, filled⟩ := filled.step (by omega) room
      exact ⟨t, before.trans steps, filled⟩

/-- A rank that parses a buffer of insertions inserts all of its items, one after the other,
without a step of another rank. -/
theorem parse_alone {m : ℕ} (d : Fin 3) (msgs : List (Rpc 3 (Payload Unit ℕ ℕ ℕ ℕ)))
    (inserts : ∀ x ∈ msgs, x.Inserts) {rest : List (Frame 3 (Payload Unit ℕ ℕ ℕ ℕ)
      (Code 3 Unit ℕ ℕ ℕ Unit ℕ))} {s : BagRank} (stack : s.stack = .parse 2 msgs :: rest)
    (history : s.mem.history.all Event.isOp = true) :
    ∃ t : BagRank, Alone bagConfig (bagEnv m).program d s t ∧
      t = { s with
        mem := t.mem
        stack := .parse 2 [] :: rest
        recvCount := s.recvCount + msgs.length
        localRpcCalls := t.localRpcCalls
        executed := t.executed } ∧ t.mem.history.all Event.isOp = true := by
  induction msgs generalizing s with
  | nil => exact ⟨s, .refl, by simp [← stack], history⟩
  | cons x msgs ih =>
      obtain ⟨-, -, item, payload⟩ := inserts x (by simp)
      have handler : (bagEnv m).program.handler 2 x.payload
          = .serve 2 (.bagInsert () item) := by simp [Env.program, payload]
      have performed : (bagEnv m).program.next (.serve 2 (.bagInsert () item)) s.mem
          = .ret ((bagEnv m).perform 2 (s.mem.log (.op 2 (.bagInsert () item)))
              (.bagInsert () item)) := rfl
      let next : BagRank := { s with
        mem := (bagEnv m).perform 2 (s.mem.log (.op 2 (.bagInsert () item))) (.bagInsert () item)
        stack := .parse 2 msgs :: rest
        recvCount := s.recvCount + 1
        localRpcCalls := s.localRpcCalls + 1
        executed := s.executed ++ [⟨2, x, s.epoch, s.cuts⟩] }
      obtain ⟨t, steps, same, history⟩ := ih (fun y hy => inserts y (by simp [hy])) (s := next) rfl
        (by simp [next, Env.perform, Mem.setBag, Mem.log, history, Event.isOp])
      refine ⟨t, .head (b := { s with
          stack := .user (.remote 2 x msgs) (.serve 2 (.bagInsert () item)) :: rest })
        (fun w => ?_) (.head (b := next) (fun w => ?_) steps), ?_, history⟩
      · simp [mainStep, stack, frameStep, handler]
      · simp [mainStep, frameStep, performed, userStep, Rank.finish, next, Rank.cuts]
      · rw [same]
        simp [next]
        omega

/-- **A rank is about to take its first sample** in the barrier of `size`. -/
structure Sampling (m : ℕ) (count : ℤ) (s : BagRank) : Prop where
  pc : s.pc = .sample
  stack : s.stack = []
  code : s.code = .step (.size (.bag ())) fun _ => m + 1
  posts : s.barrierPosts = []
  epoch : s.epoch = 0
  counts : s.sendCount - s.recvCount = count
  history : s.mem.history.all Event.isOp = true

/-- A rank that inserts no item itself and has received a buffer inserts the items of the
buffer, and comes to its first sample. -/
theorem enters_alone {m : ℕ} {d : Fin 3} {msgs : List (Rpc 3 (Payload Unit ℕ ℕ ℕ ℕ))}
    (inserts : ∀ x ∈ msgs, x.Inserts) :
    ∃ t, Alone bagConfig (bagEnv m).program d
        { (Rank.init (bagStart d) (.user m) : BagRank) with receiveQueue := [(msgs, 2)] } t ∧
      Sampling m (-msgs.length) t ∧ t.issued = [] := by
  let entered : BagRank := { (Rank.init (bagStart d) (.user m) : BagRank) with
    pc := .sample
    code := .step (.size (.bag ())) fun _ => m + 1
    stack := [.parse 2 msgs, .idle] }
  obtain ⟨t, steps, same, history⟩ := parse_alone (m := m) d msgs inserts (s := entered) rfl rfl
  refine ⟨{ t with received := false, stack := [] }, ?_, ?_, ?_⟩
  · refine .head (b := { (Rank.init (bagStart d) (.user m) : BagRank) with
        receiveQueue := [(msgs, 2)]
        pc := .sample
        code := .step (.size (.bag ())) fun _ => m + 1
        stack := [.recv false, .idle] }) (fun w => ?_) (.head (b := entered) (fun w => ?_)
          (steps.trans ?_))
    · simp [mainStep, Rank.init, topStep, Env.program, bagEnv, Env.command, userStep]
    · simp [mainStep, frameStep, entered, Rank.init]
    · refine .head (b := { t with stack := [.recv true, .idle] }) (fun w => ?_)
        (.head (b := { t with received := true, stack := [.idle] }) (fun w => ?_) ?_)
      · rw [same]
        simp [mainStep, frameStep]
      · rw [same]
        simp [mainStep, frameStep, entered, Rank.init]
      · have idle : Alone bagConfig (bagEnv m).program d { t with received := true, stack := [.idle] }
            { t with received := false, stack := [] } := by
          refine idle_alone (fun _ _ => ?_) ?_ rfl
          · rw [same]
            rfl
          · rw [same]
            rfl
        exact idle
  · refine ⟨?_, rfl, ?_, ?_, ?_, ?_, history⟩
    all_goals rw [same]
    all_goals simp [entered, Rank.init]
  · rw [same]
    rfl

/-- Rank 2 flushes its two full send buffers when it enters the barrier, and comes to its first
sample. -/
theorem Filled.flushes {m : ℕ} {s : BagRank} (h : Filled m s) (more : 2 < m)
    (ranks : Fin 3 → BagRank) : ∃ t,
    (bagComm m).Leads ⟨Function.update ranks 2 s, fun _ _ => []⟩ ⟨Function.update ranks 2 t,
        Sys.send (Sys.send (fun _ _ => []) 2 (some (0, .buffer (s.sendBuffers 0)))) 2
          (some (1, .buffer (s.sendBuffers 1)))⟩ ∧
      Sampling m ((s.sendBuffers 0).length + (s.sendBuffers 1).length) t ∧
      t.issued = s.issued := by
  let first : BagRank := { s with
    pc := .sample
    code := .step (.size (.bag ())) fun _ => m + 1
    received := false
    stack := [.flush 0, .flushAll 2, .recv false, .idleTest] }
  let second : BagRank := { first with
    sendBuffers := Function.update s.sendBuffers 0 []
    stack := [.flush 1, .flushAll 3, .recv false, .idleTest] }
  let last : BagRank := { second with
    sendBuffers := Function.update second.sendBuffers 1 []
    stack := [] }
  have enters : Alone bagConfig (bagEnv m).program 2 s first := by
    refine .head (b := { s with
        pc := .sample
        code := .step (.size (.bag ())) fun _ => m + 1
        stack := [.recv false, .idle] }) (fun w => ?_) ?_
    · simp [mainStep, h.stack, topStep, h.pc, h.code, Env.program, bagEnv, Env.command, userStep]
    · refine .head (b := { first with stack := [.idle] }) (fun w => ?_)
        (.head (b := { first with stack := [.flushAll 0, .recv false, .idleTest] }) (fun w => ?_)
          (.head (b := { first with stack := [.flush 2, .flushAll 1, .recv false, .idleTest] })
            (fun w => ?_) (.head (b := { first with stack := [.flushAll 1, .recv false, .idleTest] })
              (fun w => ?_) (.single fun w => ?_))))
      · simp [mainStep, frameStep, h.queue, first]
      · simp [mainStep, frameStep, first]
      · simp [mainStep, frameStep, first, flushDest]
      · simp [mainStep, frameStep, first, asyncFlush]
      · simp [mainStep, frameStep, first, flushDest]
  have goes : Alone bagConfig (bagEnv m).program 2
      { first with
        sendBuffers := Function.update s.sendBuffers 0 []
        stack := [.flushAll 2, .recv false, .idleTest] } second :=
    .single fun w => by simp [mainStep, frameStep, second, flushDest]
  have ends : Alone bagConfig (bagEnv m).program 2
      { last with stack := [.flushAll 3, .recv false, .idleTest] } last := by
    refine .head (b := { last with stack := [.recv false, .idleTest] }) (fun w => ?_)
      (.head (b := { last with stack := [.idleTest] }) (fun w => ?_) (.single fun w => ?_))
    · simp [mainStep, frameStep]
    · simp [mainStep, frameStep, last, second, first, h.queue]
    · simp [mainStep, frameStep, last, second, first]
  refine ⟨last, ?_, ?_, rfl⟩
  · have sends0 : (bagComm m).Leads ⟨Function.update ranks 2 first, fun _ _ => []⟩
        ⟨Function.update ranks 2 { first with
            sendBuffers := Function.update s.sendBuffers 0 []
            stack := [.flushAll 2, .recv false, .idleTest] },
          Sys.send (fun _ _ => []) 2 (some (0, .buffer (s.sendBuffers 0)))⟩ :=
      leads_flush rfl (by decide) (by exact h.first (by omega)) rfl ranks _
    have kept : second.sendBuffers 1 = s.sendBuffers 1 := by simp [second]
    refine (enters.leads ranks _).trans (sends0.trans ((goes.leads ranks _).trans
      (.trans ?_ (ends.leads ranks _))))
    rw [← kept]
    exact leads_flush rfl (by decide) (kept ▸ h.second more) rfl ranks _
  · exact ⟨rfl, rfl, rfl, h.posts, h.epoch, h.counts, h.history⟩

/-- A rank other than 2 receives its buffer, inserts the items, and comes to its first sample. -/
theorem leads_sampling {m : ℕ} {d : Fin 3} (other : d ≠ 2)
    {msgs : List (Rpc 3 (Payload Unit ℕ ℕ ℕ ℕ))} (inserts : ∀ x ∈ msgs, x.Inserts)
    (few : msgs.length ≤ 2 ^ 64) {ranks : Fin 3 → BagRank}
    {net : Fin 3 → Fin 3 → List (Packet 3 (Payload Unit ℕ ℕ ℕ ℕ))}
    (rank : ranks d = Rank.init (bagStart d) (.user m)) (stream : net 2 d = [.buffer msgs]) :
    ∃ t net', (bagComm m).Leads ⟨ranks, net⟩ ⟨Function.update ranks d t, net'⟩ ∧
      (∀ i, i ≠ d → net' 2 i = net 2 i) ∧ Sampling m (-msgs.length) t ∧ t.issued = [] := by
  obtain ⟨t, alone, sampling, issued⟩ := enters_alone (m := m) (d := d) inserts
  refine ⟨t, Function.update net 2 (Function.update (net 2) d []),
    .trans (.single ⟨.listen d 2, ?_⟩) (alone.leads ranks _), fun i hi => by simp [hi], sampling,
    issued⟩
  have fits : (bagEnv m).program.bufferSize msgs ≤ bagConfig.bufferCapacity := by
    rw [bufferSize_bag]
    exact (Nat.mul_le_mul_left 8 few).trans (by decide)
  show Sys.step bagConfig (bagEnv m).program ⟨ranks, net⟩ (.listen d 2) = _
  simp [Sys.step, listenStep, rank, stream, fits, other.symm, Rank.init]

/-- **A run of the program with any number of items up to `2 ^ 64`** comes to a state in which
all ranks are behind the barrier. -/
theorem exists_bagDone {m : ℕ} (more : 2 < m) (room : m ≤ 2 ^ 64) :
    ∃ c, BagDone m c ∧ ∃ calls : List (Rpc 3 (Payload Unit ℕ ℕ ℕ ℕ)), c.issued = calls ∧
      calls.length = m ∧ ∀ x ∈ calls, x.Inserts := by
  obtain ⟨s, fills, filled⟩ := exists_filled room le_rfl
  let ranks (r : Fin 3) : BagRank := Rank.init (bagStart r) (.user (bagMain m r))
  obtain ⟨t, flushes, sampling, issued⟩ := filled.flushes more ranks
  let net := Sys.send (Sys.send (fun _ _ => []) 2 (some (0, .buffer (s.sendBuffers 0)))) 2
    (some (1, .buffer (s.sendBuffers 1)))
  have rank0 : Function.update ranks 2 t 0 = Rank.init (bagStart 0) (.user m) := rfl
  have stream0 : net 2 0 = [.buffer (s.sendBuffers 0)] := rfl
  obtain ⟨t0, net0, leads0, rest, sampling0, issued0⟩ := leads_sampling (by decide)
    (filled.inserts 0) ((filled.size 0).trans room) rank0 stream0
  have rank1 : Function.update (Function.update ranks 2 t) 0 t0 1
      = Rank.init (bagStart 1) (.user m) := rfl
  have stream1 : net0 2 1 = [.buffer (s.sendBuffers 1)] := rest 1 (by decide)
  obtain ⟨t1, net1, leads1, -, sampling1, issued1⟩ := leads_sampling (by decide)
    (filled.inserts 1) ((filled.size 1).trans room) rank1 stream1
  let waits := Function.update (Function.update (Function.update ranks 2 t) 0 t0) 1 t1
  let count : Fin 3 → ℤ := ![-(s.sendBuffers 0).length, -(s.sendBuffers 1).length,
    (s.sendBuffers 0).length + (s.sendBuffers 1).length]
  have all : ∀ r, Sampling m (count r) (waits r)
    | 0 => sampling0
    | 1 => sampling1
    | 2 => sampling
  have starts : (bagComm m).Leads (bagComm m).init ⟨Function.update ranks 2 s, fun _ _ => []⟩ := by
    have begins : Function.update ranks 2 (Rank.init (bagStart 2) (.user 0)) = ranks :=
      Function.update_eq_self 2 ranks
    have steps : (bagComm m).Leads
        ⟨Function.update ranks 2 (Rank.init (bagStart 2) (.user 0)), fun _ _ => []⟩
        ⟨Function.update ranks 2 s, fun _ _ => []⟩ := fills.leads ranks _
    rwa [begins] at steps
  have leaves : (bagComm m).Leads ⟨waits, net1⟩ ⟨fun r => { waits r with
      pc := .user
      epoch := (waits r).epoch + 1
      barrierPosts := [(.first, count r), (.second, count r)] }, net1⟩ := by
    refine leads_barrier (fun r => (all r).pc) (fun r => (all r).stack) (fun r => (all r).posts)
      (fun r => (all r).counts) ?_
    simp [Fin.sum_univ_succ, count]
  refine ⟨_, ⟨Machine.Reachable.init.leads (starts.trans (flushes.trans (leads0.trans
    (leads1.trans leaves)))), fun r => ⟨_, rfl, (all r).code⟩, fun r => ?_, fun r => (all r).history⟩,
    s.issued, ?_, filled.length, filled.issued⟩
  · simp [(all r).epoch]
  · have calls : ∀ r, (waits r).issued = if r = 2 then s.issued else []
      | 0 => issued0
      | 1 => issued1
      | 2 => issued
    simp [Sys.issued, calls, Fin.sum_univ_succ]

/-- **A counter that wraps around.**  In a run in which rank 2 of three has inserted
`2 ^ 64 - 1` items, and the others none, rank 0 has got two of them more than rank 1. -/
theorem bag_spreads_wraps : ∃ c, Through bagConfig (bagEnv (2 ^ 64 - 1)) bagStart
      (bagMain (2 ^ 64 - 1)) (Event.DisturbsBag ()) (fun _ => c) c 1 ∧
    (∀ s, c.insertsOf () 1 s = if s = 2 then 2 ^ 64 - 1 else 0) ∧
    (c.rank 0).storedFrom () 2 = (c.rank 1).storedFrom () 2 + 2 ∧
    ¬ Spreads () (fun _ => c) c 1 := by
  obtain ⟨c, done, calls, issued, length, inserts⟩ := exists_bagDone (m := 2 ^ 64 - 1)
    (by norm_num) (by norm_num)
  have run := done.through
  have numbers : ∀ s, c.insertsOf () 1 s = if s = 2 then 2 ^ 64 - 1 else 0 := by
    intro s
    have early : ∀ x ∈ (calls : Multiset (Rpc 3 (Payload Unit ℕ ℕ ℕ ℕ))), x.epoch < 1 := by
      intro x hx
      simp [(inserts x hx).2.1]
    rw [Sys.insertsOf, issued, Multiset.filter_eq_self.mpr early]
    by_cases own : s = 2
    · have here : ∀ x ∈ (calls : Multiset (Rpc 3 (Payload Unit ℕ ℕ ℕ ℕ))), x.src = s :=
        fun x hx => (inserts x hx).1.trans own.symm
      have items : ∀ x ∈ calls, (x.payload.picked (Op.bagItem ())).isSome = true := by
        intro x hx
        obtain ⟨-, -, item, payload⟩ := inserts x hx
        rw [payload]
        rfl
      rw [Multiset.filter_eq_self.mpr here, Multiset.filterMap_coe, Multiset.coe_card,
        List.length_filterMap_eq_countP, List.countP_eq_length.mpr items, length, if_pos own]
    · have none : ∀ x ∈ (calls : Multiset (Rpc 3 (Payload Unit ℕ ℕ ℕ ℕ))), ¬ x.src = s :=
        fun x hx here => own (here.symm.trans (inserts x hx).1)
      rw [Multiset.filter_eq_nil.mpr none, if_neg own]
      rfl
  have stored : ∀ r, (c.rank r).storedFrom () 2 = picks (2 ^ 64) 3 2 (2 ^ 64 - 1) r := by
    intro r
    have turns := run.storedFrom (fun _ => rfl) (fun _ => rfl) 2 r
    rwa [numbers 2, if_pos rfl] at turns
  have apart : (c.rank 0).storedFrom () 2 = (c.rank 1).storedFrom () 2 + 2 := by
    have most := picks_of_wrap (w := 2 ^ 64) (n := 3) (s := 2) (m := 2 ^ 64 - 1) (j := 0)
      (by norm_num) (by norm_num) (by norm_num) (by norm_num) (by norm_num)
    have least := picks_of_wrap (w := 2 ^ 64) (n := 3) (s := 2) (m := 2 ^ 64 - 1) (j := 1)
      (by norm_num) (by norm_num) (by norm_num) (by norm_num) (by norm_num)
    rw [stored 0, stored 1]
    norm_num at most least ⊢
    omega
  refine ⟨c, run, numbers, apart, fun spreads => ?_⟩
  have close := spreads.even 2 0 1
  omega

end YGM
