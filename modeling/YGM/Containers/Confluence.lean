import YGM.Comm.Meeting
import YGM.Containers.Epochs

/-!
# Runs that only insert end in the same tables

What a table holds after a barrier, if nothing is done to it but insertions, depends only
on which insertions were called: not on the ranks that called them, nor on the order in
which they were executed (`inserts_confluent`).

`Env.Gathers` is what is needed of a table: its contents are described by the list of the
items inserted, an insertion extends that list, and what does not disturb the table keeps
it.  It is shown of `set_impl` and, for a multimap, of `map_impl`.  The rest is the same for
both: the items inserted on a rank are those of the calls executed there, and behind a
barrier these are the calls issued before whose key the rank owns.
-/

namespace YGM

variable {n : ℕ} {ι K V A τ U α : Type} [DecidableEq ι] [LinearOrder K]

/-! ## Where operations are executed -/

/-- The key of an operation on a map or a set; `none` for the insertion into a bag. -/
def Op.key : Op ι K V A → Option K
  | .mapInsertUnique _ key _ | .mapInsertMulti _ key _ | .mapVisit _ key _
  | .mapVisitIfExists _ key _ | .mapErase _ key | .setInsertUnique _ key
  | .setInsertMulti _ key | .setErase _ key => some key
  | .bagInsert _ _ => none

/-- The insertion of an operation matches its container: maps and sets are given unique
insertions, multimaps and multisets the other ones. -/
def Op.Fits : Op ι K V A → Prop
  | .mapInsertUnique id _ _ | .setInsertUnique id _ => id.multi = false
  | .mapInsertMulti id _ _ | .setInsertMulti id _ => id.multi = true
  | _ => True

/-- The map that an operation visits; `none` for operations that are no visits. -/
def Op.visits : Op ι K V A → Option (Id ι)
  | .mapVisit id _ _ | .mapVisitIfExists id _ _ => some id
  | _ => none

/-- An operation is sent to the owner of its key, with the insertion that matches its container. -/
def Env.Sends (env : Env n ι K V A τ U) (dest : Fin n) : Payload ι K V A U → Prop
  | .op o => (∀ key, o.key = some key → env.partitioner.owner key = dest) ∧ o.Fits
  | .user _ => True

/-- The code points that run for a call: a handler of an operation serves the operation of its
call, and a visit is one that its call asks for. -/
def Env.Runs (env : Env n ι K V A τ U) (cause : Option (Rpc n (Payload ι K V A U))) :
    Code n ι K V A τ U → Prop
  | .user _ => ∀ m, cause = some m → ∃ u, m.payload = .user u
  | .serve src o => ∃ m, cause = some m ∧ m.src = src ∧ m.payload = .op o ∧
      env.Sends m.dest (.op o)
  | .entry _ id _ _ _ | .visiting _ _ id _ _ _ =>
      ∃ m o, cause = some m ∧ m.payload = .op o ∧ o.visits = some id
  | .issue dest o k => env.Sends dest (.op o) ∧ env.Runs cause k
  | .step _ _ => cause = none

section Placing

variable {env : Env n ι K V A τ U}

theorem Env.command_runs {cause : Option (Rpc n (Payload ι K V A U))}
    {wrap : U → Code n ι K V A τ U}
    {ret : Mem n ι K V A τ → Cmd n (Payload ι K V A U) (Mem n ι K V A τ) (Value ι K V)
      (Code n ι K V A τ U)} (here : ∀ k, env.Runs cause (wrap k))
    (rets : ∀ mem, (ret mem).Keeps env.Runs env.Sends cause) (mem : Mem n ι K V A τ)
    (call : Call n ι K V A τ U) :
    (env.command mem wrap ret call).Keeps env.Runs env.Sends cause := by
  have main : cause = none → ∀ k, env.Runs none (wrap k) := by
    rintro rfl
    exact here
  cases call with
  | ret user => exact rets _
  | compute user k => exact here k
  | async dest u k => exact ⟨trivial, here k⟩
  | asyncFlush dest k => exact here k
  | asyncFlushAll k => exact here k
  | barrier k => exact fun none => main none k
  | allReduceSum value k => exact fun none _ => main none _
  | mapInsert id key value k =>
      refine ⟨?_, here k⟩
      cases multi : id.multi <;> exact ⟨fun _ same => by cases same; rfl, multi⟩
  | mapVisit id key a k => exact ⟨⟨fun _ same => by cases same; rfl, trivial⟩, here k⟩
  | mapVisitIfExists id key a k => exact ⟨⟨fun _ same => by cases same; rfl, trivial⟩, here k⟩
  | mapErase id key k => exact ⟨⟨fun _ same => by cases same; rfl, trivial⟩, here k⟩
  | setInsert id key k =>
      refine ⟨?_, here k⟩
      cases multi : id.multi <;> exact ⟨fun _ same => by cases same; rfl, multi⟩
  | setErase id key k => exact ⟨⟨fun _ same => by cases same; rfl, trivial⟩, here k⟩
  | bagInsert name item k => exact ⟨⟨nofun, trivial⟩, here k⟩
  | collective step k => exact fun _ => rfl
  | topk id k cfn next => exact fun none _ => main none _

/-- **The outline of all container programs**: operations go to the owners of their keys, and
handlers serve the operations of their calls. -/
def Env.placing (env : Env n ι K V A τ U) : Outline env.program where
  code := env.Runs
  call := env.Sends
  start := fun m call => by
    cases payload : m.payload with
    | op o => exact ⟨m, rfl, rfl, payload, payload ▸ call⟩
    | user u =>
        intro m' same
        cases same
        exact ⟨u, payload⟩
  next := fun cause k mem runs => by
    cases k with
    | user u =>
        refine env.command_runs (fun _ => ?_) (fun _ => ?_) mem _
        · exact runs
        · trivial
    | serve src o =>
        obtain ⟨m, same, -, payload, -⟩ := runs
        simp only [program, serve]
        split
        · split
          · trivial
          · exact ⟨m, _, same, payload, rfl⟩
        · split
          · trivial
          · exact ⟨m, _, same, payload, rfl⟩
        · trivial
    | entry src id key a pos =>
        simp only [program, visitEntry]
        repeat' split
        all_goals trivial
    | visiting u src id key a pos =>
        simp only [program]
        refine env.command_runs (fun _ => ?_) (fun _ => ?_) mem _
        · exact runs
        · exact runs
    | issue dest o k => exact runs
    | step step k =>
        cases runs
        have main : ∀ k, env.Runs none (.user k : Code n ι K V A τ U) := by
          intro k m none
          cases none
        simp only [program]
        split
        · trivial
        · exact main (k 0)
        · exact fun _ _ => main _

theorem Env.placing_main (env : Env n ι K V A τ U) (u : U) : env.placing.code none (.user u) := by
  intro m none
  cases none

end Placing

/-! ## What code does to the memory -/

/-- Code that is not the start of the handler of an operation, and is not about to issue an
operation. -/
def Code.Inner : Code n ι K V A τ U → Prop
  | .serve .. | .issue .. => False
  | _ => True

/-- **The effect of a step of user code on the tables of its rank**, with whether the step
returns from a handler. -/
inductive Env.Effect (env : Env n ι K V A τ U) (mem mem' : Mem n ι K V A τ) :
    Bool → Code n ι K V A τ U → Prop
  /-- The user's code goes on or returns, and leaves the tables and the history as they are. -/
  | user {returns : Bool} {k : Code n ι K V A τ U} (inner : k.Inner)
      (history : mem'.history = mem.history) (maps : mem'.maps = mem.maps)
      (sets : mem'.sets = mem.sets) : Effect env mem mem' returns k
  | perform {src : Fin n} {o : Op ι K V A}
      (eq : mem' = env.perform src (mem.log (.op src o)) o) :
      Effect env mem mem' true (.serve src o)
  /-- The handler of a visit starts to go through the entries, which may insert the default
  value into the visited map. -/
  | visit {src : Fin n} {o : Op ι K V A} {id : Id ι} (visits : o.visits = some id)
      (history : mem'.history = mem.history ++ [.op src o]) (sets : mem'.sets = mem.sets)
      (maps : ∀ id', id' ≠ id → mem'.maps id' = mem.maps id') :
      Effect env mem mem' false (.serve src o)
  | entry {src : Fin n} {id : Id ι} {key : K} {a : A} {pos : ℕ}
      (history : mem'.history = mem.history) (sets : mem'.sets = mem.sets)
      (maps : ∀ id', id' ≠ id → mem'.maps id' = mem.maps id') :
      Effect env mem mem' false (.entry src id key a pos)
  | step {step : LocalStep ι K V τ} {k : ℕ → U} {after : Mem n ι K V A τ}
      (taken : mem.localStep step = some (.inl after)) (eq : mem' = after.log (.step step)) :
      Effect env mem mem' false (.step step k)

/-- `command` changes only the part of the memory that is in no table and in no history. -/
theorem Env.command_tables {env : Env n ι K V A τ U} {wrap : U → Code n ι K V A τ U}
    {ret : Mem n ι K V A τ → Cmd n (Payload ι K V A U) (Mem n ι K V A τ) (Value ι K V)
      (Code n ι K V A τ U)} {mem mem' : Mem n ι K V A τ} {call : Call n ι K V A τ U}
    (rets : ∀ mem, ((∃ k', ret mem = .update mem' k') ∨ ret mem = .ret mem') → mem' = mem)
    (cmd : (∃ k', env.command mem wrap ret call = .update mem' k') ∨
      env.command mem wrap ret call = .ret mem') :
    mem'.history = mem.history ∧ mem'.maps = mem.maps ∧ mem'.sets = mem.sets := by
  cases call with
  | ret user =>
      rw [rets _ cmd]
      exact ⟨rfl, rfl, rfl⟩
  | compute user k | bagInsert name item k =>
      rcases cmd with ⟨k', cmd⟩ | cmd <;> cases cmd
      exact ⟨rfl, rfl, rfl⟩
  | _ => rcases cmd with ⟨k', cmd⟩ | cmd <;> cases cmd

/-- A step of the user's code, or of the calling code of a visitor, leaves the tables as they
are. -/
theorem Env.effect_user (env : Env n ι K V A τ U) {returns : Bool} {mem mem' : Mem n ι K V A τ}
    {k : Code n ι K V A τ U}
    (code : (∃ u, k = .user u) ∨ ∃ u src id key a pos, k = .visiting u src id key a pos)
    (cmd : (∃ k', env.program.next k mem = .update mem' k') ∨
      env.program.next k mem = .ret mem') : env.Effect mem mem' returns k := by
  rcases code with ⟨u, rfl⟩ | ⟨u, src, id, key, a, pos, rfl⟩
  all_goals
    simp only [program] at cmd
    obtain ⟨history, maps, sets⟩ := env.command_tables
      (by rintro mem (⟨k', eq⟩ | eq) <;> cases eq; rfl) cmd
    exact .user trivial history maps sets

theorem Env.effect_update (env : Env n ι K V A τ U) {mem mem' : Mem n ι K V A τ}
    {k k' : Code n ι K V A τ U} (cmd : env.program.next k mem = .update mem' k') :
    env.Effect mem mem' false k := by
  cases k with
  | user u => exact env.effect_user (.inl ⟨u, rfl⟩) (.inl ⟨k', cmd⟩)
  | visiting u src id key a pos =>
      exact env.effect_user (.inr ⟨u, src, id, key, a, pos, rfl⟩) (.inl ⟨k', cmd⟩)
  | serve src o =>
      simp only [program, serve] at cmd
      cases o with
      | mapVisit id key a =>
          cases calls : (env.visitor a).calls <;> simp only [calls] at cmd <;> cases cmd
          exact .visit rfl rfl rfl fun id' other => Function.update_of_ne other _ _
      | mapVisitIfExists id key a =>
          cases calls : (env.visitor a).calls <;> simp only [calls] at cmd <;> cases cmd
          exact .visit rfl rfl rfl fun _ _ => rfl
      | _ => cases cmd
  | entry src id key a pos =>
      simp only [program, visitEntry] at cmd
      split at cmd
      · cases cmd
      · split at cmd <;> cases cmd
        exact .entry rfl rfl fun id' other => Function.update_of_ne other _ _
  | issue dest o k => cases cmd
  | step step k =>
      simp only [program] at cmd
      split at cmd
      · cases cmd
      · cases cmd
        exact .step ‹_› rfl
      · cases cmd

theorem Env.effect_ret (env : Env n ι K V A τ U) {mem mem' : Mem n ι K V A τ}
    {k : Code n ι K V A τ U} (cmd : env.program.next k mem = .ret mem') :
    env.Effect mem mem' true k := by
  cases k with
  | user u => exact env.effect_user (.inl ⟨u, rfl⟩) (.inr cmd)
  | visiting u src id key a pos =>
      exact env.effect_user (.inr ⟨u, src, id, key, a, pos, rfl⟩) (.inr cmd)
  | serve src o =>
      simp only [program, serve] at cmd
      cases o with
      | mapVisit id key a | mapVisitIfExists id key a =>
          cases calls : (env.visitor a).calls <;> simp only [calls] at cmd <;> cases cmd
          exact .perform rfl
      | _ =>
          cases cmd
          exact .perform rfl
  | entry src id key a pos =>
      simp only [program, visitEntry] at cmd
      split at cmd
      · cases cmd
        exact .user trivial rfl rfl rfl
      · split at cmd <;> cases cmd
        exact .user trivial rfl rfl rfl
  | issue dest o k => cases cmd
  | step step k =>
      simp only [program] at cmd
      split at cmd <;> cases cmd
      exact .user trivial rfl rfl rfl

/-- A step of user code only adds to the history of its rank. -/
theorem Env.Effect.history {env : Env n ι K V A τ U} {mem mem' : Mem n ι K V A τ}
    {returns : Bool} {k : Code n ι K V A τ U} (effect : env.Effect mem mem' returns k) :
    mem.history <+: mem'.history := by
  cases effect with
  | user _ history | entry history => exact history ▸ List.prefix_rfl
  | @perform src o eq =>
      obtain ⟨-, history, -⟩ := env.perform_map src (mem.log (.op src o)) o
      rw [eq, history]
      exact List.prefix_append _ _
  | visit _ history => exact history ▸ List.prefix_append _ _
  | step taken eq =>
      subst eq
      simp only [Mem.log, Mem.localStep_history taken]
      exact List.prefix_append _ _

/-! ## Tables that are only inserted into -/

/-- The item that a call inserts according to `pick`; `none` for a function of the user's. -/
def Payload.picked (pick : Op ι K V A → Option α) : Payload ι K V A U → Option α
  | .op o => pick o
  | .user _ => none

/-- **A table that keeps what is inserted**: `pick` gives the item that an operation inserts,
`disturbs` marks the events that may change the table without inserting, and `holds` relates the
memory to the list of the items inserted, in their order. -/
structure Env.Gathers (env : Env n ι K V A τ U) (pick : Op ι K V A → Option α)
    (disturbs : Event n ι K V A τ → Prop) (holds : Mem n ι K V A τ → List α → Prop) : Prop where
  same : ∀ {mem mem' items}, mem'.maps = mem.maps → mem'.sets = mem.sets →
    holds mem items → holds mem' items
  perform : ∀ {src o mem items}, o.Fits → ¬ disturbs (.op src o) → holds mem items →
    holds (env.perform src mem o) (items ++ (pick o).toList)
  visits : ∀ {o id}, o.visits = some id → pick o = none
  visit : ∀ {src o id mem mem' items}, o.visits = some id → ¬ disturbs (.op src o) →
    mem'.sets = mem.sets → (∀ id', id' ≠ id → mem'.maps id' = mem.maps id') →
    holds mem items → holds mem' items
  localStep : ∀ {step mem after items}, ¬ disturbs (.step step) →
    mem.localStep step = some (.inl after) → holds mem items → holds after items

/-- **A table that is only inserted into**: no other operation on the table is called, and the
rank takes no local step that changes it. -/
structure InsertOnly (disturbs : Event n ι K V A τ → Prop) (c : Tables n ι K V A τ U)
    (r : Fin n) : Prop where
  calls : ∀ m ∈ c.issued, ∀ o, m.payload = .op o → ¬ disturbs (.op m.src o)
  steps : ∀ step, .step step ∈ (c.rank r).mem.history → ¬ disturbs (.step step)

/-- The items inserted by the calls that a rank has executed, in the order of their execution. -/
def Rank.gathered (pick : Op ι K V A → Option α)
    (s : Rank n (Payload ι K V A U) (Mem n ι K V A τ) (Value ι K V) (Code n ι K V A τ U)) :
    List α :=
  s.executed.filterMap fun e => e.rpc.payload.picked pick

section Gathers

variable {env : Env n ι K V A τ U} {cfg : Config} {pick : Op ι K V A → Option α}
variable {disturbs : Event n ι K V A τ → Prop} {holds : Mem n ι K V A τ → List α → Prop}

/-- **A handler that returns** has added the item of its operation, if it has one, to the items
that the table holds. -/
theorem Env.Gathers.ret (gathers : env.Gathers pick disturbs holds)
    {mem mem' : Mem n ι K V A τ} {items : List α} {m : Rpc n (Payload ι K V A U)}
    {k : Code n ι K V A τ U} (runs : env.Runs (some m) k) (effect : env.Effect mem mem' true k)
    (calls : ∀ o, m.payload = .op o → ¬ disturbs (.op m.src o)) (h : holds mem items) :
    holds mem' (items ++ (m.payload.picked pick).toList) := by
  generalize known : true = returns at effect
  cases effect with
  | user inner history maps sets =>
      have none : m.payload.picked pick = none := by
        cases k with
        | user u =>
            obtain ⟨u', payload⟩ := runs m rfl
            rw [payload]
            rfl
        | serve | issue => exact inner.elim
        | entry src id key a pos | visiting u src id key a pos =>
            obtain ⟨m', o, same, payload, visits⟩ := runs
            cases same
            rw [payload]
            exact gathers.visits visits
        | step step k => cases runs
      rw [none]
      simpa using gathers.same maps sets h
  | @perform src o eq =>
      obtain ⟨m', same, src_eq, payload, sends⟩ := runs
      cases same
      subst src_eq eq
      rw [payload]
      refine gathers.perform sends.2 (calls o payload) (gathers.same ?_ ?_ h) <;> rfl
  | visit | entry | step => cases known

/-- **Code that goes on** has added no item to those that the table holds. -/
theorem Env.Gathers.update (gathers : env.Gathers pick disturbs holds)
    {mem mem' : Mem n ι K V A τ} {items : List α}
    {cause : Option (Rpc n (Payload ι K V A U))} {k : Code n ι K V A τ U}
    (runs : env.Runs cause k) (effect : env.Effect mem mem' false k)
    (calls : ∀ m, cause = some m → ∀ o, m.payload = .op o → ¬ disturbs (.op m.src o))
    (steps : ∀ step, .step step ∈ mem'.history → ¬ disturbs (.step step))
    (h : holds mem items) : holds mem' items := by
  generalize known : false = returns at effect
  cases effect with
  | user inner history maps sets => exact gathers.same maps sets h
  | perform => cases known
  | visit visits history sets maps =>
      obtain ⟨m, rfl, rfl, payload, -⟩ := runs
      exact gathers.visit visits (calls m rfl _ payload) sets maps h
  | entry history sets maps =>
      obtain ⟨m, o, rfl, payload, visits⟩ := runs
      exact gathers.visit visits (calls m rfl o payload) sets maps h
  | @step step k after taken eq =>
      subst eq
      have after := gathers.localStep (steps step (by simp [Mem.log])) taken h
      refine gathers.same ?_ ?_ after <;> rfl

/-- A step of the communicator only adds to the history of a rank. -/
theorem history_step {c d : Tables n ι K V A τ U} {a : Action n}
    (taken : Sys.step cfg env.program c a = some d) (r : Fin n) :
    (c.rank r).mem.history <+: (d.rank r).mem.history := by
  rcases Sys.step_cases taken with
    ⟨i, flag, t, sent, -, move, rfl⟩ | ⟨i, src, t, stream, -, receive, rfl⟩
  · by_cases hi : r = i
    · subst hi
      simp only [Function.update_self]
      rcases move.memory with ⟨same, -⟩ | ⟨ctx, rest, k, k', -, cmd, -⟩ |
        ⟨ctx, rest, k, e, -, cmd, -⟩
      · rw [same]
      · exact (env.effect_update cmd).history
      · exact (env.effect_ret cmd).history
    · simp [hi]
  · obtain ⟨listener, queue, eq⟩ := receive.frame r
    simp [eq]

theorem InsertOnly.of_step {c d : Tables n ι K V A τ U} {a : Action n} {r : Fin n}
    (taken : Sys.step cfg env.program c a = some d) (only : InsertOnly disturbs d r) :
    InsertOnly disturbs c r :=
  ⟨fun m issued => only.calls m (Sys.mem_issued_step taken issued),
    fun step done => only.steps step ((history_step taken r).subset done)⟩

/-- **A table holds the items inserted by the calls executed on its rank**, in every reachable
state in which nothing but insertions has been done to it. -/
theorem gathered_of_reachable (gathers : env.Gathers pick disturbs holds)
    {start : Fin n → Mem n ι K V A τ} {main : Fin n → U} (empty : ∀ r, holds (start r) [])
    {c : Tables n ι K V A τ U}
    (h : (comm cfg env.program start fun r => .user (main r)).Reachable c) {r : Fin n}
    (only : InsertOnly disturbs c r) : holds (c.rank r).mem ((c.rank r).gathered pick) := by
  refine h.invariant (I := fun c => ∀ r, InsertOnly disturbs c r →
    holds (c.rank r).mem ((c.rank r).gathered pick)) (fun r _ => empty r) ?_ r only
  intro c a d before inv taken i only
  have outlined := fun r => (env.placing.of_reachable (fun r => env.placing_main _) before r).1
  have only' := only.of_step taken
  have held := inv i only'
  rcases Sys.step_cases taken with
    ⟨r, flag, t, sent, -, move, rfl⟩ | ⟨r, src, t, stream, -, receive, rfl⟩
  · by_cases hi : i = r
    · subst hi
      have steps := only.steps
      simp only [Function.update_self] at steps ⊢
      rcases move.memory with ⟨same, executed⟩ | ⟨ctx, rest, k, k', run, cmd, executed⟩ |
        ⟨ctx, rest, k, e, stack, cmd, rpc, executed⟩
      · rw [same, Rank.gathered, executed]
        exact held
      · rw [Rank.gathered, executed]
        refine gathers.update ((outlined i).running run) (env.effect_update cmd) ?_ steps held
        rintro m causes
        cases run with
        | main => cases causes
        | handler stack =>
            cases causes
            refine only'.calls _ (Sys.mem_issued_of_executing before (r := i) ?_)
            simp [Rank.executing, stack, Frame.executing]
      · have issued : ctx.rpc ∈ c.issued := by
          refine Sys.mem_issued_of_executing before (r := i) ?_
          simp [Rank.executing, stack, Frame.executing]
        have after := gathers.ret ((outlined i).stack ctx k (by simp [stack]))
          (env.effect_ret cmd) (only'.calls _ issued) held
        have new : [e].filterMap (fun e => e.rpc.payload.picked pick)
            = (ctx.rpc.payload.picked pick).toList := by
          rw [List.filterMap_cons, rpc, List.filterMap_nil]
          cases ctx.rpc.payload.picked pick <;> rfl
        rw [Rank.gathered, executed, List.filterMap_append, new]
        exact after
    · simpa [hi] using held
  · obtain ⟨listener, queue, eq⟩ := receive.frame i
    simp only [eq]
    exact held

end Gathers

/-! ## Sets and multimaps -/

/-- The key that an operation inserts into the set `id`, if it does. -/
def Op.setKey (id : Id ι) : Op ι K V A → Option K
  | .setInsertUnique id' key | .setInsertMulti id' key => if id' = id then some key else none
  | _ => none

/-- The entry that an operation inserts into the map `id`, if it does. -/
def Op.mapEntry (id : Id ι) : Op ι K V A → Option (K × V)
  | .mapInsertUnique id' key value | .mapInsertMulti id' key value =>
      if id' = id then some (key, value) else none
  | _ => none

/-- The events that may change the set `id` without inserting a key. -/
def Event.DisturbsSet (id : Id ι) : Event n ι K V A τ → Prop
  | .op _ (.setErase id' _) | .step (.clear (.set id')) | .step (.deserialize (.set id') _) =>
      id' = id
  | .step (.swapSet multi i j) => id = ⟨multi, i⟩ ∨ id = ⟨multi, j⟩
  | _ => False

/-- The events that may change the map `id` without inserting an entry. -/
def Event.DisturbsMap (id : Id ι) : Event n ι K V A τ → Prop
  | .op _ (.mapVisit id' _ _) | .op _ (.mapVisitIfExists id' _ _) | .op _ (.mapErase id' _)
  | .step (.clear (.map id')) | .step (.deserialize (.map id') _) => id' = id
  | .step (.swapMap multi i j) => id = ⟨multi, i⟩ ∨ id = ⟨multi, j⟩
  | .step (.forAllMap id' fn) => id' = id ∧ ¬ ∀ key value t, (fn key value t).1 = value
  | _ => False

/-- **A set after insertions**: a multiset has each key as often as it was inserted, and a set
has each inserted key once. -/
def HoldsSet (id : Id ι) (mem : Mem n ι K V A τ) (keys : List K) : Prop :=
  ∀ key, (mem.sets id).localSet.count key
    = if id.multi then keys.count key else min 1 (keys.count key)

/-- **A multimap after insertions**: the values of each key are those inserted for it, in their
order. -/
def HoldsMap (id : Id ι) (mem : Mem n ι K V A τ) (entries : List (K × V)) : Prop :=
  ∀ key, (mem.maps id).localMap.get key = Multimap.getEntries key entries

/-- A local step that does not disturb a set leaves it as it is. -/
theorem localStep_sets {id : Id ι} {mem after : Mem n ι K V A τ} {step : LocalStep ι K V τ}
    (calm : ¬ (Event.step step : Event n ι K V A τ).DisturbsSet id)
    (taken : mem.localStep step = some (.inl after)) : after.sets id = mem.sets id := by
  cases step with
  | clear c =>
      cases taken
      cases c with
      | set id' => exact Function.update_of_ne (fun same => calm same.symm) _ _
      | map | bag => rfl
  | swapSet multi i j =>
      cases taken
      obtain ⟨first, second⟩ := not_or.mp calm
      simp [swapped, first, second]
  | deserialize c file =>
      simp only [Mem.localStep, Option.map_eq_some_iff, Option.bind_eq_some_iff] at taken
      obtain ⟨_, ⟨saved, -, loaded⟩, out⟩ := taken
      cases out
      cases c with
      | set id' =>
          cases saved <;> cases loaded
          exact Function.update_of_ne (fun same => calm same.symm) _ _
      | map | bag =>
          cases saved <;> cases loaded
          rfl
  | size | countMap | countSet => cases taken
  | _ => cases taken; rfl

/-- A local step that does not disturb a map leaves it as it is. -/
theorem localStep_maps {id : Id ι} {mem after : Mem n ι K V A τ} {step : LocalStep ι K V τ}
    (calm : ¬ (Event.step step : Event n ι K V A τ).DisturbsMap id)
    (taken : mem.localStep step = some (.inl after)) : after.maps id = mem.maps id := by
  cases step with
  | clear c =>
      cases taken
      cases c with
      | map id' => exact Function.update_of_ne (fun same => calm same.symm) _ _
      | set | bag => rfl
  | swapMap multi i j =>
      cases taken
      obtain ⟨first, second⟩ := not_or.mp calm
      simp [swapped, first, second]
  | forAllMap id' fn =>
      cases taken
      by_cases here : id = id'
      · subst here
        have plain : ∀ key value t, (fn key value t).1 = value := by
          by_contra changes
          exact calm ⟨rfl, changes⟩
        simp only [Mem.setMap, Function.update_self, Multimap.forEach_eq plain]
      · simp [Mem.setMap, here]
  | deserialize c file =>
      simp only [Mem.localStep, Option.map_eq_some_iff, Option.bind_eq_some_iff] at taken
      obtain ⟨_, ⟨saved, -, loaded⟩, out⟩ := taken
      cases out
      cases c with
      | map id' =>
          cases saved <;> cases loaded
          exact Function.update_of_ne (fun same => calm same.symm) _ _
      | set | bag =>
          cases saved <;> cases loaded
          rfl
  | size | countMap | countSet => cases taken
  | _ => cases taken; rfl

theorem Env.gathers_set (env : Env n ι K V A τ U) (id : Id ι) :
    env.Gathers (Op.setKey id) (Event.DisturbsSet id) (HoldsSet id) where
  same := fun {mem mem' items} _ sets h => by
    intro key
    rw [sets]
    exact h key
  perform := fun {src o mem items} fits calm h => by
    intro key'
    have here := h key'
    cases o with
    | setInsertMulti id' key =>
        by_cases same : id' = id
        · subst same
          have multi : id'.multi = true := fits
          simp only [multi, ↓reduceIte] at here
          simp only [perform, Mem.setSet, Function.update_self, SetImpl.insertMulti,
            Multimap.count_insert, here, Op.setKey, multi, ↓reduceIte, Option.toList_some,
            List.count_append, List.count_singleton, beq_iff_eq]
        · simpa [perform, Mem.setSet, Op.setKey, same, Ne.symm same] using here
    | setInsertUnique id' key =>
        by_cases same : id' = id
        · subst same
          have single : id'.multi = false := fits
          have first := h key
          simp only [single, Bool.false_eq_true, ↓reduceIte] at here first
          simp only [perform, Mem.setSet, Function.update_self, SetImpl.insertUnique, Op.setKey,
            single, Bool.false_eq_true, ↓reduceIte, Option.toList_some, List.count_append,
            List.count_singleton, beq_iff_eq]
          by_cases new : (mem.sets id').localSet.count key = 0
          · rw [if_pos new, SetImpl.insertMulti, Multimap.count_insert, here]
            by_cases at_key : key = key'
            · subst at_key
              simp only [↓reduceIte]
              omega
            · simp [at_key]
          · rw [if_neg new, here]
            by_cases at_key : key = key'
            · subst at_key
              simp only [↓reduceIte]
              omega
            · simp [at_key]
        · simpa [perform, Mem.setSet, Op.setKey, same, Ne.symm same] using here
    | setErase id' key =>
        have other : id ≠ id' := fun same => calm same.symm
        simpa [perform, Mem.setSet, Op.setKey, other] using here
    | _ => simpa [perform, Mem.setMap, Mem.setBag, Op.setKey] using here
  visits := fun {o id'} visits => by cases o <;> first | rfl | cases visits
  visit := fun {src o id' mem mem' items} _ _ sets _ h => by
    intro key
    rw [sets]
    exact h key
  localStep := fun {step mem after items} calm taken h => by
    intro key
    rw [localStep_sets calm taken]
    exact h key

theorem Env.gathers_map (env : Env n ι K V A τ U) {id : Id ι} (multi : id.multi = true) :
    env.Gathers (Op.mapEntry id) (Event.DisturbsMap id) (HoldsMap id) where
  same := fun {mem mem' items} maps _ h => by
    intro key
    rw [maps]
    exact h key
  perform := fun {src o mem items} fits calm h => by
    intro key'
    have here := h key'
    cases o with
    | mapInsertMulti id' key value =>
        by_cases same : id' = id
        · subst same
          simp only [perform, Mem.setMap, Function.update_self, MapImpl.insertMulti,
            Multimap.get_insert, here, Op.mapEntry, ↓reduceIte, Option.toList_some,
            Multimap.getEntries, List.filter_append, List.map_append]
          by_cases at_key : key = key' <;> simp [at_key]
        · simpa [perform, Mem.setMap, Op.mapEntry, same, Ne.symm same] using here
    | mapInsertUnique id' key value =>
        have other : id' ≠ id := by
          rintro rfl
          have single : id'.multi = false := fits
          rw [multi] at single
          cases single
        simpa [perform, Mem.setMap, Op.mapEntry, other, Ne.symm other] using here
    | mapVisit id' | mapVisitIfExists id' | mapErase id' =>
        have other : id ≠ id' := fun same => calm same.symm
        simpa [perform, Mem.setMap, Op.mapEntry, other] using here
    | _ => simpa [perform, Mem.setSet, Mem.setBag, Op.mapEntry] using here
  visits := fun {o id'} visits => by cases o <;> first | rfl | cases visits
  visit := fun {src o id' mem mem' items} visits calm _ maps h => by
    intro key
    have other : id ≠ id' := by
      rintro rfl
      cases o <;> cases visits <;> exact calm rfl
    rw [maps id other]
    exact h key
  localStep := fun {step mem after items} calm taken h => by
    intro key
    rw [localStep_maps calm taken]
    exact h key

/-! ## Behind a barrier -/

/-- **The items inserted by the calls of the epochs before `e`.** -/
def Sys.inserted (pick : Op ι K V A → Option α) (c : Tables n ι K V A τ U) (e : ℕ) :
    Multiset α :=
  (c.issued.filter fun m => m.epoch < e).filterMap fun m => m.payload.picked pick

section Behind

variable {cfg : Config} {env : Env n ι K V A τ U}
variable {start : Fin n → Mem n ι K V A τ} {main : Fin n → U}

/-- **A rank is behind a barrier**: it has just returned from the barrier, or is at the local
step of the collective operation that the barrier belongs to. -/
def Behind (cfg : Config) (env : Env n ι K V A τ U) (start : Fin n → Mem n ι K V A τ)
    (main : Fin n → U) (c : Tables n ι K V A τ U) (r : Fin n) : Prop :=
  (comm cfg env.program start fun r => .user (main r)).Reachable c ∧
    ((∃ b flag, (comm cfg env.program start fun r => .user (main r)).Reachable b ∧
        (b.rank r).pc.waiting = some .second ∧
        Sys.step cfg env.program b (.main r flag) = some c ∧ (c.rank r).pc = .user) ∨
      ∃ step k, AtStep (c.rank r) step k)

/-- If a rank is behind a barrier, no call of the new epoch has been executed on it. -/
theorem Behind.executed {c : Tables n ι K V A τ U} {r : Fin n}
    (behind : Behind cfg env start main c r) :
    ∀ e ∈ (c.rank r).executed, e.rpc.epoch < (c.rank r).epoch := by
  obtain ⟨reached, ⟨b, flag, before, waits, taken, user⟩ | ⟨step, k, at_step⟩⟩ := behind
  · obtain ⟨first, second, pc⟩ := Pc.waiting_second waits
    have stack := ((Sys.sampled_of_reachable before r).second first second pc).1
    have epochs := (Sys.epochs_of_reachable before).executed r
    rcases Sys.step_cases taken with
      ⟨i, flag', t, sent, same, move, rfl⟩ | ⟨i, src, t, stream, same, receive, rfl⟩
    · cases same
      simp only [Function.update_self] at user ⊢
      rw [move.returns waits stack user]
      intro e he
      obtain ⟨own, le⟩ := epochs e he
      exact Nat.lt_succ_of_le (own ▸ le)
    · cases same
  · exact (separated reached at_step).after.1

/-- **The calls executed on a rank behind a barrier** are those addressed to it among the calls
issued in earlier epochs. -/
theorem Behind.calls {c : Tables n ι K V A τ U} {r : Fin n}
    (behind : Behind cfg env start main c r) :
    (c.rank r).done
      = (c.issued.filter fun m => m.epoch < (c.rank r).epoch).filter fun m => m.dest = r := by
  have reached := behind.1
  have once := (Quiescent.of_pending reached fun m => Sys.epoch_le_of_pending reached r).once
  have dest : ∀ i, ∀ m ∈ (c.rank i).done, m.dest = i := by
    intro i m hm
    obtain ⟨e, he, rfl⟩ := List.mem_map.mp (Multiset.mem_coe.mp hm)
    exact (((Sys.routed_of_reachable reached).rank i).executed e he).2
  have early : ∀ m ∈ (c.rank r).done, m.epoch < (c.rank r).epoch := by
    intro m hm
    obtain ⟨e, he, rfl⟩ := List.mem_map.mp (Multiset.mem_coe.mp hm)
    exact behind.executed e he
  rw [once, Sys.executed, filter_sum, filter_sum,
    Finset.sum_eq_single r (fun i _ other => ?_) (by simp)]
  · rw [Multiset.filter_eq_self.mpr early, Multiset.filter_eq_self.mpr (dest r)]
  · refine Multiset.filter_eq_nil.mpr fun m hm here => other ?_
    rw [← dest i m (Multiset.mem_of_mem_filter hm), here]

/-- **A run through a barrier**, with nothing but insertions into a table before: rank `r`
is behind the barrier, which begins epoch `e`, in the state `at_rank r`; `c` is a later
state. -/
structure Through (cfg : Config) (env : Env n ι K V A τ U) (start : Fin n → Mem n ι K V A τ)
    (main : Fin n → U) (disturbs : Event n ι K V A τ → Prop)
    (at_rank : Fin n → Tables n ι K V A τ U) (c : Tables n ι K V A τ U) (e : ℕ) : Prop where
  behind : ∀ r, Behind cfg env start main (at_rank r) r
  epoch : ∀ r, ((at_rank r).rank r).epoch = e
  leads : ∀ r, (comm cfg env.program start fun r => .user (main r)).Leads (at_rank r) c
  only : ∀ r, InsertOnly disturbs (at_rank r) r

/-- A collective operation whose local step the ranks take in the states `at_rank` has returned
this result on some rank in `c`. -/
def Returns (env : Env n ι K V A τ U) (at_rank : Fin n → Tables n ι K V A τ U)
    (c : Tables n ι K V A τ U) (step : LocalStep ι K V τ) (result : Value ι K V) : Prop :=
  ∃ turn, (∀ i, ∃ k, AtStep ((at_rank i).rank i) step k) ∧
    (∀ i, ((at_rank i).rank i).otherPosts.length = turn) ∧
    ∃ r, (c.rank r).otherPosts.length = turn + 1 ∧ c.reduced env.program r = some result

section Through

variable {disturbs : Event n ι K V A τ → Prop} {at_rank : Fin n → Tables n ι K V A τ U}
variable {c : Tables n ι K V A τ U} {e : ℕ}

theorem Through.issued_eq (run : Through cfg env start main disturbs at_rank c e) (r : Fin n) :
    (at_rank r).issued.filter (fun m => m.epoch < e) = c.issued.filter (fun m => m.epoch < e) := by
  have late : e ≤ (at_rank r).round := by
    rw [← run.epoch r]
    exact Sys.epoch_le_round (run.behind r).1 r
  exact (Sys.issued_before (run.behind r).1 late (run.leads r)).symm

/-- **The calls executed on a rank when it is behind the barrier** are those addressed to it
among the calls issued before the barrier in the later state. -/
theorem Through.calls (run : Through cfg env start main disturbs at_rank c e) (r : Fin n) :
    ((at_rank r).rank r).done
      = (c.issued.filter fun m => m.epoch < e).filter fun m => m.dest = r := by
  rw [(run.behind r).calls, run.epoch r, run.issued_eq r]

omit [DecidableEq ι] in
theorem Rank.gathered_eq (pick : Op ι K V A → Option α)
    (s : Rank n (Payload ι K V A U) (Mem n ι K V A τ) (Value ι K V) (Code n ι K V A τ U)) :
    (s.gathered pick : Multiset α) = s.done.filterMap fun m => m.payload.picked pick := by
  rw [Rank.done, Multiset.filterMap_coe, List.filterMap_map]
  rfl

/-- **The items inserted on a rank when it is behind the barrier** are those inserted before the
barrier whose key the rank owns. -/
theorem Through.gathered (run : Through cfg env start main disturbs at_rank c e)
    {pick : Op ι K V A → Option α} {key : α → K}
    (keys : ∀ {o item}, pick o = some item → o.key = some (key item)) (r : Fin n) :
    (((at_rank r).rank r).gathered pick : Multiset α)
      = (c.inserted pick e).filter fun item => env.partitioner.owner (key item) = r := by
  have reached := (run.behind r).1.leads (run.leads r)
  have outlined := env.placing.of_reachable (fun r => env.placing_main _) reached
  have placed : ∀ m ∈ c.issued, ∀ item, m.payload.picked pick = some item →
      env.partitioner.owner (key item) = m.dest := by
    intro m issued item picked
    obtain ⟨j, -, hj⟩ := Multiset.mem_sum.mp issued
    have sends := (outlined j).2 m (Multiset.mem_add.mpr (.inl hj))
    cases payload : m.payload with
    | user u =>
        rw [payload] at picked
        cases picked
    | op o =>
        rw [payload] at picked sends
        exact sends.1 _ (keys picked)
  rw [Rank.gathered_eq, run.calls r, Sys.inserted, Multiset.filter_filterMap,
    Multiset.filterMap_filter]
  refine filterMap_congr fun m hm => ?_
  cases picked : m.payload.picked pick with
  | none => simp
  | some item => simp [Option.filter, placed m (Multiset.mem_of_mem_filter hm) item picked]

theorem Through.returns (run : Through cfg env start main disturbs at_rank c e)
    {step : LocalStep ι K V τ} {result : Value ι K V} (returns : Returns env at_rank c step result)
    {amount : Fin n → ℕ}
    (value : ∀ i, ((at_rank i).rank i).mem.localStep step = some (.inr (amount i))) :
    result = .count (∑ i, amount i) := by
  obtain ⟨turn, at_step, same, r, waits, returned⟩ := returns
  exact reduced_eq (fun i => (run.behind i).1) run.leads at_step same value waits returned

end Through

end Behind

/-- The contents of a set or a multiset on a rank after insertions: the inserted keys that the
rank owns, in a set without repetition. -/
def SetHas (id : Id ι) (partitioner : Partitioner n K) (keys : Multiset K) (r : Fin n)
    (s : SetImpl K) : Prop :=
  (s.localSet.entries.map Prod.fst : Multiset K)
    = if id.multi then keys.filter fun key => partitioner.owner key = r
      else (keys.filter fun key => partitioner.owner key = r).dedup

/-- The contents of a multimap on a rank after insertions: the inserted entries whose key the
rank owns. -/
def MapHas (partitioner : Partitioner n K) (entries : Multiset (K × V)) (r : Fin n)
    (m : MapImpl K V) : Prop :=
  (m.localMap.entries : Multiset (K × V))
    = entries.filter fun entry => partitioner.owner entry.1 = r

omit [DecidableEq ι] in
/-- Two sets or multisets that hold the same inserted keys on a rank are equal. -/
theorem SetHas.unique {id : Id ι} {partitioner : Partitioner n K} {keys : Multiset K} {r : Fin n}
    {s s' : SetImpl K} (h : SetHas id partitioner keys r s) (h' : SetHas id partitioner keys r s') :
    s = s' := by
  have same : s.localSet = s'.localSet := by
    refine Multimap.ext_of_count fun key => ?_
    rw [← Multimap.count_keys, ← Multimap.count_keys, ← Multiset.coe_count, ← Multiset.coe_count,
      h, h']
  cases s
  cases s'
  cases same
  rfl

theorem MapHas.perm {partitioner : Partitioner n K} {entries : Multiset (K × V)} {r : Fin n}
    {m m' : MapImpl K V} (h : MapHas partitioner entries r m)
    (h' : MapHas partitioner entries r m') :
    m.localMap.entries.Perm m'.localMap.entries :=
  Multiset.coe_eq_coe.mp (h.trans h'.symm)

section Confluence

variable {cfg : Config} {env : Env n ι K V A τ U}
variable {start : Fin n → Mem n ι K V A τ} {main : Fin n → U}
variable {at_rank : Fin n → Tables n ι K V A τ U} {c : Tables n ι K V A τ U} {e : ℕ}

theorem Through.set {id : Id ι} (empty : ∀ r, ((start r).sets id).localSet = .empty)
    (run : Through cfg env start main (Event.DisturbsSet id) at_rank c e) (r : Fin n) :
    SetHas id env.partitioner (c.inserted (Op.setKey id) e) r
      (((at_rank r).rank r).mem.sets id) := by
  have keys : ∀ {o : Op ι K V A} {key}, o.setKey id = some key → o.key = some key := by
    intro o key picked
    cases o <;> simp only [Op.setKey, Option.ite_none_right_eq_some, reduceCtorEq] at picked <;>
      exact picked.2
  have holds := gathered_of_reachable (env.gathers_set id) (fun r key => by simp [empty r])
    (run.behind r).1 (run.only r)
  rw [SetHas, ← run.gathered keys r]
  refine Multiset.ext.mpr fun key => ?_
  rw [Multiset.coe_count, Multimap.count_keys, holds key]
  cases id.multi with
  | true => simp
  | false =>
      simp only [Bool.false_eq_true, ↓reduceIte, Multiset.count_dedup, Multiset.mem_coe]
      by_cases member : key ∈ ((at_rank r).rank r).gathered (Op.setKey id)
      · have some := List.count_pos_iff.mpr member
        rw [if_pos member]
        omega
      · rw [if_neg member, List.count_eq_zero_of_not_mem member]
        rfl

theorem Through.map {id : Id ι} (multi : id.multi = true)
    (empty : ∀ r, ((start r).maps id).localMap = .empty)
    (run : Through cfg env start main (Event.DisturbsMap id) at_rank c e) (r : Fin n) :
    MapHas env.partitioner (c.inserted (Op.mapEntry id) e) r
      (((at_rank r).rank r).mem.maps id) := by
  have keys : ∀ {o : Op ι K V A} {entry}, o.mapEntry id = some entry → o.key = some entry.1 := by
    intro o entry picked
    cases o <;> simp only [Op.mapEntry, Option.ite_none_right_eq_some, reduceCtorEq] at picked <;>
    · obtain ⟨-, same⟩ := picked
      cases same
      rfl
  have holds := gathered_of_reachable (env.gathers_map multi)
    (fun r key => by simp [empty r, Multimap.getEntries]) (run.behind r).1 (run.only r)
  rw [MapHas, ← run.gathered keys r]
  exact Multiset.coe_eq_coe.mpr (Multimap.perm_of_getEntries holds)

variable {cfg' : Config} {env' : Env n ι K V A τ U}
variable {start' : Fin n → Mem n ι K V A τ} {main' : Fin n → U}
variable {at_rank' : Fin n → Tables n ι K V A τ U} {c' : Tables n ι K V A τ U} {e' : ℕ}

/-- **Insert-only runs are confluent.**  In two runs that insert the same keys into a set
before a barrier, whichever ranks call the insertions and in whatever order they are
executed, every rank has behind the barrier the same local contents: the keys inserted that
it owns, in a set once and in a multiset as often as they were inserted; the same holds of
the entries of a multimap, up to their order; and `size` and `count` return the same. -/
theorem inserts_confluent (same : env.partitioner = env'.partitioner) :
    (∀ id, (∀ r, ((start r).sets id).localSet = .empty) →
      (∀ r, ((start' r).sets id).localSet = .empty) →
      Through cfg env start main (Event.DisturbsSet id) at_rank c e →
      Through cfg' env' start' main' (Event.DisturbsSet id) at_rank' c' e' →
      c.inserted (Op.setKey id) e = c'.inserted (Op.setKey id) e' →
      (∀ r, ((at_rank r).rank r).mem.sets id = ((at_rank' r).rank r).mem.sets id ∧
        SetHas id env.partitioner (c.inserted (Op.setKey id) e) r
          (((at_rank r).rank r).mem.sets id)) ∧
      ∀ step, step = .size (.set id) ∨ (∃ key, step = .countSet id key) →
        ∀ result result', Returns env at_rank c step result →
          Returns env' at_rank' c' step result' → result = result') ∧
    (∀ name, (∀ r, ((start r).maps ⟨true, name⟩).localMap = .empty) →
      (∀ r, ((start' r).maps ⟨true, name⟩).localMap = .empty) →
      Through cfg env start main (Event.DisturbsMap ⟨true, name⟩) at_rank c e →
      Through cfg' env' start' main' (Event.DisturbsMap ⟨true, name⟩) at_rank' c' e' →
      c.inserted (Op.mapEntry ⟨true, name⟩) e = c'.inserted (Op.mapEntry ⟨true, name⟩) e' →
      (∀ r, (((at_rank r).rank r).mem.maps ⟨true, name⟩).localMap.entries.Perm
          (((at_rank' r).rank r).mem.maps ⟨true, name⟩).localMap.entries ∧
        MapHas env.partitioner (c.inserted (Op.mapEntry ⟨true, name⟩) e) r
          (((at_rank r).rank r).mem.maps ⟨true, name⟩)) ∧
      ∀ step, step = .size (.map ⟨true, name⟩) ∨ (∃ key, step = .countMap ⟨true, name⟩ key) →
        ∀ result result', Returns env at_rank c step result →
          Returns env' at_rank' c' step result' → result = result') := by
  refine ⟨fun id empty empty' run run' keys => ?_, fun name empty empty' run run' entries => ?_⟩
  · have has := run.set empty
    have has' : ∀ r, SetHas id env.partitioner (c.inserted (Op.setKey id) e) r
        (((at_rank' r).rank r).mem.sets id) := by
      intro r
      rw [keys, same]
      exact run'.set empty' r
    have sets := fun r => (has r).unique (has' r)
    refine ⟨fun r => ⟨sets r, has r⟩, ?_⟩
    rintro step (rfl | ⟨key, rfl⟩) result result' returns returns'
    · rw [run.returns returns fun _ => rfl, run'.returns returns' fun _ => rfl]
      simp only [Mem.size, sets]
    · rw [run.returns returns fun _ => rfl, run'.returns returns' fun _ => rfl]
      simp only [sets]
  · have has := run.map rfl empty
    have has' : ∀ r, MapHas env.partitioner (c.inserted (Op.mapEntry ⟨true, name⟩) e) r
        (((at_rank' r).rank r).mem.maps ⟨true, name⟩) := by
      intro r
      rw [entries, same]
      exact run'.map rfl empty' r
    have perm := fun r => (has r).perm (has' r)
    refine ⟨fun r => ⟨perm r, has r⟩, ?_⟩
    rintro step (rfl | ⟨key, rfl⟩) result result' returns returns'
    · rw [run.returns returns fun _ => rfl, run'.returns returns' fun _ => rfl]
      simp only [Mem.size, Multimap.size, fun r => (perm r).length_eq]
    · rw [run.returns returns fun _ => rfl, run'.returns returns' fun _ => rfl]
      have counts : ∀ r, (((at_rank r).rank r).mem.maps ⟨true, name⟩).localMap.count key
          = (((at_rank' r).rank r).mem.maps ⟨true, name⟩).localMap.count key := by
        intro r
        simp only [← Multimap.count_keys]
        exact ((perm r).map Prod.fst).count_eq key
      simp only [counts]

end Confluence

/-- The insertions of the two ranks in each of two programs: a key into a set, or a key with a
value into a multimap. -/
def insertions : Bool → Fin 2 → List (ℕ × Option ℕ)
  | false, 0 => [(1, none), (3, some 5)]
  | false, 1 => [(2, none), (1, none), (3, some 6)]
  | true, 0 => [(3, some 6), (1, none), (1, none)]
  | true, 1 => [(3, some 5), (2, none)]

/-- A program of two ranks that make these insertions and ask for the size of the set. -/
def insertCalls (other : Bool) (u : ℕ) (mem : Mem 2 Unit ℕ ℕ ℕ Unit) :
    Call 2 Unit ℕ ℕ ℕ Unit ℕ :=
  match (insertions other mem.self)[u]? with
  | some (key, none) => .setInsert ⟨false, ()⟩ key (u + 1)
  | some (key, some value) => .mapInsert ⟨true, ()⟩ key value (u + 1)
  | none => if u < 10 then .collective (.size (.set ⟨false, ()⟩)) fun size => 10 + size else .ret ()

def insertEnv (other : Bool) : Env 2 Unit ℕ ℕ ℕ Unit ℕ :=
  { tableEnv with next := insertCalls other, offset_le := tableEnv_offset }

def insertComm (other : Bool) : Machine (Tables 2 Unit ℕ ℕ ℕ Unit ℕ) (Action 2) :=
  comm ⟨16, false⟩ (insertEnv other).program tableStart fun _ => .user 0

/-- Whether a call carries an insertion into a set or a map. -/
def Payload.inserts : Payload ι K V A U → Bool
  | .op (.setInsertUnique ..) | .op (.setInsertMulti ..)
  | .op (.mapInsertUnique ..) | .op (.mapInsertMulti ..) => true
  | _ => false

def Event.isOp : Event n ι K V A τ → Bool
  | .op _ _ => true
  | .step _ => false

omit [DecidableEq ι] in
theorem InsertOnly.of_all {disturbs : Event n ι K V A τ → Prop} {c : Tables n ι K V A τ U}
    {r : Fin n}
    (calm : ∀ src o, (Payload.op o : Payload ι K V A U).inserts = true → ¬ disturbs (.op src o))
    (calls : ∀ i, ((c.rank i).issued.all fun m => m.payload.inserts) = true)
    (steps : (c.rank r).mem.history.all Event.isOp = true) : InsertOnly disturbs c r := by
  refine ⟨fun m issued o payload => ?_, fun step done => ?_⟩
  · obtain ⟨i, -, hi⟩ := Multiset.mem_sum.mp issued
    have inserts := List.all_eq_true.mp (calls i) m hi
    rw [payload] at inserts
    exact calm _ _ inserts
  · cases List.all_eq_true.mp steps _ done

/-- A state of the run in which rank 0 is at its local step. -/
def insertStep0 (other : Bool) : Tables 2 Unit ℕ ℕ ℕ Unit ℕ :=
  (insertComm other).drive (fun _ _ => True) (insertComm other).init
    ((List.replicate (if other then 5 else 7) (mains 0 9 ++ mains 1 9 ++
      [.listen 0 1, .listen 0 1, .listen 1 0, .listen 1 0])).flatten ++ mains 0 2)

def insertStep1 (other : Bool) : Tables 2 Unit ℕ ℕ ℕ Unit ℕ :=
  (insertComm other).drive (fun _ _ => True) (insertStep0 other) (mains 0 1 ++ mains 1 1)

def insertReduced (other : Bool) : Tables 2 Unit ℕ ℕ ℕ Unit ℕ :=
  (insertComm other).drive (fun _ _ => True) (insertStep1 other) (mains 1 1)

def insertSteps (other : Bool) : Fin 2 → Tables 2 Unit ℕ ℕ ℕ Unit ℕ
  | 0 => insertStep0 other
  | 1 => insertStep1 other

theorem insertSteps_at (other : Bool) (i : Fin 2) :
    ∃ k, AtStep ((insertSteps other i).rank i) (.size (.set ⟨false, ()⟩)) k := by
  have users : ∀ other i, ((insertSteps other i).rank i).pc.isUser = true := by decide +kernel
  have codes : ∀ other i, ((insertSteps other i).rank i).code.sizeOf? = some (.set ⟨false, ()⟩) := by
    decide +kernel
  exact AtStep.of_size (users other i) (codes other i)

theorem insertSteps_through (other : Bool) {disturbs : Event 2 Unit ℕ ℕ ℕ Unit → Prop}
    (calm : ∀ src o, (Payload.op o : Payload Unit ℕ ℕ ℕ ℕ).inserts = true →
      ¬ disturbs (.op src o)) :
    Through ⟨16, false⟩ (insertEnv other) tableStart (fun _ => 0) disturbs (insertSteps other)
      (insertReduced other) 1 := by
  have reached0 : (insertComm other).Reachable (insertStep0 other) :=
    Machine.ReachableBy.init.drive _
  have reached1 : (insertComm other).Reachable (insertStep1 other) := reached0.drive _
  have leads1 : (insertComm other).Leads (insertStep1 other) (insertReduced other) :=
    Machine.Leads.drive .refl _
  have leads0 : (insertComm other).Leads (insertStep0 other) (insertReduced other) :=
    Machine.Leads.drive (Machine.Leads.drive .refl _) _
  have reached : ∀ i, (insertComm other).Reachable (insertSteps other i) :=
    Fin.forall_fin_two.mpr ⟨reached0, reached1⟩
  have epochs : ∀ other i, ((insertSteps other i).rank i).epoch = 1 := by decide +kernel
  have calls : ∀ other i j, (((insertSteps other i).rank j).issued.all
      fun m => m.payload.inserts) = true := by decide +kernel
  have steps : ∀ other i, ((insertSteps other i).rank i).mem.history.all Event.isOp = true := by
    decide +kernel
  refine ⟨fun i => ⟨reached i, .inr ?_⟩, epochs other, Fin.forall_fin_two.mpr ⟨leads0, leads1⟩,
    fun i => .of_all calm (calls other i) (steps other i)⟩
  exact ⟨_, insertSteps_at other i⟩

/-- The runs of the two programs end in the same set on each rank, in the same entries of the
multimap up to their order, and with the same size. -/
theorem inserts_confluent_split :
    (∀ r, ((insertSteps false r).rank r).mem.sets ⟨false, ()⟩
      = ((insertSteps true r).rank r).mem.sets ⟨false, ()⟩) ∧
    (∀ r, (((insertSteps false r).rank r).mem.maps ⟨true, ()⟩).localMap.entries.Perm
      (((insertSteps true r).rank r).mem.maps ⟨true, ()⟩).localMap.entries) ∧
    (insertReduced false).reduced (insertEnv false).program 1
      = (insertReduced true).reduced (insertEnv true).program 1 := by
  have calmSet : ∀ src o, (Payload.op o : Payload Unit ℕ ℕ ℕ ℕ).inserts = true →
      ¬ (Event.op src o : Event 2 Unit ℕ ℕ ℕ Unit).DisturbsSet ⟨false, ()⟩ := by
    intro src o inserts
    cases o <;> first | exact id | cases inserts
  have calmMap : ∀ src o, (Payload.op o : Payload Unit ℕ ℕ ℕ ℕ).inserts = true →
      ¬ (Event.op src o : Event 2 Unit ℕ ℕ ℕ Unit).DisturbsMap ⟨true, ()⟩ := by
    intro src o inserts
    cases o <;> first | exact id | cases inserts
  have same : (insertEnv false).partitioner = (insertEnv true).partitioner := rfl
  obtain ⟨sets, sizes⟩ := (inserts_confluent same).1 ⟨false, ()⟩ (fun _ => rfl) (fun _ => rfl)
    (insertSteps_through false calmSet) (insertSteps_through true calmSet) (by decide +kernel)
  obtain ⟨maps, -⟩ := (inserts_confluent same).2 () (fun _ => rfl) (fun _ => rfl)
    (insertSteps_through false calmMap) (insertSteps_through true calmMap) (by decide +kernel)
  have turns : ∀ other i, ((insertSteps other i).rank i).otherPosts.length = 0 := by
    decide +kernel
  have contributed : ∀ other, ((insertReduced other).rank 1).otherPosts.length = 0 + 1 := by
    decide +kernel
  have completed : ∀ other, ((insertReduced other).reduced (insertEnv other).program 1).isSome := by
    decide +kernel
  refine ⟨fun r => (sets r).1, fun r => (maps r).1, ?_⟩
  obtain ⟨result, returned⟩ := Option.isSome_iff_exists.mp (completed false)
  obtain ⟨result', returned'⟩ := Option.isSome_iff_exists.mp (completed true)
  rw [returned, returned', sizes _ (.inl rfl) result result'
    ⟨0, insertSteps_at false, turns false, 1, contributed false, returned⟩
    ⟨0, insertSteps_at true, turns true, 1, contributed true, returned'⟩]

end YGM
