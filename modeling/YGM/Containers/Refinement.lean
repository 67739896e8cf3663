import YGM.Comm.Outline
import YGM.Comm.Script
import YGM.Containers.Program

/-!
# Distributed maps refine sequential ones

Each rank stores of a map the keys it owns, and of such a key what a sequential map has
after the operations executed on the rank so far, in their order of execution; for a
multimap in the same way (`map_refines`).

`Follows` says that a `map_impl` holds what a sequential container does.  It survives
each handler, `clear` and `swap`.  For a map this needs that a key never has two
entries, which `Follows` itself says: what a sequential map has for a key is at most one
value.  Everything that happens to the maps of a rank is in its history
(`Event.map`), so the local state is `Sequential.run` of it.
-/

namespace YGM

variable {n : ℕ} {ι K V A τ U : Type} [DecidableEq ι] [LinearOrder K]

/-! ## Operations on maps -/

/-- The map and the operation of a sequential map that a handler stands for; `none` for the
handlers of sets and bags. -/
def Env.mapOp (env : Env n ι K V A τ U) (src : Fin n) : Op ι K V A → Option (Id ι × MapOp K V)
  | .mapInsertUnique id key value | .mapInsertMulti id key value => some (id, .insert key value)
  | .mapVisit id key a => some (id, .visit key ((env.visitor a).apply src key))
  | .mapVisitIfExists id key a => some (id, .visitIfExists key ((env.visitor a).apply src key))
  | .mapErase id key => some (id, .erase key)
  | .setInsertUnique _ _ | .setInsertMulti _ _ | .setErase _ _ | .bagInsert _ _ => none

/-- The key of an operation on a map; `none` for the operations on sets and bags. -/
def Op.mapKey : Op ι K V A → Option K
  | .mapInsertUnique _ key _ | .mapInsertMulti _ key _ | .mapVisit _ key _
  | .mapVisitIfExists _ key _ | .mapErase _ key => some key
  | .setInsertUnique _ _ | .setInsertMulti _ _ | .setErase _ _ | .bagInsert _ _ => none

/-- The event on the maps that an entry of the history stands for; `none` for entries that do
not concern the maps. -/
def Env.mapEvent (env : Env n ι K V A τ U) : Event n ι K V A τ → Option (MapEvent (Id ι) K V)
  | .op src o => (env.mapOp src o).map fun op => .op op.1 op.2
  | .step (.clear (.map id)) => some (.clear id)
  | .step (.swapMap multi i j) => some (.swap ⟨multi, i⟩ ⟨multi, j⟩)
  | .step _ => none

/-- The events on the maps of a rank, in the order of the rank's history. -/
def Env.mapEvents (env : Env n ι K V A τ U) (mem : Mem n ι K V A τ) :
    List (MapEvent (Id ι) K V) :=
  mem.history.filterMap env.mapEvent

/-- The insertion of an operation matches its container: a map is given unique insertions and a
multimap the other ones. -/
def Op.Typed : Op ι K V A → Prop
  | .mapInsertUnique id _ _ => id.multi = false
  | .mapInsertMulti id _ _ => id.multi = true
  | _ => True

/-! ## One map -/

section Follows

variable {E : Type}

/-- **A `map_impl` follows a sequential container**: it has the same default value and, for
every key, the values of the container. -/
structure Follows (seq : Sequential K V E) (m : MapImpl K V) (s : SeqState K V E) : Prop where
  default : m.defaultValue = s.default
  values : ∀ key, m.localGet key = seq.values (s.entry key)

/-- If a handler keeps the default value, changes the operation's key as the sequential
container does, and leaves all other keys as they are, the map follows the container after the
operation. -/
theorem Follows.applyTo {seq : Sequential K V E} {m m' : MapImpl K V} {s : SeqState K V E}
    (h : Follows seq m s) {op : MapOp K V} (default : m'.defaultValue = m.defaultValue)
    (here : m'.localGet op.key = seq.values (seq.apply s.default op (s.entry op.key)))
    (other : ∀ key, op.key ≠ key → m'.localGet key = m.localGet key) :
    Follows seq m' (seq.applyTo op s) := by
  refine ⟨default.trans h.default, fun key => ?_⟩
  by_cases same : op.key = key
  · subst same
    simpa [Sequential.applyTo] using here
  · rw [other key same, h.values key]
    simp [Sequential.applyTo, Ne.symm same]

theorem Follows.clear {seq : Sequential K V E} (empty : seq.values seq.none = [])
    {m : MapImpl K V} {s : SeqState K V E} (h : Follows seq m s) :
    Follows seq m.localClear { s with entry := fun _ => seq.none } :=
  ⟨h.default, fun _ => empty.symm⟩

/-- `perform` keeps the rank and the history, and changes no map except the one its operation is
on. -/
theorem Env.perform_map (env : Env n ι K V A τ U) (src : Fin n) (mem : Mem n ι K V A τ)
    (o : Op ι K V A) :
    (env.perform src mem o).self = mem.self ∧ (env.perform src mem o).history = mem.history ∧
    ∀ id, (∀ op, env.mapOp src o ≠ some (id, op)) →
      (env.perform src mem o).maps id = mem.maps id := by
  cases o with
  | setInsertUnique | setInsertMulti | setErase | bagInsert => exact ⟨rfl, rfl, fun _ _ => rfl⟩
  | _ =>
      refine ⟨rfl, rfl, fun id other => ?_⟩
      simp only [mapOp, ne_eq, Option.some.injEq, Prod.mk.injEq, not_and] at other
      exact Function.update_of_ne (fun same => other _ same.symm rfl) _ _

/-- A visit applies its function to all values of its key, after inserting the default value if
there are none, and leaves all other keys as they are. -/
theorem MapImpl.visit_get (m : MapImpl K V) (key : K) (f : V → V) (key' : K) :
    ((m.ensure key).localVisit key f).localGet key'
      = if key = key' then (if m.localGet key = [] then [m.defaultValue] else m.localGet key).map f
        else m.localGet key' := by
  simp only [localGet, localVisit_get, ensure_get]
  by_cases same : key = key'
  · subst same
    by_cases absent : m.localMap.get key = [] <;> simp [absent]
  · simp [same]

/-- **A handler on a map** changes it as the operation changes a sequential map. -/
theorem Follows.map {env : Env n ι K V A τ U} {src : Fin n} {mem : Mem n ι K V A τ}
    {o : Op ι K V A} {id : Id ι} {op : MapOp K V} (on : env.mapOp src o = some (id, op))
    (typed : o.Typed) (single : id.multi = false) {s : SeqState K V (Option V)}
    (h : Follows (seqMap K V) (mem.maps id) s) :
    Follows (seqMap K V) ((env.perform src mem o).maps id) ((seqMap K V).applyTo op s) := by
  cases o with
  | mapInsertUnique id key value =>
      cases on
      have unique : ((mem.maps id).localMap.get key).length ≤ 1 := by
        have values := h.values key
        rw [MapImpl.localGet] at values
        rw [values]
        exact Option.length_toList_le
      refine h.applyTo ?_ ?_ fun key' other => ?_
      · simp [Env.perform, Mem.setMap]
      · simp [Env.perform, Mem.setMap, MapImpl.localGet, MapImpl.insertUnique_get _ _ _ _ unique,
          MapOp.key, seqMap]
      · have apart : key ≠ key' := other
        simp [Env.perform, Mem.setMap, MapImpl.localGet, MapImpl.insertUnique_get _ _ _ _ unique,
          apart]
  | mapInsertMulti id key value =>
      cases on
      rw [Op.Typed, single] at typed
      cases typed
  | mapVisit id key a =>
      cases on
      have values := h.values key
      refine h.applyTo ?_ ?_ fun key' other => ?_
      · simp [Env.perform, Mem.setMap, MapImpl.localVisit]
      · simp only [Env.perform, Mem.setMap, Function.update_self, MapImpl.visit_get, MapOp.key,
          ↓reduceIte, values, seqMap, h.default]
        cases s.entry key <;> rfl
      · have apart : key ≠ key' := other
        simp only [Env.perform, Mem.setMap, Function.update_self, MapImpl.visit_get, apart,
          ↓reduceIte]
  | mapVisitIfExists id key a =>
      cases on
      have values := h.values key
      rw [MapImpl.localGet] at values
      refine h.applyTo ?_ ?_ fun key' other => ?_
      · simp [Env.perform, Mem.setMap, MapImpl.localVisit]
      · simp only [Env.perform, Mem.setMap, Function.update_self, MapImpl.localGet,
          MapImpl.localVisit_get, MapOp.key, ↓reduceIte, values, seqMap]
        cases s.entry key <;> rfl
      · have apart : key ≠ key' := other
        simp [Env.perform, Mem.setMap, MapImpl.localGet, apart]
  | mapErase id key =>
      cases on
      refine h.applyTo ?_ ?_ fun key' other => ?_
      · simp [Env.perform, Mem.setMap, MapImpl.localErase]
      · simp [Env.perform, Mem.setMap, MapImpl.localGet, MapOp.key, seqMap]
      · have apart : key ≠ key' := other
        simp [Env.perform, Mem.setMap, MapImpl.localGet, apart]
  | _ => cases on

/-- **A handler on a multimap** changes it as the operation changes a sequential multimap. -/
theorem Follows.multimap {env : Env n ι K V A τ U} {src : Fin n} {mem : Mem n ι K V A τ}
    {o : Op ι K V A} {id : Id ι} {op : MapOp K V} (on : env.mapOp src o = some (id, op))
    (typed : o.Typed) (multi : id.multi = true) {s : SeqState K V (List V)}
    (h : Follows (seqMultimap K V) (mem.maps id) s) :
    Follows (seqMultimap K V) ((env.perform src mem o).maps id)
      ((seqMultimap K V).applyTo op s) := by
  cases o with
  | mapInsertUnique id key value =>
      cases on
      rw [Op.Typed, multi] at typed
      cases typed
  | mapInsertMulti id key value =>
      cases on
      have values := h.values key
      rw [MapImpl.localGet] at values
      refine h.applyTo ?_ ?_ fun key' other => ?_
      · simp [Env.perform, Mem.setMap, MapImpl.insertMulti]
      · simp [Env.perform, Mem.setMap, MapImpl.localGet, MapOp.key, values, seqMultimap]
      · have apart : key ≠ key' := other
        simp [Env.perform, Mem.setMap, MapImpl.localGet, apart]
  | mapVisit id key a =>
      cases on
      have values := h.values key
      refine h.applyTo ?_ ?_ fun key' other => ?_
      · simp [Env.perform, Mem.setMap, MapImpl.localVisit]
      · simp only [Env.perform, Mem.setMap, Function.update_self, MapImpl.visit_get, MapOp.key,
          ↓reduceIte, values, seqMultimap, h.default, id_eq]
      · have apart : key ≠ key' := other
        simp only [Env.perform, Mem.setMap, Function.update_self, MapImpl.visit_get, apart,
          ↓reduceIte]
  | mapVisitIfExists id key a =>
      cases on
      have values := h.values key
      rw [MapImpl.localGet] at values
      refine h.applyTo ?_ ?_ fun key' other => ?_
      · simp [Env.perform, Mem.setMap, MapImpl.localVisit]
      · simp [Env.perform, Mem.setMap, MapImpl.localGet, MapOp.key, values, seqMultimap]
      · have apart : key ≠ key' := other
        simp [Env.perform, Mem.setMap, MapImpl.localGet, apart]
  | mapErase id key =>
      cases on
      refine h.applyTo ?_ ?_ fun key' other => ?_
      · simp [Env.perform, Mem.setMap, MapImpl.localErase]
      · simp [Env.perform, Mem.setMap, MapImpl.localGet, MapOp.key, seqMultimap]
      · have apart : key ≠ key' := other
        simp [Env.perform, Mem.setMap, MapImpl.localGet, apart]
  | _ => cases on

end Follows

/-! ## All maps of a rank -/

/-- A local step that leaves the maps to the operations: it is no `deserialize` of a map, and no
`for_all` that changes values. -/
def LocalStep.Plain : LocalStep ι K V τ → Prop
  | .deserialize (.map _) _ => False
  | .forAllMap _ fn => ∀ key value t, (fn key value t).1 = value
  | _ => True

/-- A `for_all` whose function changes no value leaves the list of items as it is. -/
theorem forEach_fst {α β : Type} {fn : α → β → α × β} (plain : ∀ x t, (fn x t).1 = x)
    (items : List α) (t : β) : (forEach fn items t).1 = items := by
  induction items generalizing t with
  | nil => rfl
  | cons x rest ih =>
      show (fn x t).1 :: (forEach fn rest (fn x t).2).1 = x :: rest
      rw [plain, ih]

theorem Multimap.forEach_eq {fn : K → V → τ → V × τ}
    (plain : ∀ key value t, (fn key value t).1 = value) (m : Multimap K V) (t : τ) :
    (m.forEach fn t).1 = m := by
  refine Multimap.ext (forEach_fst (fun e t => ?_) m.entries t)
  show (e.1, (fn e.1 e.2 t).1) = e
  rw [plain]

/-- All maps of one kind, maps or multimaps, follow their sequential containers. -/
def FollowsAll {E : Type} (seq : Sequential K V E) (multi : Bool) (mem : Mem n ι K V A τ)
    (s : Id ι → SeqState K V E) : Prop :=
  ∀ id, id.multi = multi → Follows seq (mem.maps id) (s id)

/-- **A kind of container is specified by a sequential container**: the container starts empty,
and every handler on the kind does what its operation does to the sequential container. -/
structure Specifies {E : Type} (env : Env n ι K V A τ U) (multi : Bool)
    (seq : Sequential K V E) : Prop where
  empty : seq.values seq.none = []
  handler : ∀ {src mem o id op s}, env.mapOp src o = some (id, op) → o.Typed → id.multi = multi →
    Follows seq (mem.maps id) s → Follows seq ((env.perform src mem o).maps id) (seq.applyTo op s)

theorem specifies_map (env : Env n ι K V A τ U) : Specifies env false (seqMap K V) :=
  ⟨rfl, fun on typed single h => h.map on typed single⟩

theorem specifies_multimap (env : Env n ι K V A τ U) : Specifies env true (seqMultimap K V) :=
  ⟨rfl, fun on typed multi h => h.multimap on typed multi⟩

section Specifies

variable {E : Type} {env : Env n ι K V A τ U} {multi : Bool} {seq : Sequential K V E}
variable {mem : Mem n ι K V A τ} {s : Id ι → SeqState K V E}

/-- **An executed operation is one event**: after it, the maps follow the sequential containers
with this event applied. -/
theorem FollowsAll.perform (kind : Specifies env multi seq) (h : FollowsAll seq multi mem s)
    (src : Fin n) {o : Op ι K V A} (typed : o.Typed) :
    FollowsAll seq multi (env.perform src mem o)
      (((env.mapOp src o).map fun op => MapEvent.op op.1 op.2).elim s (seq.event s)) := by
  intro id hid
  obtain ⟨-, -, others⟩ := env.perform_map src mem o
  cases on : env.mapOp src o with
  | none =>
      rw [others id (by simp [on])]
      exact h id hid
  | some op =>
      by_cases here : id = op.1
      · subst here
        simpa [Sequential.event] using kind.handler on typed hid (h _ hid)
      · rw [others id fun op' => by simp [on, Prod.ext_iff, Ne.symm here]]
        simpa [Sequential.event, here] using h id hid

/-- **A local step is one event on the maps, or leaves them alone**: after it, the maps follow
the sequential containers with the event applied, if there is one. -/
theorem FollowsAll.localStep (kind : Specifies env multi seq) (h : FollowsAll seq multi mem s)
    {step : LocalStep ι K V τ} (plain : step.Plain) {after : Mem n ι K V A τ}
    (taken : mem.localStep step = some (.inl after)) :
    FollowsAll seq multi after
      ((env.mapEvent (.step step : Event n ι K V A τ)).elim s (seq.event s)) := by
  intro id hid
  have keep : after.maps = mem.maps → Follows seq (after.maps id) (s id) := by
    intro same
    rw [same]
    exact h id hid
  cases step with
  | clear c =>
      cases taken
      cases c with
      | map id' =>
          by_cases here : id = id'
          · subst here
            simpa [Env.mapEvent, Sequential.event, Mem.clear, Mem.setMap] using
              (h id hid).clear kind.empty
          · simpa [Env.mapEvent, Sequential.event, Mem.clear, Mem.setMap, here] using h id hid
      | set id' => exact keep rfl
      | bag name => exact keep rfl
  | swapMap multi' i j =>
      cases taken
      simp only [Env.mapEvent, Option.elim_some, Sequential.event, swapped]
      by_cases second : id = ⟨multi', j⟩
      · subst second
        simpa using h ⟨multi', i⟩ hid
      · by_cases first : id = ⟨multi', i⟩
        · subst first
          simpa [second] using h ⟨multi', j⟩ hid
        · simpa [second, first] using h id hid
  | forAllMap id' fn =>
      cases taken
      refine keep (funext fun id => ?_)
      by_cases here : id = id'
      · subst here
        simp only [Mem.setMap, Function.update_self, Multimap.forEach_eq plain]
      · simp [Mem.setMap, here]
  | deserialize c file =>
      simp only [Mem.localStep, Option.map_eq_some_iff, Option.bind_eq_some_iff] at taken
      obtain ⟨_, ⟨saved, -, loaded⟩, out⟩ := taken
      cases out
      cases c with
      | map id' => exact plain.elim
      | set id' =>
          cases saved <;> cases loaded
          exact keep rfl
      | bag name =>
          cases saved <;> cases loaded
          exact keep rfl
  | size c => cases taken
  | countMap id' key => cases taken
  | countSet id' key => cases taken
  | swapSet multi' i j | swapBag i j | forAllSet id' fn | forAllBag name fn | serialize c file =>
      cases taken
      exact keep rfl

end Specifies

/-! ## Runs -/

/-- **Programs whose maps change by operations, `clear` and `swap` only**: visitors only change
the value they visit, and no other local step touches the maps. -/
structure Env.Plain (env : Env n ι K V A τ U) : Prop where
  visitors : ∀ a, (env.visitor a).calls = none
  steps : ∀ u mem step k, env.next u mem = .collective step k → step.Plain

/-- An operation on a map is sent to the owner of its key, with the insertion that matches its
container. -/
def Env.MayCall (env : Env n ι K V A τ U) (dest : Fin n) : Payload ι K V A U → Prop
  | .op o => (∀ key, o.mapKey = some key → env.partitioner.owner key = dest) ∧ o.Typed
  | .user _ => True

/-- The code points of a plain program, with the call whose handler is running: visits are done
at once, operations go to the owner of their key, and collective operations are in the main
program only. -/
def Env.Occurs (env : Env n ι K V A τ U) (cause : Option (Rpc n (Payload ι K V A U))) :
    Code n ι K V A τ U → Prop
  | .user _ => ∀ m, cause = some m → ∃ u, m.payload = .user u
  | .serve src o => ∃ m, cause = some m ∧ m.src = src ∧ m.payload = .op o ∧
      env.MayCall m.dest (.op o)
  | .issue dest o k => env.MayCall dest (.op o) ∧ env.Occurs cause k
  | .step step _ => cause = none ∧ step.Plain
  | .entry .. | .visiting .. => False

section Runs

variable {env : Env n ι K V A τ U}

/-- A command of the user's code in a plain program keeps to the code points and calls of plain
programs. -/
theorem Env.command_keeps (plain : env.Plain) {cause : Option (Rpc n (Payload ι K V A U))}
    {u : U} {mem : Mem n ι K V A τ} (user : env.Occurs cause (.user u)) :
    (env.command mem .user .ret (env.next u mem)).Keeps env.Occurs env.MayCall cause := by
  have main : ∀ k, env.Occurs none (.user k : Code n ι K V A τ U) := by
    intro k m none
    cases none
  have here : ∀ k, env.Occurs cause (.user k : Code n ι K V A τ U) := fun _ => user
  cases next : env.next u mem with
  | ret user => trivial
  | compute user k => exact here k
  | async dest u k => exact ⟨trivial, here k⟩
  | asyncFlush dest k => exact here k
  | asyncFlushAll k => exact here k
  | barrier k => exact fun _ => main k
  | allReduceSum value k => exact fun _ value => main _
  | mapInsert id key value k =>
      refine ⟨?_, here k⟩
      cases multi : id.multi <;> exact ⟨fun _ same => by cases same; rfl, multi⟩
  | mapVisit id key a k => exact ⟨⟨fun _ same => by cases same; rfl, trivial⟩, here k⟩
  | mapVisitIfExists id key a k => exact ⟨⟨fun _ same => by cases same; rfl, trivial⟩, here k⟩
  | mapErase id key k => exact ⟨⟨fun _ same => by cases same; rfl, trivial⟩, here k⟩
  | setInsert id key k =>
      refine ⟨?_, here k⟩
      cases multi : id.multi <;> exact ⟨nofun, trivial⟩
  | setErase id key k => exact ⟨⟨nofun, trivial⟩, here k⟩
  | bagInsert name item k => exact ⟨⟨nofun, trivial⟩, here k⟩
  | collective step k => exact fun _ => ⟨rfl, plain.steps u mem step k next⟩
  | topk id k cfn next => exact fun _ value => main _

/-- The handler of an operation in a plain program returns at once, with the operation performed
and recorded. -/
theorem Env.serve_eq (plain : env.Plain) (src : Fin n) (o : Op ι K V A)
    (mem : Mem n ι K V A τ) :
    env.serve src o mem = .ret (env.perform src (mem.log (.op src o)) o) := by
  cases o <;> simp [serve, plain.visitors]

/-- **The outline of a plain program**: the invariant of its code points and of the calls it
issues. -/
def Env.outline (plain : env.Plain) : Outline env.program where
  code := env.Occurs
  call := env.MayCall
  start := fun m call => by
    cases payload : m.payload with
    | op o =>
        simp only [program]
        exact ⟨m, rfl, rfl, payload, payload ▸ call⟩
    | user u =>
        simp only [program]
        intro m' same
        cases same
        exact ⟨u, payload⟩
  next := fun cause k mem occurs => by
    cases k with
    | user u => exact env.command_keeps plain occurs
    | serve src o =>
        simp only [program, env.serve_eq plain]
        trivial
    | issue dest o k => exact occurs
    | step step k =>
        obtain ⟨rfl, -⟩ := occurs
        have main : ∀ k, env.Occurs none (.user k : Code n ι K V A τ U) := by
          intro k m none
          cases none
        simp only [program]
        split
        · trivial
        · exact main (k 0)
        · exact fun _ value => main _
    | entry => exact occurs.elim
    | visiting => exact occurs.elim

/-- The operation that an entry of the history records, with its origin; `none` for a local
step. -/
def Event.served : Event n ι K V A τ → Option (Fin n × Op ι K V A)
  | .op src o => some (src, o)
  | .step _ => none

/-- The operation that an execution was of, with its origin; `none` for a function of the
user's. -/
def Exec.served (e : Exec n (Payload ι K V A U)) : Option (Fin n × Op ι K V A) :=
  match e.rpc.payload with
  | .op o => some (e.src, o)
  | .user _ => none

/-- The sequential containers at the start, which are empty and have the default values of the
maps. -/
def Sequential.start {E : Type} (seq : Sequential K V E) (mem : Mem n ι K V A τ) :
    Id ι → SeqState K V E :=
  fun id => ⟨(mem.maps id).defaultValue, fun _ => seq.none⟩

/-- **The memory of a rank matches what it has executed**: its history records the executed
operations, every key in it is owned by the rank, and its maps follow the sequential containers
after the events of the history. -/
structure Env.Recorded (env : Env n ι K V A τ U) (start : Fin n → Mem n ι K V A τ)
    (r : Fin n) (done : List (Exec n (Payload ι K V A U))) (mem : Mem n ι K V A τ) :
    Prop where
  served : mem.history.filterMap Event.served = done.filterMap Exec.served
  owned : ∀ src o key, .op src o ∈ mem.history → o.mapKey = some key →
    env.partitioner.owner key = r
  map : FollowsAll (seqMap K V) false mem
    ((seqMap K V).run ((seqMap K V).start (start r)) (env.mapEvents mem))
  multimap : FollowsAll (seqMultimap K V) true mem
    ((seqMultimap K V).run ((seqMultimap K V).start (start r)) (env.mapEvents mem))

/-- A sequential run over the events of a history with one more entry is the run before, with
the event of that entry applied if it has one. -/
theorem Env.run_log {E : Type} (env : Env n ι K V A τ U) (seq : Sequential K V E)
    (s : Id ι → SeqState K V E) (mem : Mem n ι K V A τ) (e : Event n ι K V A τ) :
    seq.run s (env.mapEvents (mem.log e)) = (env.mapEvent e).elim
      (seq.run s (env.mapEvents mem)) (seq.event (seq.run s (env.mapEvents mem))) := by
  cases found : env.mapEvent e <;> simp [mapEvents, Mem.log, found]

/-- A step that leaves the history and the maps as they are keeps the record. -/
theorem Env.Recorded.of_eq {start : Fin n → Mem n ι K V A τ} {r : Fin n}
    {done : List (Exec n (Payload ι K V A U))} {mem mem' : Mem n ι K V A τ}
    (h : env.Recorded start r done mem) (history : mem'.history = mem.history)
    (maps : mem'.maps = mem.maps) : env.Recorded start r done mem' := by
  have events : env.mapEvents mem' = env.mapEvents mem := by rw [mapEvents, history, mapEvents]
  refine ⟨?_, ?_, fun id hid => ?_, fun id hid => ?_⟩
  · rw [history]
    exact h.served
  · rw [history]
    exact h.owned
  · rw [maps, events]
    exact h.map id hid
  · rw [maps, events]
    exact h.multimap id hid

/-- The user's code changes neither the history nor the maps, whether it goes on or returns. -/
theorem Env.command_maps {mem mem' : Mem n ι K V A τ} {call : Call n ι K V A τ U}
    (cmd : (∃ k', env.command mem .user .ret call = .update mem' k') ∨
      env.command mem .user .ret call = .ret mem') :
    mem'.history = mem.history ∧ mem'.maps = mem.maps := by
  rcases cmd with ⟨k', cmd⟩ | cmd
  · cases call <;> cases cmd <;> exact ⟨rfl, rfl⟩
  · cases call <;> cases cmd
    exact ⟨rfl, rfl⟩

/-- **The execution of an operation keeps the record**, with the operation added to the
executions and to the history. -/
theorem Env.Recorded.perform {start : Fin n → Mem n ι K V A τ} {r : Fin n}
    {done : List (Exec n (Payload ι K V A U))} {mem : Mem n ι K V A τ}
    (h : env.Recorded start r done mem) {o : Op ι K V A} (call : env.MayCall r (.op o))
    {e : Exec n (Payload ι K V A U)} (payload : e.rpc.payload = .op o) :
    env.Recorded start r (done ++ [e])
      (env.perform e.src (mem.log (.op e.src o)) o) := by
  obtain ⟨-, history, -⟩ := env.perform_map e.src (mem.log (.op e.src o)) o
  have served : e.served = some (e.src, o) := by simp [Exec.served, payload]
  have events : env.mapEvents (env.perform e.src (mem.log (.op e.src o)) o)
      = env.mapEvents (mem.log (.op e.src o)) := by rw [mapEvents, history, mapEvents]
  refine ⟨?_, fun src o' key member on => ?_, ?_, ?_⟩
  · rw [history]
    simp [Mem.log, List.filterMap_append, h.served, Event.served, served]
  · rw [history] at member
    rcases List.mem_append.mp member with member | member
    · exact h.owned src o' key member on
    · cases List.mem_singleton.mp member
      exact call.1 key on
  · rw [events, env.run_log]
    have logged : FollowsAll (seqMap K V) false (mem.log (.op e.src o)) _ := h.map
    exact logged.perform (specifies_map env) _ call.2
  · rw [events, env.run_log]
    have logged : FollowsAll (seqMultimap K V) true (mem.log (.op e.src o)) _ := h.multimap
    exact logged.perform (specifies_multimap env) _ call.2

/-- A local step that changes the memory leaves the history as it is. -/
theorem Mem.localStep_history {mem after : Mem n ι K V A τ} {step : LocalStep ι K V τ}
    (taken : mem.localStep step = some (.inl after)) : after.history = mem.history := by
  cases step with
  | clear c => cases taken; cases c <;> rfl
  | deserialize c file =>
      simp only [Mem.localStep, Option.map_eq_some_iff, Option.bind_eq_some_iff] at taken
      obtain ⟨_, ⟨saved, -, loaded⟩, out⟩ := taken
      cases out
      cases c <;> cases saved <;> cases loaded <;> rfl
  | size | countMap | countSet => cases taken
  | _ => cases taken; rfl

/-- **A local step keeps the record**, with the step added to the history. -/
theorem Env.Recorded.localStep {start : Fin n → Mem n ι K V A τ} {r : Fin n}
    {done : List (Exec n (Payload ι K V A U))} {mem after : Mem n ι K V A τ}
    (h : env.Recorded start r done mem) {step : LocalStep ι K V τ} (plain : step.Plain)
    (taken : mem.localStep step = some (.inl after)) :
    env.Recorded start r done (after.log (.step step)) := by
  have history := Mem.localStep_history taken
  have events : env.mapEvents (after.log (.step step)) = env.mapEvents (mem.log (.step step)) := by
    simp only [mapEvents, Mem.log, history]
  refine ⟨?_, fun src o key member on => ?_, ?_, ?_⟩
  · simp [Mem.log, List.filterMap_append, history, h.served, Event.served]
  · simp only [Mem.log, history] at member
    rcases List.mem_append.mp member with member | member
    · exact h.owned src o key member on
    · cases List.mem_singleton.mp member
  · rw [events, env.run_log]
    have followed := h.map.localStep (specifies_map env) plain taken
    exact followed
  · rw [events, env.run_log]
    have followed := h.multimap.localStep (specifies_multimap env) plain taken
    exact followed

theorem Env.recorded (plain : env.Plain) (start : Fin n → Mem n ι K V A τ) :
    (env.outline plain).Memory (env.Recorded start) := by
  refine ⟨fun r done mem cause k mem' k' h occurs next => ?_,
    fun r done mem m k mem' e h occurs dest next rpc src => ?_⟩
  · cases k with
    | user u =>
        obtain ⟨history, maps⟩ := env.command_maps (.inl ⟨k', next⟩)
        exact h.of_eq history maps
    | serve src o =>
        simp only [program, env.serve_eq plain] at next
        cases next
    | issue dest o k => cases next
    | step step k =>
        simp only [program] at next
        split at next
        · cases next
        · cases next
          exact h.localStep occurs.2 ‹_›
        · cases next
    | entry => exact occurs.elim
    | visiting => exact occurs.elim
  · cases k with
    | user u =>
        obtain ⟨history, maps⟩ := env.command_maps (.inr next)
        obtain ⟨u', payload⟩ := occurs m rfl
        have same := h.of_eq history maps
        refine ⟨?_, same.owned, same.map, same.multimap⟩
        rw [same.served]
        simp [Exec.served, rpc, payload]
    | serve src' o =>
        simp only [program, env.serve_eq plain] at next
        cases next
        obtain ⟨m', same, src_eq, payload, call⟩ := occurs
        cases same
        rw [dest] at call
        have here : e.src = src' := by rw [src, src_eq]
        rw [← here]
        exact h.perform call (by rw [rpc, payload])
    | issue dest o k => cases next
    | step step k => cases occurs.1
    | entry => exact occurs.elim
    | visiting => exact occurs.elim

/-- **The maps on all ranks refine sequential maps**, which is the conclusion of the refinement
theorem for one state of the system. -/
structure MapsRefine (env : Env n ι K V A τ U) (start : Fin n → Mem n ι K V A τ)
    (c : Sys n (Payload ι K V A U) (Mem n ι K V A τ) (Value ι K V) (Code n ι K V A τ U)) :
    Prop where
  /-- The history of a rank holds the operations executed on it, in the order of their
  execution. -/
  served : ∀ r, (c.rank r).mem.history.filterMap Event.served
    = (c.rank r).executed.filterMap Exec.served
  /-- A key is stored on its owner and on no other rank. -/
  placed : ∀ r id key, ((c.rank r).mem.maps id).localGet key ≠ [] →
    env.partitioner.owner key = r
  /-- A map holds for each key the value of a sequential map after the events on this key, in
  the order of the rank's history. -/
  map : ∀ r name key, ((c.rank r).mem.maps ⟨false, name⟩).localGet key
    = (((seqMap K V).run ((seqMap K V).start (start r))
        ((env.mapEvents (c.rank r).mem).filter (MapEvent.on key)) ⟨false, name⟩).entry key).toList
  /-- A multimap holds for each key the values of a sequential multimap after the events on this
  key, in the order of the rank's history. -/
  multimap : ∀ r name key, ((c.rank r).mem.maps ⟨true, name⟩).localGet key
    = ((seqMultimap K V).run ((seqMultimap K V).start (start r))
        ((env.mapEvents (c.rank r).mem).filter (MapEvent.on key)) ⟨true, name⟩).entry key

/-- A rank that stores a key is the owner of the key. -/
theorem Env.Recorded.placed {start : Fin n → Mem n ι K V A τ} {r : Fin n}
    {done : List (Exec n (Payload ι K V A U))} {mem : Mem n ι K V A τ}
    (h : env.Recorded start r done mem) {id : Id ι} {key : K}
    (stored : (mem.maps id).localGet key ≠ []) : env.partitioner.owner key = r := by
  by_contra other
  have untouched : ∀ id op, MapEvent.op id op ∈ env.mapEvents mem → op.key ≠ key := by
    intro id op member same
    obtain ⟨event, recorded, found⟩ := List.mem_filterMap.mp member
    cases event with
    | op src o =>
        obtain ⟨found', on, eq⟩ := Option.map_eq_some_iff.mp found
        cases eq
        have key_eq : o.mapKey = some key := by
          rw [← same]
          cases o <;> cases on <;> rfl
        exact other (h.owned src o key recorded key_eq)
    | step step =>
        cases step with
        | clear c => cases c <;> cases found
        | _ => cases found
  cases multi : id.multi with
  | false =>
      rw [(h.map id multi).values key, (seqMap K V).run_none (fun _ => rfl) untouched] at stored
      exact stored rfl
  | true =>
      rw [(h.multimap id multi).values key,
        (seqMultimap K V).run_none (fun _ => rfl) untouched] at stored
      exact stored rfl

/-- The record holds of the memory at the start, where nothing is stored or executed. -/
theorem Env.Recorded.init {start : Fin n → Mem n ι K V A τ} {r : Fin n}
    (empty : ∀ id, ((start r).maps id).localMap = .empty) (new : (start r).history = []) :
    env.Recorded start r [] (start r) := by
  refine ⟨?_, ?_, fun id _ => ?_, fun id _ => ?_⟩
  · rw [new]
    rfl
  · rw [new]
    exact nofun
  · rw [Env.mapEvents, new]
    exact ⟨rfl, fun key => by rw [MapImpl.localGet, empty id]; rfl⟩
  · rw [Env.mapEvents, new]
    exact ⟨rfl, fun key => by rw [MapImpl.localGet, empty id]; rfl⟩

/-- **Distributed maps and multimaps refine sequential ones**, in every state of every run of a
plain program: every key is stored on its owner only, with the values that the executed
operations on the key leave in a sequential container. -/
theorem map_refines {cfg : Config} (plain : env.Plain) {start : Fin n → Mem n ι K V A τ}
    {main : Fin n → U} (empty : ∀ r id, ((start r).maps id).localMap = .empty)
    (new : ∀ r, (start r).history = [])
    {c : Sys n (Payload ι K V A U) (Mem n ι K V A τ) (Value ι K V) (Code n ι K V A τ U)}
    (h : (comm cfg env.program start fun r => .user (main r)).Reachable c) :
    MapsRefine env start c := by
  have occurs : ∀ r, (env.outline plain).code none (.user (main r)) := by
    intro r m none
    cases none
  have recorded : ∀ r, env.Recorded start r (c.rank r).executed (c.rank r).mem :=
    Outline.memory (env.recorded plain start) occurs (fun r => .init (empty r) (new r)) h
  refine ⟨fun r => (recorded r).served, fun r id key => (recorded r).placed,
    fun r name key => ?_, fun r name key => ?_⟩
  · rw [((seqMap K V).run_filter _ key _ _).1]
    exact ((recorded r).map ⟨false, name⟩ rfl).values key
  · rw [((seqMultimap K V).run_filter _ key _ _).1]
    exact ((recorded r).multimap ⟨true, name⟩ rfl).values key

end Runs

/-- A program of two ranks that insert, visit and erase keys, clear the multimap and insert
again. -/
def tableCalls (u : ℕ) (mem : Mem 2 Unit ℕ ℕ ℕ Unit) : Call 2 Unit ℕ ℕ ℕ Unit ℕ :=
  match mem.self, u with
  | 0, 0 => .mapInsert ⟨false, ()⟩ 1 5 1
  | 0, 1 => .mapVisit ⟨false, ()⟩ 1 10 2
  | 0, 2 => .mapInsert ⟨true, ()⟩ 2 4 3
  | 1, 0 => .mapVisit ⟨false, ()⟩ 3 20 1
  | 1, 1 => .mapInsert ⟨true, ()⟩ 2 6 2
  | 1, 2 => .mapErase ⟨false, ()⟩ 5 3
  | _, 3 => .collective (.clear (.map ⟨true, ()⟩)) fun _ => 4
  | 0, 4 => .mapInsert ⟨true, ()⟩ 0 1 5
  | _, _ => .ret ()

theorem tableEnv_offset (_ : Payload Unit ℕ ℕ ℕ ℕ) : 8 ≤ 8 :=
  le_rfl

/-- An environment for the program, whose visitors add their argument and the issuing rank to
the value. -/
def tableEnv : Env 2 Unit ℕ ℕ ℕ Unit ℕ where
  partitioner := hashPartitioner 2 UInt64.ofNat
  visitor a := ⟨fun src _ value => value + a + src, none⟩
  sort _ entries := entries
  next := tableCalls
  start _ u := u
  packedSize _ := 8
  offset_le := tableEnv_offset

def tableStart (r : Fin 2) : Mem 2 Unit ℕ ℕ ℕ Unit where
  self := r
  maps _ := ⟨0, .empty⟩
  sets _ := ⟨.empty⟩
  bags _ := ⟨0, []⟩
  files _ := none
  user := ()
  history := []

/-- The communicator of two ranks that run the program over this environment. -/
def tableComm : Machine
    (Sys 2 (Payload Unit ℕ ℕ ℕ ℕ) (Mem 2 Unit ℕ ℕ ℕ Unit) (Value Unit ℕ ℕ) (Code 2 Unit ℕ ℕ ℕ Unit ℕ))
    (Action 2) :=
  comm ⟨16, false⟩ tableEnv.program tableStart fun _ => .user 0

def tableState :=
  tableComm.drive (fun _ _ => True) tableComm.init
    (List.replicate 7 (mains 0 9 ++ mains 1 9 ++
      [.listen 0 1, .listen 0 1, .listen 1 0, .listen 1 0])).flatten

/-- At the end of a run of the program, rank 1 has the two keys it owns, and rank 0 the entry it
was sent after the clear. -/
theorem map_refines_tables :
    ((tableState.rank 0).mem.maps ⟨true, ()⟩).localMap.entries = [(0, 1)] ∧
    ((tableState.rank 1).mem.maps ⟨false, ()⟩).localMap.entries = [(1, 15), (3, 21)] ∧
      MapsRefine tableEnv tableStart tableState := by
  have plain : tableEnv.Plain := by
    refine ⟨fun _ => rfl, fun u mem step k next => ?_⟩
    simp only [tableEnv, tableCalls] at next
    split at next <;> cases next
    trivial
  exact ⟨by decide +kernel, by decide +kernel,
    map_refines plain (fun _ _ => rfl) (fun _ => rfl) (Machine.ReachableBy.init.drive _)⟩

end YGM
