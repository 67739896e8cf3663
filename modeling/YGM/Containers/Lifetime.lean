import YGM.Comm.Activations
import YGM.Comm.Reductions
import YGM.Comm.Script

/-!
# Containers and their pointers

This file is `ygm_ptr` of `include/ygm/detail/ygm_ptr.hpp` and the constructors, destructors
and `swap` of the containers.

A container is known to other ranks by the index that its `pthis` got when it was
registered: the size of the vector `sptrs` of its type, converted to `uint32_t`.  A call to
another rank carries the index, and the handler finds there whatever that rank has
registered under it.  A constructor registers and then runs `barrier`; a destructor runs
`barrier`, and then the object is gone.  `swap` exchanges what two containers hold, and not
their pointers.

A user program (`LifeUser`) constructs and destroys containers of any number of types in
its main programs, sends calls through them from everywhere, and works on what is behind a
pointer it has received.  It runs on the communicator as `lifeProgram`.  Objects are known
by the order they were constructed in on their rank; `LifeMem.log` and `LifeMem.done`
record the collective calls begun and completed, and `Target.container` the container a
call was sent through.  Nothing reads these.

A destructor also runs `MPI_Barrier` when its copy of the communicator is destroyed, which
only delays a rank and is left out.
-/

namespace YGM

namespace Lifetime

variable {n : ℕ} {T D P σ V C : Type}

/-! ## Objects and pointers -/

/-- The stage of an object's life: in its constructor, alive (also in its destructor until the
barrier has returned), or gone. -/
inductive Stage
  | constructing
  | alive
  | gone
deriving DecidableEq

/-- **A container object**: its type, the index in its `pthis`, its stage, and the data it
holds. -/
structure Object (T D : Type) where
  type : T
  idx : ℕ
  stage : Stage
  data : D

/-- A `ygm_ptr<T>`: the type `T` of the object and the index under which the object is
registered. -/
structure Pointer (T : Type) where
  type : T
  idx : ℕ
deriving DecidableEq

/-- A pointer in a call, with the number of the container it was taken from (history). -/
structure Target (T : Type) where
  ptr : Pointer T
  container : ℕ
deriving DecidableEq

/-- The content of a call: its arguments, with pointers to the containers it addresses. -/
structure Message (T P : Type) where
  value : P
  targets : List (Target T)

/-- The collective calls that all ranks make together. -/
inductive Collective (T : Type)
  | construct (type : T)
  | destroy (container : ℕ)
  | swap (a b : ℕ)
  | barrier
deriving DecidableEq

/-- **The memory of a rank**: the memory of the user's code, the container objects, and the
registered pointers. -/
structure LifeMem (T D σ : Type) where
  mem : σ
  /-- The containers of the rank, in the order of their construction. -/
  objects : List (Object T D)
  /-- `ygm_ptr<T>::sptrs` for each type, holding the numbers of the registered objects. -/
  sptrs : T → List ℕ
  /-- The collective calls that the rank has begun (history). -/
  log : List (Collective T)
  /-- The number of collective calls that have returned on the rank (history). -/
  done : ℕ

/-- The access of code to a container: its main program knows the container by number, and a
handler has received a pointer. -/
inductive Address (T : Type)
  | object (container : ℕ)
  | through (ptr : Pointer T)

namespace LifeMem

variable (s : LifeMem T D σ)

/-- `operator*` of a pointer: the number of the container that is registered under its index. -/
def find : Address T → Option ℕ
  | .object container => some container
  | .through ptr => (s.sptrs ptr.type)[ptr.idx]?

/-- The container object at an address, if there is one. -/
def object? (a : Address T) : Option (Object T D) :=
  (s.find a).bind fun container => s.objects[container]?

/-- The `pthis` of the container at an address, with the number of the container. -/
def target? (a : Address T) : Option (Target T) :=
  (s.find a).bind fun container =>
    s.objects[container]?.map fun object => ⟨⟨object.type, object.idx⟩, container⟩

/-- **A constructor, up to its barrier**: `pthis(this)` registers the object under the next
index of its type, as a `uint32_t`. -/
def register [DecidableEq T] (type : T) (data : D) : LifeMem T D σ :=
  { s with
    objects := s.objects ++ [⟨type, (s.sptrs type).length % 2 ^ 32, .constructing, data⟩]
    sptrs := Function.update s.sptrs type (s.sptrs type ++ [s.objects.length]) }

/-- The memory after the object of a container has come to another stage. -/
def enter (container : ℕ) (stage : Stage) : LifeMem T D σ :=
  { s with objects := s.objects.modify container fun object => { object with stage := stage } }

/-- The memory after two objects have exchanged the data they hold. -/
def exchange (a b : ℕ) : LifeMem T D σ :=
  match s.objects[a]?, s.objects[b]? with
  | some x, some y =>
      { s with
        objects := (s.objects.modify a fun object => { object with data := y.data }).modify b
          fun object => { object with data := x.data } }
  | _, _ => s

/-- **The part of a collective call behind its barrier**: a constructor ends, a destructor ends,
or two containers exchange their data. -/
def complete : Collective T → LifeMem T D σ
  | .construct _ => s.enter (s.objects.length - 1) .alive
  | .destroy container => s.enter container .gone
  | .swap a b => s.exchange a b
  | .barrier => s

/-- The memory after a collective call has begun (history). -/
def begin (x : Collective T) : LifeMem T D σ :=
  { s with log := s.log ++ [x] }

end LifeMem

/-! ## Programs -/

/-- **The next action of user code with containers**: a command that concerns no container, a
collective call on containers, or a call that addresses containers. -/
inductive LifeCmd (n : ℕ) (T D P σ V C : Type)
  | plain (cmd : Cmd n P σ V C)
  /-- A container is constructed with `data` in it; the continuation `k` gets its number. -/
  | construct (type : T) (data : D) (k : ℕ → C)
  /-- A container goes out of scope, and its destructor runs. -/
  | destroy (container : ℕ) (k : C)
  | swap (a b : ℕ) (k : C)
  /-- A call `async(dest, …)` that carries the `pthis` of the containers at `addresses`. -/
  | use (addresses : List (Address T)) (dest : Fin n) (payload : P) (k : C)
  /-- A function works on the data that the container at an address holds. -/
  | visit (address : Address T) (fn : σ → D → σ × D) (k : C)

/-- **User code with containers**: its actions, its handlers, and the packed sizes of its calls. -/
structure LifeUser (n : ℕ) (T D P σ V C : Type) where
  next : C → σ → LifeCmd n T D P σ V C
  handler : Fin n → P → List (Pointer T) → C
  packedSize : P → ℕ
  offset_le : ∀ p, 8 ≤ packedSize p
  combine : (Fin n → V) → V

/-- The code points of `lifeProgram`: user code, and the two sides of the barrier of a
collective call. -/
inductive LifeCode (T C : Type)
  | user (k : C)
  /-- The main program is about to call `barrier` for a collective call. -/
  | entering (x : Collective T) (k : C)
  /-- The main program has returned from the barrier of a collective call. -/
  | leaving (x : Collective T) (k : C)

def LifeCode.user? : LifeCode T C → Option C
  | .user k => some k
  | _ => none

/-- The state of a rank that runs `lifeProgram`. -/
abbrev LifeRank (n : ℕ) (T D P σ V C : Type) :=
  Rank n (Message T P) (LifeMem T D σ) V (LifeCode T C)

/-- The state of all ranks that run `lifeProgram`. -/
abbrev LifeSys (n : ℕ) (T D P σ V C : Type) :=
  Sys n (Message T P) (LifeMem T D σ) V (LifeCode T C)

/-- The start of a collective call: its work before the barrier is done, and the barrier is
next. -/
def collect (s : LifeMem T D σ) (x : Collective T) (k : C) :
    Cmd n (Message T P) (LifeMem T D σ) V (LifeCode T C) :=
  .update (s.begin x) (.entering x k)

/-- A command of user code that concerns no container, as a command of `lifeProgram`. -/
def plain (s : LifeMem T D σ) :
    Cmd n P σ V C → Cmd n (Message T P) (LifeMem T D σ) V (LifeCode T C)
  | .ret mem => .ret { s with mem := mem }
  | .update mem k => .update { s with mem := mem } (.user k)
  | .async dest payload k => .async dest ⟨payload, []⟩ (.user k)
  | .asyncFlush dest k => .asyncFlush dest (.user k)
  | .asyncFlushAll k => .asyncFlushAll (.user k)
  | .barrier k => collect s .barrier k
  | .allReduce value k => .allReduce value fun result => .user (k result)
  | .kill k => .kill (.user k)

/-- The work of a visit to the object at an address.  Where no object is, the source is
undefined, and the code does not go on. -/
def visit (s : LifeMem T D σ) (address : Address T) (fn : σ → D → σ × D) (k here : C) :
    Cmd n (Message T P) (LifeMem T D σ) V (LifeCode T C) :=
  match s.find address with
  | none => .update s (.user here)
  | some container =>
      match s.objects[container]? with
      | none => .update s (.user here)
      | some object =>
          .update
            { s with
              mem := (fn s.mem object.data).1
              objects := s.objects.modify container fun found =>
                { found with data := (fn s.mem object.data).2 } } (.user k)

/-- **User code with containers, as a program of the communicator**: every collective call works
before its barrier, calls `barrier`, and works behind it. -/
def lifeProgram [DecidableEq T] (u : LifeUser n T D P σ V C) :
    Program n (Message T P) (LifeMem T D σ) V (LifeCode T C) where
  next
    | .user here, s =>
        match u.next here s.mem with
        | .plain cmd => plain s cmd
        | .construct type data k =>
            collect (s.register type data) (.construct type) (k s.objects.length)
        | .destroy container k => collect s (.destroy container) k
        | .swap a b k => collect s (.swap a b) k
        | .use addresses dest payload k =>
            .async dest ⟨payload, addresses.filterMap s.target?⟩ (.user k)
        | .visit address fn k => visit s address fn k here
    | .entering x k, _ => .barrier (.leaving x k)
    | .leaving x k, s => .update { s.complete x with done := s.done + 1 } (.user k)
  handler src message :=
    .user (u.handler src message.value (message.targets.map Target.ptr))
  packedSize message := u.packedSize message.value
  offset_le message := u.offset_le message.value
  combine := u.combine

/-- The memory of a rank before any container is constructed. -/
def LifeMem.init (mem : σ) : LifeMem T D σ where
  mem := mem
  objects := []
  sptrs := fun _ => []
  log := []
  done := 0

/-- The communicator that runs user code with containers. -/
def lifeComm [DecidableEq T] (cfg : Config) (u : LifeUser n T D P σ V C) (mem : Fin n → σ)
    (main : Fin n → C) : Machine (LifeSys n T D P σ V C) (Action n) :=
  comm cfg (lifeProgram u) (fun r => .init (mem r)) fun r => .user (main r)

/-! ## The conditions -/

/-- Rank `r` is about to make the collective call `x` properly: it makes the call from its main
program, and every rank that has made this call already has made the same one. -/
def Joins (c : LifeSys n T D P σ V C) (r : Fin n) (x : Collective T) : Prop :=
  (c.rank r).stack.isEmpty ∧
    ∀ i, ∀ y ∈ (c.rank i).mem.log[(c.rank r).mem.log.length]?, y = x

/-- **The rules for the next step of a rank**: all ranks make their collective calls in the same
order; a container is used and destroyed only between the end of its constructor and its
destruction; and `sptrs` has room for another index. -/
def Allowed (c : LifeSys n T D P σ V C) (r : Fin n) : LifeCmd n T D P σ V C → Prop
  | .construct type _ _ =>
      Joins c r (.construct type) ∧ ((c.rank r).mem.sptrs type).length < 2 ^ 32
  | .destroy container _ =>
      Joins c r (.destroy container) ∧
        ((c.rank r).mem.object? (.object container)).map Object.stage = some .alive
  | .swap a b _ => Joins c r (.swap a b)
  | .plain (.barrier _) => Joins c r .barrier
  | .use addresses _ _ _ =>
      ∀ a ∈ addresses, ((c.rank r).mem.object? a).map Object.stage = some .alive
  | _ => True

/-- **A step that respects the rules**, as the step of a main program or of the handler it is
running; steps of listeners always do. -/
def LifeUser.Lawful (u : LifeUser n T D P σ V C) (c : LifeSys n T D P σ V C) :
    Action n → Prop
  | .main r _ =>
      ∀ k ∈ (c.rank r).running.bind LifeCode.user?, Allowed c r (u.next k (c.rank r).mem.mem)
  | .listen _ _ => True

instance [DecidableEq T] (c : LifeSys n T D P σ V C) (r : Fin n) (x : Collective T) :
    Decidable (Joins c r x) :=
  inferInstanceAs (Decidable ((c.rank r).stack.isEmpty ∧
    ∀ i, ∀ y ∈ (c.rank i).mem.log[(c.rank r).mem.log.length]?, y = x))

instance [DecidableEq T] (c : LifeSys n T D P σ V C) (r : Fin n) :
    ∀ cmd, Decidable (Allowed c r cmd)
  | .construct _ _ _ => inferInstanceAs (Decidable (_ ∧ _ < _))
  | .destroy _ _ => inferInstanceAs (Decidable (_ ∧ _ = _))
  | .swap _ _ _ => inferInstanceAs (Decidable (Joins _ _ _))
  | .plain (.barrier _) => inferInstanceAs (Decidable (Joins _ _ _))
  | .use addresses _ _ _ => inferInstanceAs (Decidable (∀ a ∈ addresses, _ = _))
  | .visit _ _ _ | .plain (.ret _) | .plain (.update _ _) | .plain (.async _ _ _)
  | .plain (.asyncFlush _ _) | .plain (.asyncFlushAll _) | .plain (.allReduce _ _)
  | .plain (.kill _) => inferInstanceAs (Decidable True)

instance [DecidableEq T] (u : LifeUser n T D P σ V C) (c : LifeSys n T D P σ V C) :
    ∀ a, Decidable (u.Lawful c a)
  | .main r _ => inferInstanceAs (Decidable (∀ k ∈ (c.rank r).running.bind LifeCode.user?,
      Allowed c r (u.next k (c.rank r).mem.mem)))
  | .listen _ _ => inferInstanceAs (Decidable True)

/-! ## What the log says -/

/-- The types of the containers that the calls of `log` construct, in order. -/
def created (log : List (Collective T)) : List T :=
  log.filterMap fun
    | .construct type => some type
    | _ => none

/-- The containers of one type, given by their numbers among all containers. -/
def places [DecidableEq T] (types : List T) (type : T) : List ℕ :=
  (List.range types.length).filter fun i => types[i]? = some type

/-- The stage of a container when all calls of `log` have returned. -/
def stageOf [DecidableEq T] (log : List (Collective T)) (container : ℕ) : Stage :=
  if .destroy container ∈ log then .gone
  else if container < (created log).length then .alive
  else .constructing

theorem created_append (log log' : List (Collective T)) :
    created (log ++ log') = created log ++ created log' :=
  List.filterMap_append ..

theorem created_prefix (log : List (Collective T)) (k : ℕ) :
    created (log.take k) <+: created log := by
  refine ⟨created (log.drop k), ?_⟩
  rw [← created_append, List.take_append_drop]

/-- Every container of a log was constructed by one of its calls, before which as many
containers were constructed as its number says. -/
theorem exists_construct {log : List (Collective T)} {i : ℕ} {type : T}
    (h : (created log)[i]? = some type) :
    ∃ p, log[p]? = some (.construct type) ∧ (created (log.take p)).length = i := by
  induction log using List.reverseRecOn with
  | nil => simp [created] at h
  | append_singleton log x ih =>
      by_cases old : i < (created log).length
      · rw [created_append, List.getElem?_append_left old] at h
        obtain ⟨p, here, before⟩ := ih h
        have lt : p < log.length := (List.getElem?_eq_some_iff.mp here).1
        exact ⟨p, by rwa [List.getElem?_append_left lt], by
          rwa [List.take_append_of_le_length lt.le]⟩
      · cases x <;> simp only [created_append, List.getElem?_append_right (not_lt.mp old)] at h
        case construct type' =>
          have here : i = (created log).length := by
            have last : i - (created log).length < 1 := (List.getElem?_eq_some_iff.mp h).1
            omega
          subst here
          simp only [created, List.filterMap_cons, List.filterMap_nil, Nat.sub_self,
            List.getElem?_cons_zero, Option.some.injEq] at h
          exact ⟨log.length, by simp [h], by simp⟩
        all_goals simp [created] at h

section Places

variable [DecidableEq T]

theorem places_concat (types : List T) (t type : T) :
    places (types ++ [t]) type
      = places types type ++ if t = type then [types.length] else [] := by
  have old : (List.range types.length).filter (fun i => (types ++ [t])[i]? = some type)
      = places types type := by
    refine List.filter_congr fun i hi => ?_
    rw [List.getElem?_append_left (List.mem_range.mp hi)]
  rw [places, List.length_append, List.length_singleton, List.range_succ, List.filter_append,
    old]
  by_cases same : t = type <;> simp [same]

theorem length_places (types : List T) (type : T) :
    (places types type).length = types.count type := by
  induction types using List.reverseRecOn with
  | nil => rfl
  | append_singleton types t ih =>
      rw [places_concat, List.length_append, ih, List.count_append]
      by_cases same : t = type <;> simp [same]

/-- **A container is registered under its index**: the place of its number among those of its
type is the number of earlier containers of this type. -/
theorem places_getElem? {types : List T} {i : ℕ} {type : T} (h : types[i]? = some type) :
    (places types type)[(types.take i).count type]? = some i := by
  induction types using List.reverseRecOn with
  | nil => simp at h
  | append_singleton types t ih =>
      rw [places_concat]
      by_cases old : i < types.length
      · rw [List.getElem?_append_left old] at h
        rw [List.take_append_of_le_length old.le]
        have here := ih h
        rw [List.getElem?_append_left (List.getElem?_eq_some_iff.mp here).1, here]
      · have here : i = types.length := by
          have := (List.getElem?_eq_some_iff.mp h).1
          simp only [List.length_append, List.length_singleton] at this
          omega
        subst here
        obtain rfl : t = type := by simpa using h
        simp [← length_places]

end Places

/-! ## Memory -/

/-- The part of an object that is the same on all ranks: its type, its index and its stage. -/
def Object.skeleton (object : Object T D) : T × ℕ × Stage :=
  (object.type, object.idx, object.stage)

theorem skeleton_modify (objects : List (Object T D)) (container : ℕ) (data : D) (i : ℕ) :
    (objects.modify container fun object => { object with data := data })[i]?.map
      Object.skeleton = objects[i]?.map Object.skeleton := by
  rw [List.getElem?_modify]
  by_cases here : container = i
  · cases objects[i]? <;> simp [here, Object.skeleton]
  · cases objects[i]? <;> simp [here]

theorem LifeMem.skeleton_exchange (s : LifeMem T D σ) (a b i : ℕ) :
    (s.exchange a b).objects[i]?.map Object.skeleton = s.objects[i]?.map Object.skeleton := by
  unfold LifeMem.exchange
  split
  · exact (skeleton_modify _ b _ i).trans (skeleton_modify _ a _ i)
  · rfl

theorem LifeMem.log_complete (s : LifeMem T D σ) (x : Collective T) :
    (s.complete x).log = s.log := by
  cases x with
  | swap a b =>
      simp only [LifeMem.complete, LifeMem.exchange]
      split <;> rfl
  | _ => rfl

/-- An item of a list with one more item is an item of the list, or the last one. -/
theorem getElem?_concat_cases {α : Type} {items : List α} {x y : α} {p : ℕ}
    (h : (items ++ [x])[p]? = some y) :
    p < items.length ∧ items[p]? = some y ∨ p = items.length ∧ y = x := by
  by_cases before : p < items.length
  · exact .inl ⟨before, by rwa [List.getElem?_append_left before] at h⟩
  · have last : p = items.length := by
      have := (List.getElem?_eq_some_iff.mp h).1
      simp only [List.length_append, List.length_singleton] at this
      omega
    subst last
    exact .inr ⟨rfl, by simpa using h.symm⟩

section Memory

variable [DecidableEq T] {s : LifeMem T D σ}

/-- **The memory of a rank matches its log**: objects are registered in the order of
construction, and their types, indices and stages follow from the log. -/
structure LifeMem.Consistent (s : LifeMem T D σ) : Prop where
  registered : ∀ type, s.sptrs type = places (created s.log) type
  objects : ∀ i, s.objects[i]?.map Object.skeleton
    = (created s.log)[i]?.map fun type =>
        (type, ((created s.log).take i).count type, stageOf (s.log.take s.done) i)
  destroyed : ∀ p i, s.log[p]? = some (.destroy i) → i < (created (s.log.take p)).length

theorem LifeMem.Consistent.length (h : s.Consistent) :
    s.objects.length = (created s.log).length := by
  refine le_antisymm ?_ ?_
  · by_contra more
    have here := h.objects (created s.log).length
    simp [List.getElem?_eq_getElem (not_le.mp more)] at here
  · by_contra more
    have here := h.objects s.objects.length
    simp [List.getElem?_eq_getElem (not_le.mp more)] at here

/-- A step that changes only the data of objects keeps the memory consistent with the log. -/
theorem LifeMem.Consistent.of_data (h : s.Consistent) {s' : LifeMem T D σ}
    (objects : ∀ i : ℕ, s'.objects[i]?.map Object.skeleton = s.objects[i]?.map Object.skeleton)
    (sptrs : s'.sptrs = s.sptrs) (log : s'.log = s.log) (done : s'.done = s.done) :
    s'.Consistent := by
  refine ⟨?_, fun i => ?_, ?_⟩
  · rw [sptrs, log]
    exact h.registered
  · rw [objects, log, done]
    exact h.objects i
  · rw [log]
    exact h.destroyed

/-- The start of a collective call that constructs nothing, and destroys at most an existing
container, keeps the memory consistent with the log. -/
theorem LifeMem.Consistent.begin (h : s.Consistent) (settled : s.log.length = s.done)
    {x : Collective T} (old : created [x] = [])
    (alive : ∀ i, x = .destroy i → i < (created s.log).length) : (s.begin x).Consistent := by
  have types : created (s.log ++ [x]) = created s.log := by
    rw [created_append, old, List.append_nil]
  refine ⟨fun type => ?_, fun i => ?_, fun p i here => ?_⟩
  · simpa [LifeMem.begin, types] using h.registered type
  · have done : (s.log ++ [x]).take s.done = s.log.take s.done := by
      rw [← settled, List.take_left, List.take_length]
    simpa [LifeMem.begin, types, done] using h.objects i
  · simp only [LifeMem.begin] at here ⊢
    rcases getElem?_concat_cases here with ⟨lt, old⟩ | ⟨rfl, new⟩
    · rw [List.take_append_of_le_length lt.le]
      exact h.destroyed p i old
    · rw [List.take_left]
      exact alive i new.symm

/-- **A constructor that registers its object** in the next place of its type keeps the memory
consistent with the log, as long as the index fits. -/
theorem LifeMem.Consistent.register (h : s.Consistent) (settled : s.log.length = s.done)
    {type : T} {data : D} (room : (s.sptrs type).length < 2 ^ 32) :
    ((s.register type data).begin (.construct type)).Consistent := by
  have types : created (s.log ++ [.construct type]) = created s.log ++ [type] := by
    rw [created_append]
    rfl
  have done : (s.log ++ [Collective.construct type]).take s.done = s.log.take s.done := by
    rw [← settled, List.take_left, List.take_length]
  refine ⟨fun type' => ?_, fun i => ?_, fun p i here => ?_⟩
  · simp only [LifeMem.begin, LifeMem.register, types, places_concat]
    by_cases same : type' = type
    · subst same
      simp [h.registered, h.length]
    · simp [Function.update_of_ne same, h.registered, Ne.symm same]
  · simp only [LifeMem.begin, LifeMem.register, types, done]
    rcases lt_trichotomy i (created s.log).length with lt | rfl | gt
    · rw [List.getElem?_append_left (h.length ▸ lt), List.getElem?_append_left lt,
        List.take_append_of_le_length lt.le]
      exact h.objects i
    · have fresh : stageOf (s.log.take s.done) (created s.log).length = .constructing := by
        have whole : s.log.take s.done = s.log := by rw [← settled, List.take_length]
        rw [whole, stageOf, if_neg, if_neg (lt_irrefl _)]
        intro gone
        obtain ⟨p, here⟩ := List.getElem?_of_mem gone
        have before := h.destroyed p _ here
        have short := ( created_prefix s.log p).length_le
        omega
      rw [h.registered, length_places] at room
      rw [← h.length, List.getElem?_concat_length, h.length, List.getElem?_concat_length,
        List.take_left]
      simp only [Option.map_some, Object.skeleton, h.registered, length_places,
        Nat.mod_eq_of_lt room, fresh]
    · rw [List.getElem?_eq_none (by simpa [h.length] using Nat.succ_le_of_lt gt),
        List.getElem?_eq_none (by simpa using Nat.succ_le_of_lt gt)]
      rfl
  · simp only [LifeMem.begin, LifeMem.register] at here ⊢
    rcases getElem?_concat_cases here with ⟨lt, old⟩ | ⟨-, new⟩
    · rw [List.take_append_of_le_length lt.le]
      exact h.destroyed p i old
    · cases new

/-- The type, the index and the stage of an object are those that the log gives for its number. -/
theorem LifeMem.Consistent.object (h : s.Consistent) {i : ℕ} {object : Object T D}
    (here : s.objects[i]? = some object) :
    (created s.log)[i]? = some object.type ∧
      object.idx = ((created s.log).take i).count object.type ∧
      object.stage = stageOf (s.log.take s.done) i := by
  have said := h.objects i
  rw [here] at said
  cases type : (created s.log)[i]? with
  | none => simp [type] at said
  | some type' =>
      simp only [type, Option.map_some, Object.skeleton, Option.some.injEq, Prod.mk.injEq] at said
      obtain ⟨rfl, idx, stage⟩ := said
      exact ⟨rfl, idx, stage⟩

/-- A container that the first `k` calls of the log destroy is one that they construct. -/
theorem LifeMem.Consistent.made (h : s.Consistent) {k i : ℕ}
    (gone : .destroy i ∈ s.log.take k) : i < (created (s.log.take k)).length := by
  obtain ⟨p, here⟩ := List.getElem?_of_mem gone
  have short := (List.getElem?_eq_some_iff.mp here).1
  rw [List.length_take] at short
  rw [List.getElem?_take_of_lt (by omega)] at here
  have earlier := created_prefix (s.log.take k) p
  rw [List.take_take, min_eq_left (by omega)] at earlier
  exact (h.destroyed p i here).trans_le earlier.length_le

/-! ## Stages -/

/-- One more collective call does not change the stage of a container that it neither constructs
nor destroys. -/
theorem stageOf_concat_of_ne {log : List (Collective T)} {x : Collective T} {i : ℕ}
    (other : x ≠ .destroy i) (old : created [x] = [] ∨ i ≠ (created log).length)
    (made : i < (created (log ++ [x])).length) : stageOf (log ++ [x]) i = stageOf log i := by
  by_cases gone : .destroy i ∈ log
  · simp [stageOf, gone]
  · have before : i < (created log).length := by
      rw [created_append, List.length_append] at made
      rcases old with none | ne
      · simpa [none] using made
      · have : (created [x]).length ≤ 1 := List.length_filterMap_le _ _
        omega
    simp [stageOf, gone, Ne.symm other, before, made]

theorem stageOf_construct {log : List (Collective T)} (type : T)
    (fresh : .destroy (created log).length ∉ log) :
    stageOf (log ++ [.construct type]) (created log).length = .alive := by
  have made : (created log).length < (created (log ++ [.construct type])).length := by
    simp [created]
  rw [stageOf, if_neg (by simpa using fresh), if_pos made]

theorem stageOf_destroy (log : List (Collective T)) (container : ℕ) :
    stageOf (log ++ [.destroy container]) container = .gone := by
  simp [stageOf]

/-- If the objects are at the stages that the log gives once its last call has returned, the
memory is consistent with this call as done. -/
theorem LifeMem.Consistent.advance (h : s.Consistent) (settled : s.log.length = s.done + 1)
    {s' : LifeMem T D σ}
    (objects : ∀ i : ℕ, s'.objects[i]?.map Object.skeleton
      = s.objects[i]?.map fun object => (object.type, object.idx, stageOf s.log i))
    (sptrs : s'.sptrs = s.sptrs) (log : s'.log = s.log) :
    LifeMem.Consistent { s' with done := s.done + 1 } := by
  refine ⟨?_, fun i => ?_, ?_⟩
  · simpa only [sptrs, log] using h.registered
  · simp only [objects, log, ← settled, List.take_length]
    cases here : s.objects[i]? with
    | none =>
        have said := h.objects i
        rw [here] at said
        cases type : (created s.log)[i]? with
        | none => rfl
        | some type' => simp [type] at said
    | some object =>
        obtain ⟨type, idx, -⟩ := h.object here
        simp [type, idx]
  · simpa only [log] using h.destroyed

/-- **The return of a collective call**, which brings the container it constructs or destroys to
its next stage, keeps the memory consistent with the log. -/
theorem LifeMem.Consistent.complete (h : s.Consistent) {x : Collective T}
    (settled : s.log.length = s.done + 1) (last : s.log[s.done]? = some x) :
    LifeMem.Consistent { s.complete x with done := s.done + 1 } := by
  obtain ⟨log, before, split⟩ : ∃ log, s.log.take s.done = log ∧ s.log = log ++ [x] := by
    obtain ⟨lt, here⟩ := List.getElem?_eq_some_iff.mp last
    refine ⟨_, rfl, ?_⟩
    rw [← here, ← List.take_succ_eq_append_getElem lt, ← settled, List.take_length]
  -- what happens to no object of its own leaves every stage
  have same : ∀ i object, s.objects[i]? = some object → x ≠ .destroy i →
      (created [x] = [] ∨ i ≠ (created log).length) → object.stage = stageOf s.log i := by
    intro i object here other old
    obtain ⟨type, -, stage⟩ := h.object here
    have made := (List.getElem?_eq_some_iff.mp type).1
    rw [split] at made
    rw [stage, before, split, stageOf_concat_of_ne other old made]
  have enters : ∀ container stage, stageOf s.log container = stage →
      (∀ i object, s.objects[i]? = some object → i ≠ container →
        object.stage = stageOf s.log i) →
      LifeMem.Consistent { s.enter container stage with done := s.done + 1 } := by
    intro container stage now others
    refine h.advance settled (fun i => ?_) rfl rfl
    simp only [LifeMem.enter, List.getElem?_modify]
    cases here : s.objects[i]? with
    | none => simp
    | some object =>
        by_cases mine : container = i
        · subst mine
          simp [Object.skeleton, now]
        · simp [Object.skeleton, mine, others i object here (Ne.symm mine)]
  cases x with
  | construct type =>
      have length : s.objects.length - 1 = (created log).length := by
        rw [h.length, split, created_append]
        simp [created]
      refine enters _ _ ?_ fun i object here ne => same i object here (by simp) (.inr (length ▸ ne))
      rw [length, split]
      refine stageOf_construct type fun gone => ?_
      rw [← before] at gone
      exact lt_irrefl _ (h.made gone)
  | destroy container =>
      refine enters _ _ ?_ fun i object here ne => same i object here (by simpa using ne.symm) (.inl rfl)
      rw [split]
      exact stageOf_destroy log container
  | swap a b =>
      have exchanged : LifeMem.Consistent { s.exchange a b with done := s.done + 1 } := by
        refine h.advance settled (fun i => ?_) ?_ ?_
        · rw [s.skeleton_exchange]
          cases here : s.objects[i]? with
          | none => rfl
          | some object => simp [Object.skeleton, same i object here (by simp) (.inl rfl)]
        all_goals
          unfold LifeMem.exchange
          split <;> rfl
      exact exchanged
  | barrier =>
      refine h.advance settled (fun i => ?_) rfl rfl
      cases here : s.objects[i]? with
      | none => simp [LifeMem.complete, here]
      | some object =>
          simp [LifeMem.complete, here, Object.skeleton, same i object here (by simp) (.inl rfl)]

end Memory

/-! ## Commands -/

section Commands

variable [DecidableEq T] {u : LifeUser n T D P σ V C} {s s' : LifeMem T D σ}
variable {code code' : LifeCode T C}

/-- **The start of a collective call**: the command of user code, the call that is logged, and
the memory after the work before its barrier. -/
inductive Begins (s : LifeMem T D σ) :
    LifeCmd n T D P σ V C → Collective T → LifeMem T D σ → Prop
  | construct (type : T) (data : D) (k : ℕ → C) :
      Begins s (.construct type data k) (.construct type)
        ((s.register type data).begin (.construct type))
  | destroy (container : ℕ) (k : C) :
      Begins s (.destroy container k) (.destroy container) (s.begin (.destroy container))
  | swap (a b : ℕ) (k : C) : Begins s (.swap a b k) (.swap a b) (s.begin (.swap a b))
  | barrier (k : C) : Begins s (.plain (.barrier k)) .barrier (s.begin .barrier)

theorem Begins.log {cmd : LifeCmd n T D P σ V C} {x : Collective T}
    (begins : Begins s cmd x s') : s'.log = s.log ++ [x] ∧ s'.done = s.done := by
  cases begins <;> exact ⟨rfl, rfl⟩

/-- **The computations of `lifeProgram`** are a step of user code, the start of a collective
call, and the end of a collective call. -/
theorem lifeProgram_update (cmd : (lifeProgram u).next code s = .update s' code') :
    (∃ k k', code = .user k ∧ code' = .user k' ∧ s'.log = s.log ∧ s'.done = s.done ∧
      (s.Consistent → s'.Consistent)) ∨
    (∃ k x k', code = .user k ∧ code' = .entering x k' ∧ Begins s (u.next k s.mem) x s') ∨
    ∃ x k, code = .leaving x k ∧ code' = .user k ∧
      s' = { s.complete x with done := s.done + 1 } := by
  have kept : ∀ {mem : σ} {container : ℕ} {data : D}, s.Consistent → LifeMem.Consistent
      { s with
        mem := mem
        objects := s.objects.modify container fun object => { object with data := data } } :=
    fun h => h.of_data (fun i => skeleton_modify _ _ _ i) rfl rfl rfl
  cases code with
  | user k =>
      cases next : u.next k s.mem with
      | plain user =>
          simp only [lifeProgram, next] at cmd
          cases user <;> simp only [plain, reduceCtorEq, Cmd.update.injEq] at cmd
          case update mem k' =>
            obtain ⟨rfl, rfl⟩ := cmd
            exact .inl ⟨k, k', rfl, rfl, rfl, rfl, fun h => h.of_data (fun _ => rfl) rfl rfl rfl⟩
          case barrier k' =>
            simp only [collect, Cmd.update.injEq] at cmd
            obtain ⟨rfl, rfl⟩ := cmd
            exact .inr (.inl ⟨k, _, k', rfl, rfl, next ▸ .barrier k'⟩)
      | construct type data k' =>
          simp only [lifeProgram, next, collect, Cmd.update.injEq] at cmd
          obtain ⟨rfl, rfl⟩ := cmd
          exact .inr (.inl ⟨k, _, _, rfl, rfl, next ▸ .construct type data k'⟩)
      | destroy container k' =>
          simp only [lifeProgram, next, collect, Cmd.update.injEq] at cmd
          obtain ⟨rfl, rfl⟩ := cmd
          exact .inr (.inl ⟨k, _, _, rfl, rfl, next ▸ .destroy container k'⟩)
      | swap a b k' =>
          simp only [lifeProgram, next, collect, Cmd.update.injEq] at cmd
          obtain ⟨rfl, rfl⟩ := cmd
          exact .inr (.inl ⟨k, _, _, rfl, rfl, next ▸ .swap a b k'⟩)
      | use addresses dest payload k' => simp [lifeProgram, next] at cmd
      | visit address fn k' =>
          simp only [lifeProgram, next, visit] at cmd
          left
          split at cmd
          · obtain ⟨rfl, rfl⟩ := Cmd.update.inj cmd
            exact ⟨k, k, rfl, rfl, rfl, rfl, id⟩
          · split at cmd
            · obtain ⟨rfl, rfl⟩ := Cmd.update.inj cmd
              exact ⟨k, k, rfl, rfl, rfl, rfl, id⟩
            · obtain ⟨rfl, rfl⟩ := Cmd.update.inj cmd
              exact ⟨k, k', rfl, rfl, rfl, rfl, kept⟩
  | entering x k => simp [lifeProgram] at cmd
  | leaving x k =>
      simp only [lifeProgram, Cmd.update.injEq] at cmd
      obtain ⟨rfl, rfl⟩ := cmd
      exact .inr (.inr ⟨x, k, rfl, rfl, rfl⟩)

/-- **A call of `lifeProgram` carries** either no pointers, or the `pthis` of the containers
that user code addresses. -/
theorem lifeProgram_async {dest : Fin n} {message : Message T P}
    (cmd : (lifeProgram u).next code s = .async dest message code') :
    ∃ k k', code = .user k ∧ code' = .user k' ∧ (message.targets = [] ∨
      ∃ addresses, u.next k s.mem = .use addresses dest message.value k' ∧
        message.targets = addresses.filterMap s.target?) := by
  cases code with
  | user k =>
      cases next : u.next k s.mem with
      | plain user =>
          simp only [lifeProgram, next] at cmd
          cases user <;> simp only [plain, collect, reduceCtorEq, Cmd.async.injEq] at cmd
          obtain ⟨rfl, rfl, rfl⟩ := cmd
          exact ⟨k, _, rfl, rfl, .inl rfl⟩
      | use addresses dest' payload k' =>
          simp only [lifeProgram, next, Cmd.async.injEq] at cmd
          obtain ⟨rfl, rfl, rfl⟩ := cmd
          exact ⟨k, k', rfl, rfl, .inr ⟨addresses, next, rfl⟩⟩
      | visit address fn k' =>
          simp only [lifeProgram, next, visit] at cmd
          split at cmd
          · cases cmd
          · split at cmd <;> cases cmd
      | construct type data k' => simp [lifeProgram, next, collect] at cmd
      | destroy container k' => simp [lifeProgram, next, collect] at cmd
      | swap a b k' => simp [lifeProgram, next, collect] at cmd
  | entering x k => simp [lifeProgram] at cmd
  | leaving x k => simp [lifeProgram] at cmd

/-- **Every command of `lifeProgram` that is no computation** is one of user code that concerns
no container, a call that addresses containers, or the barrier of a collective call. -/
theorem lifeProgram_other
    (update : ∀ s' k, (lifeProgram u).next code s ≠ .update s' k) :
    (∃ k cmd, code = .user k ∧ (lifeProgram u).next code s = plain s cmd) ∨
    (∃ k, ∃ addresses : List (Address T), ∃ dest payload k', code = .user k ∧ (lifeProgram u).next code s
      = .async dest ⟨payload, addresses.filterMap s.target?⟩ (.user k')) ∨
    ∃ x k, code = .entering x k ∧ (lifeProgram u).next code s = .barrier (.leaving x k) := by
  cases code with
  | user k =>
      cases next : u.next k s.mem with
      | plain user => exact .inl ⟨k, user, rfl, by simp [lifeProgram, next]⟩
      | use addresses dest' payload k' =>
          exact .inr (.inl ⟨k, addresses, dest', payload, k', rfl, by simp [lifeProgram, next]⟩)
      | visit address fn k' =>
          simp only [lifeProgram, next, visit] at update
          split at update
          · exact absurd rfl (update _ _)
          · split at update <;> exact absurd rfl (update _ _)
      | construct type data k' => simp [lifeProgram, next, collect] at update
      | destroy container k' => simp [lifeProgram, next, collect] at update
      | swap a b k' => simp [lifeProgram, next, collect] at update
  | entering x k => exact .inr (.inr ⟨x, k, rfl, rfl⟩)
  | leaving x k => simp [lifeProgram] at update

theorem lifeProgram_ret (cmd : (lifeProgram u).next code s = .ret s') :
    s'.objects = s.objects ∧ s'.sptrs = s.sptrs ∧ s'.log = s.log ∧ s'.done = s.done := by
  have other : ∀ s' k, (lifeProgram u).next code s ≠ .update s' k := by simp [cmd]
  rcases lifeProgram_other other with
    ⟨k, user, rfl, eq⟩ | ⟨k, addresses, dest, payload, k', rfl, eq⟩ | ⟨x, k, rfl, eq⟩
  all_goals rw [cmd] at eq
  · cases user <;> simp only [plain, collect, reduceCtorEq, Cmd.ret.injEq] at eq
    subst eq
    exact ⟨rfl, rfl, rfl, rfl⟩
  all_goals cases eq

theorem lifeProgram_barrier (cmd : (lifeProgram u).next code s = .barrier code') :
    ∃ x k, code = .entering x k ∧ code' = .leaving x k := by
  have other : ∀ s' k, (lifeProgram u).next code s ≠ .update s' k := by simp [cmd]
  rcases lifeProgram_other other with
    ⟨k, user, rfl, eq⟩ | ⟨k, addresses, dest, payload, k', rfl, eq⟩ | ⟨x, k, rfl, eq⟩
  all_goals rw [cmd] at eq
  · cases user <;> simp only [plain, collect, reduceCtorEq] at eq
  · cases eq
  · exact ⟨x, k, rfl, by simpa using eq⟩

theorem lifeProgram_allReduce {value : V} {k' : V → LifeCode T C}
    (cmd : (lifeProgram u).next code s = .allReduce value k') :
    (∃ k, code = .user k) ∧ ∀ result, ∃ k, k' result = .user k := by
  have other : ∀ s' k, (lifeProgram u).next code s ≠ .update s' k := by simp [cmd]
  rcases lifeProgram_other other with
    ⟨k, user, rfl, eq⟩ | ⟨k, addresses, dest, payload, k', rfl, eq⟩ | ⟨x, k, rfl, eq⟩
  all_goals rw [cmd] at eq
  · cases user <;> simp only [plain, collect, reduceCtorEq, Cmd.allReduce.injEq] at eq
    obtain ⟨-, rfl⟩ := eq
    exact ⟨⟨k, rfl⟩, fun result => ⟨_, rfl⟩⟩
  all_goals cases eq

/-- Code that flushes or shuts down is user code before and after its command. -/
theorem lifeProgram_leave
    (cmd : (∃ dest, (lifeProgram u).next code s = .asyncFlush dest code') ∨
      (lifeProgram u).next code s = .asyncFlushAll code' ∨
      (lifeProgram u).next code s = .kill code') :
    (∃ k, code = .user k) ∧ ∃ k, code' = .user k := by
  have other : ∀ s' k, (lifeProgram u).next code s ≠ .update s' k := by
    rcases cmd with ⟨dest, cmd⟩ | cmd | cmd <;> simp [cmd]
  rcases lifeProgram_other other with
    ⟨k, user, rfl, eq⟩ | ⟨k, addresses, dest, payload, k', rfl, eq⟩ | ⟨x, k, rfl, eq⟩
  · refine ⟨⟨k, rfl⟩, ?_⟩
    rcases cmd with ⟨dest, cmd⟩ | cmd | cmd <;>
    · rw [cmd] at eq
      cases user <;> simp only [plain, collect, reduceCtorEq, Cmd.asyncFlush.injEq,
        Cmd.asyncFlushAll.injEq, Cmd.kill.injEq] at eq
      simp [eq]
  all_goals
    rcases cmd with ⟨dest, cmd⟩ | cmd | cmd <;>
    · rw [cmd] at eq
      cases eq

end Commands

/-! ## Where a main program is -/

/-- The main program of the rank is inside `barrier`. -/
def Inside : Pc V (LifeCode T C) → Prop
  | .sample | .test _ | .second _ _ | .thrown _ _ => True
  | _ => False

/-- **The place of a rank's main program** among its collective calls: in user code, about to
enter a barrier, inside the barrier, or behind it. -/
inductive Place (s : LifeRank n T D P σ V C) : Prop
  | user {k : C} (code : s.code = .user k) (outside : ¬ Inside s.pc)
      (log : s.mem.log.length = s.mem.done) (epoch : s.epoch = s.mem.done)
  | entering {x : Collective T} {k : C} (code : s.code = .entering x k) (pc : s.pc = .user)
      (stack : s.stack = []) (log : s.mem.log.length = s.mem.done + 1)
      (last : s.mem.log[s.mem.done]? = some x) (epoch : s.epoch = s.mem.done)
  | inside {x : Collective T} {k : C} (code : s.code = .leaving x k) (inside : Inside s.pc)
      (log : s.mem.log.length = s.mem.done + 1)
      (last : s.mem.log[s.mem.done]? = some x) (epoch : s.epoch = s.mem.done)
  | leaving {x : Collective T} {k : C} (code : s.code = .leaving x k) (pc : s.pc = .user)
      (stack : s.stack = []) (log : s.mem.log.length = s.mem.done + 1)
      (last : s.mem.log[s.mem.done]? = some x) (epoch : s.epoch = s.mem.done + 1)

section Place

variable {s t : LifeRank n T D P σ V C}

/-- A step of an activation on the stack leaves the main program in its place. -/
theorem Place.of_busy (h : Place s) (busy : s.stack ≠ []) (code : t.code = s.code)
    (pc : t.pc = s.pc) (epoch : t.epoch = s.epoch) (log : t.mem.log = s.mem.log)
    (done : t.mem.done = s.mem.done) : Place t := by
  cases h with
  | user here outside length now =>
      exact .user (code.trans here) (pc ▸ outside) (by rw [log, done, length])
        (by rw [epoch, done, now])
  | inside here inside length last now =>
      exact .inside (code.trans here) (pc ▸ inside) (by rw [log, done, length])
        (by rw [log, done, last]) (by rw [epoch, done, now])
  | entering _ _ stack | leaving _ _ stack => exact absurd stack busy

/-- A step by which user code goes on to user code leaves the main program in its place. -/
theorem Place.resume (h : Place s) {ctx : Option (Ctx n (Message T P))}
    {rest : List (Frame n (Message T P) (LifeCode T C))} {k k' : C}
    (run : Running s ctx rest (.user k)) (code : t.code = (s.resume ctx rest (.user k')).code)
    (pc : t.pc = s.pc) (epoch : t.epoch = s.epoch) (log : t.mem.log = s.mem.log)
    (done : t.mem.done = s.mem.done) : Place t := by
  generalize here : LifeCode.user k = running at run
  cases run with
  | main user stack =>
      have outside : ¬ Inside t.pc := by simp [pc, user, Inside]
      cases h with
      | user _ _ length now =>
          exact .user code outside (by rw [log, done, length]) (by rw [epoch, done, now])
      | entering other => simp [other] at here
      | inside other => simp [other] at here
      | leaving other => simp [other] at here
  | handler stack => exact h.of_busy (by simp [stack]) code pc epoch log done

theorem Place.epoch_of_busy (h : Place s) (busy : s.stack ≠ []) : s.epoch = s.mem.done := by
  cases h with
  | user _ _ _ now | inside _ _ _ _ now => exact now
  | entering _ _ idle | leaving _ _ idle => exact absurd idle busy

/-- When user code is running on a rank, the rank has completed as many collective calls as its
epoch counts. -/
theorem Place.of_running (h : Place s) {ctx : Option (Ctx n (Message T P))}
    {rest : List (Frame n (Message T P) (LifeCode T C))} {k : C}
    (run : Running s ctx rest (.user k)) : s.epoch = s.mem.done := by
  generalize here : LifeCode.user k = running at run
  cases run with
  | main user stack =>
      cases h with
      | user _ _ _ now => exact now
      | entering other => simp [other] at here
      | inside other => simp [other] at here
      | leaving other => simp [other] at here
  | handler stack => exact h.epoch_of_busy (by simp [stack])

theorem Place.done_le (h : Place s) : s.mem.done ≤ s.mem.log.length := by
  cases h <;> omega

theorem Place.epoch_le (h : Place s) : s.epoch ≤ s.mem.log.length := by
  cases h <;> omega

end Place

/-! ## Moves -/

section Move

variable [DecidableEq T] {cfg : Config} {u : LifeUser n T D P σ V C}

/-- An allowed collective call is the one that all ranks make, and its start keeps the memory
consistent with the log. -/
theorem Begins.allowed {c : LifeSys n T D P σ V C} {r : Fin n} {cmd : LifeCmd n T D P σ V C}
    {x : Collective T} {s' : LifeMem T D σ} (begins : Begins (c.rank r).mem cmd x s')
    (allowed : Allowed c r cmd) :
    Joins c r x ∧ ((c.rank r).mem.log.length = (c.rank r).mem.done →
      (c.rank r).mem.Consistent → s'.Consistent) := by
  cases begins with
  | construct type data k =>
      obtain ⟨joins, room⟩ := allowed
      exact ⟨joins, fun settled h => h.register settled room⟩
  | destroy container k =>
      obtain ⟨joins, alive⟩ := allowed
      refine ⟨joins, fun settled h => h.begin settled rfl fun i same => ?_⟩
      obtain rfl : container = i := by simpa using same
      obtain ⟨object, here, -⟩ := Option.map_eq_some_iff.mp alive
      exact (List.getElem?_eq_some_iff.mp (h.object here).1).1
  | swap a b k => exact ⟨allowed, fun settled h => h.begin settled rfl (by simp)⟩
  | barrier k => exact ⟨allowed, fun settled h => h.begin settled rfl (by simp)⟩

/-- **A move of a rank keeps its main program in place** and its memory consistent with the log,
which grows by at most one collective call. -/
theorem move_orderly {c : LifeSys n T D P σ V C} {r : Fin n} {w : View n V}
    {t : LifeRank n T D P σ V C} {sent : Option (Fin n × Packet n (Message T P))}
    (move : Move cfg (lifeProgram u) r w (c.rank r) t sent) (place : Place (c.rank r))
    (mem : (c.rank r).mem.Consistent)
    (handlers : ∀ ctx k, .user ctx k ∈ (c.rank r).stack → ∀ x here, k ≠ .leaving x here)
    (entered : ∀ k, (c.rank r).pc = .reduce k → ∃ value,
      (lifeProgram u).next (c.rank r).code (c.rank r).mem = .allReduce value k)
    (lawful : ∀ k, (c.rank r).running = some (.user k) →
      Allowed c r (u.next k (c.rank r).mem.mem)) :
    Place t ∧ t.mem.Consistent ∧ (t.mem.log = (c.rank r).mem.log ∨
      ∃ x, Joins c r x ∧ t.mem.log = (c.rank r).mem.log ++ [x]) := by
  have outside : ∀ {k}, (c.rank r).pc = .user → (c.rank r).code = .user k →
      ∀ {t : LifeRank n T D P σ V C} {k'}, t.code = .user k' → ¬ Inside t.pc →
      t.epoch = (c.rank r).epoch → t.mem = (c.rank r).mem → Place t := by
    intro k pc here t k' code out epoch same
    cases place with
    | user _ _ length now => exact .user code out (by rw [same, length]) (by rw [epoch, same, now])
    | entering other => simp [other] at here
    | inside other => simp [other] at here
    | leaving other => simp [other] at here
  have inside : ∀ {t : LifeRank n T D P σ V C}, Inside (c.rank r).pc → Inside t.pc →
      t.code = (c.rank r).code → t.epoch = (c.rank r).epoch → t.mem = (c.rank r).mem →
      Place t := by
    intro t here there code epoch same
    cases place with
    | user _ out => exact absurd here out
    | entering _ pc | leaving _ pc => simp [pc, Inside] at here
    | inside other _ length last now =>
        exact .inside (code.trans other) there (by rw [same, length]) (by rw [same, last])
          (by rw [epoch, same, now])
  cases move with
  | retSelf stack cmd | retRemote stack cmd =>
      obtain ⟨objects, sptrs, log, done⟩ := lifeProgram_ret cmd
      exact ⟨place.of_busy (by simp [stack]) rfl rfl rfl log done,
        mem.of_data (fun i => congrArg (fun all => all[i]?.map Object.skeleton) objects)
          sptrs log done, .inl log⟩
  | @update ctx rest k k' s' run cmd =>
      rcases lifeProgram_update cmd with
        ⟨k, k', rfl, rfl, log, done, consistent⟩ | ⟨k, x, k', rfl, rfl, begins⟩ |
        ⟨x, k, rfl, rfl, rfl⟩
      · refine ⟨@Place.resume _ _ _ _ _ _ _ _ _ place _ _ _ k' run ?_ ?_ ?_ ?_ ?_, ?_, .inl ?_⟩
        all_goals cases ctx <;> simp [Rank.resume, log, done, consistent mem]
      · obtain ⟨joins, kept⟩ := begins.allowed (lawful k run.running)
        obtain ⟨log, done⟩ := begins.log
        generalize here : LifeCode.user k = running at run
        cases run with
        | main user stack =>
            cases place with
            | user _ _ length now =>
                refine ⟨.entering rfl user rfl ?_ ?_ ?_, kept length mem, .inr ⟨x, joins, log⟩⟩
                · simp [Rank.resume, log, done, length]
                · simp [Rank.resume, log, done, ← length]
                · simp [Rank.resume, done, now]
            | entering other => simp [other] at here
            | inside other => simp [other] at here
            | leaving other => simp [other] at here
        | handler stack =>
            have idle := joins.1
            simp [stack] at idle
      · generalize here : LifeCode.leaving x k = running at run
        cases run with
        | main user stack =>
            cases place with
            | leaving other _ _ length last now =>
                obtain ⟨rfl, rfl⟩ : x = _ ∧ k = _ := by simpa [other] using here
                have log := (c.rank r).mem.log_complete x
                refine ⟨.user rfl (by simp [Rank.resume, user, Inside]) ?_ ?_,
                  mem.complete length last, .inl ?_⟩
                · simpa [Rank.resume, log] using length
                · simpa [Rank.resume] using now
                · simpa [Rank.resume] using log
            | user other => simp [other] at here
            | entering other => simp [other] at here
            | inside _ inside => simp [user, Inside] at inside
        | handler stack => 
            have top : Frame.user _ running ∈ (c.rank r).stack := stack ▸ List.mem_cons_self ..
            exact absurd here.symm (handlers _ _ top x k)
  | @asyncSelf ctx rest k k' payload m run cmd call =>
      obtain ⟨k, k', rfl, rfl, -⟩ := lifeProgram_async cmd
      refine ⟨@Place.resume _ _ _ _ _ _ _ _ _ place _ _ _ k' run ?_ ?_ ?_ ?_ ?_, ?_, .inl ?_⟩
      all_goals cases ctx <;> simp [Rank.resume, Rank.call, mem]
  | @asyncRemote ctx rest k k' dest payload m frames run cmd call remote path =>
      obtain ⟨k, k', rfl, rfl, -⟩ := lifeProgram_async cmd
      refine ⟨@Place.resume _ _ _ _ _ _ _ _ _ place _ _ _ k' run ?_ ?_ ?_ ?_ ?_, ?_, .inl ?_⟩
      all_goals cases ctx <;> simp [Rank.resume, Rank.call, mem]
  | @callFlush ctx rest k k' frame run cmd =>
      obtain ⟨⟨k, rfl⟩, k', rfl⟩ := lifeProgram_leave (u := u)
        (s := (c.rank r).mem) (by
          rcases cmd with ⟨dest, cmd, -⟩ | ⟨cmd, -⟩
          · exact .inl ⟨dest, cmd⟩
          · exact .inr (.inl cmd))
      refine ⟨@Place.resume _ _ _ _ _ _ _ _ _ place _ _ _ k' run ?_ ?_ ?_ ?_ ?_, ?_, .inl ?_⟩
      all_goals cases ctx <;> simp [Rank.resume, Rank.call, mem]
  | @barrier k pc stack cmd =>
      obtain ⟨x, k, code, rfl⟩ := lifeProgram_barrier cmd
      refine ⟨?_, mem, .inl rfl⟩
      cases place with
      | entering other _ _ length last now =>
          rw [other] at code
          cases code
          exact .inside rfl trivial length last now
      | user other => simp [other] at code
      | inside other => simp [other] at code
      | leaving other => simp [other] at code
  | @reduce value k pc stack cmd =>
      obtain ⟨⟨k, code⟩, -⟩ := lifeProgram_allReduce cmd
      exact ⟨outside pc code code (by simp [Inside]) rfl rfl, mem, .inl rfl⟩
  | @reduced value k pc stack result =>
      obtain ⟨posted, cmd⟩ := entered k pc
      obtain ⟨⟨here, code⟩, after⟩ := lifeProgram_allReduce cmd
      obtain ⟨next, eq⟩ := after value
      refine ⟨?_, mem, .inl rfl⟩
      cases place with
      | user _ _ length now => exact .user eq (by simp [Inside]) length now
      | entering other => simp [other] at code
      | inside other => simp [other] at code
      | leaving other => simp [other] at code
  | @kill k pc stack cmd =>
      obtain ⟨⟨k, code⟩, k', rfl⟩ := lifeProgram_leave (u := u) (.inr (.inr cmd))
      exact ⟨outside pc code rfl (by simp [Inside]) rfl rfl, mem, .inl rfl⟩
  | joined pc stack stopped =>
      refine ⟨?_, mem, .inl rfl⟩
      cases place with
      | user code _ length now => exact .user code (by simp [Inside]) length now
      | entering _ other | leaving _ other => simp [pc] at other
      | inside _ here => simp [pc, Inside] at here
  | sample pc stack | pending pc stack | confirm pc stack | throw pc stack =>
      exact ⟨inside (by simp [pc, Inside]) trivial rfl rfl rfl, mem, .inl rfl⟩
  | retry pc stack =>
      refine ⟨inside ?_ trivial rfl rfl rfl, mem, .inl rfl⟩
      rcases pc with ⟨first, pc⟩ | ⟨first, second, pc⟩ <;> simp [pc, Inside]
  | leave pc stack =>
      refine ⟨?_, mem, .inl rfl⟩
      cases place with
      | user _ out => simp [pc, Inside] at out
      | entering _ other | leaving _ other => simp [pc] at other
      | inside code _ length last now => exact .leaving code rfl stack length last (by simp [now])
  | _ => exact ⟨place.of_busy (by simp [*]) rfl rfl rfl rfl rfl, mem, .inl rfl⟩

end Move

/-! ## Runs -/

/-- A pointer is right by a log if its container was constructed by the calls of the log, with
this type and this index, and was not destroyed by them. -/
def Target.Right [DecidableEq T] (t : Target T) (log : List (Collective T)) : Prop :=
  (created log)[t.container]? = some t.ptr.type ∧
    t.ptr.idx = ((created log).take t.container).count t.ptr.type ∧
    .destroy t.container ∉ log

/-- **All ranks and their pointers are in order**: every main program is in place, every memory
matches its log, the logs agree, and every call issued carries right pointers. -/
structure Orderly [DecidableEq T] (c : LifeSys n T D P σ V C) : Prop where
  place : ∀ r, Place (c.rank r)
  mem : ∀ r, (c.rank r).mem.Consistent
  agree : ∀ r i, ∀ p : ℕ, ∀ x y, (c.rank r).mem.log[p]? = some x → (c.rank i).mem.log[p]? = some y → x = y
  calls : ∀ r, ∀ m ∈ (c.rank r).started, m.epoch ≤ (c.rank r).mem.log.length ∧
    ∀ t ∈ m.payload.targets, t.Right ((c.rank r).mem.log.take m.epoch)

/-- Two logs that agree where both have an entry have the same first `k` calls if both are that
long. -/
theorem take_eq_take {log log' : List (Collective T)} {k : ℕ} (long : k ≤ log.length)
    (long' : k ≤ log'.length)
    (agree : ∀ p : ℕ, ∀ x y, log[p]? = some x → log'[p]? = some y → x = y) :
    log.take k = log'.take k := by
  refine List.ext_getElem? fun p => ?_
  by_cases lt : p < k
  · rw [List.getElem?_take_of_lt lt, List.getElem?_take_of_lt lt]
    have here := List.getElem?_eq_getElem (lt.trans_le long)
    have here' := List.getElem?_eq_getElem (lt.trans_le long')
    rw [here, here', agree p _ _ here here']
  · rw [List.getElem?_eq_none (by simp; omega), List.getElem?_eq_none (by simp; omega)]

section Runs

variable [DecidableEq T] {cfg : Config} {u : LifeUser n T D P σ V C} {mem : Fin n → σ}
variable {main : Fin n → C} {c : LifeSys n T D P σ V C}

/-- The outline in which a handler is never behind the barrier of a collective call. -/
def lifeOutline (u : LifeUser n T D P σ V C) :
    Outline (V := V) (lifeProgram u) where
  code cause k := cause = none ∨ ∀ x here, k ≠ .leaving x here
  call _ _ := True
  start _ _ := .inr (by simp [lifeProgram])
  next := by
    intro cause k mem _
    cases cmd : (lifeProgram u).next k mem with
    | ret mem' => trivial
    | update mem' k' =>
        right
        rcases lifeProgram_update cmd with
          ⟨k, k', -, rfl, -⟩ | ⟨k, x, k', -, rfl, -⟩ | ⟨x, k, -, rfl, -⟩ <;> simp
    | async dest payload k' =>
        obtain ⟨k, k', -, rfl, -⟩ := lifeProgram_async cmd
        exact ⟨trivial, .inr (by simp)⟩
    | asyncFlush dest k' =>
        obtain ⟨-, k, rfl⟩ := lifeProgram_leave (u := u) (.inl ⟨dest, cmd⟩)
        exact .inr (by simp)
    | asyncFlushAll k' =>
        obtain ⟨-, k, rfl⟩ := lifeProgram_leave (u := u) (.inr (.inl cmd))
        exact .inr (by simp)
    | barrier k' => exact fun _ => .inl rfl
    | allReduce value k' => exact fun _ _ => .inl rfl
    | kill k' => exact fun _ => .inl rfl

/-- **The pointers in a call are right** by the log of the rank that makes the call. -/
theorem right_of_calls {r : Fin n} (h : (lifeComm cfg u mem main).Reachable c)
    (orderly : Orderly c) (lawful : ∀ k, (c.rank r).running = some (.user k) →
      Allowed c r (u.next k (c.rank r).mem.mem)) {m : Rpc n (Message T P)}
    (calls : Calls (lifeProgram u) r (c.rank r) m) :
    m.epoch ≤ (c.rank r).mem.log.length ∧
      ∀ t ∈ m.payload.targets, t.Right ((c.rank r).mem.log.take m.epoch) := by
  obtain ⟨ctx, rest, k, k', run, cmd, -, -, epoch⟩ := calls
  obtain ⟨k, k', rfl, rfl, targets⟩ := lifeProgram_async cmd
  have now : m.epoch = (c.rank r).epoch := by
    cases ctx with
    | none => exact epoch
    | some ctx =>
        generalize LifeCode.user k = running at run
        cases run with
        | handler stack =>
            have running : ctx.rpc ∈ (c.rank r).executing := by
              simp [Rank.executing, stack, Frame.executing]
            have free := Sys.not_second_of_executing h running
            rw [epoch, Sys.epoch_eq_round h free]
            exact (Sys.epochs_of_reachable h).current _ (Sys.executing_pending running)
  have done : m.epoch = (c.rank r).mem.done := now.trans ((orderly.place r).of_running run)
  refine ⟨now ▸ (orderly.place r).epoch_le, fun t ht => ?_⟩
  rcases targets with none | ⟨addresses, next, targets⟩
  · simp [none] at ht
  · have alive := lawful k run.running
    rw [next] at alive
    rw [targets] at ht
    obtain ⟨a, ha, found⟩ := List.mem_filterMap.mp ht
    have stage := alive a ha
    simp only [LifeMem.target?, LifeMem.object?] at found stage
    obtain ⟨container, find, found⟩ := Option.bind_eq_some_iff.mp found
    simp only [find, Option.bind_some] at stage
    obtain ⟨object, here, rfl⟩ := Option.map_eq_some_iff.mp found
    simp only [here, Option.map_some, Option.some.injEq] at stage
    obtain ⟨type, idx, told⟩ := (orderly.mem r).object here
    rw [stage, stageOf] at told
    rw [done]
    -- the log says that it is there, so it was constructed before and is not destroyed
    by_cases gone : .destroy container ∈ (c.rank r).mem.log.take (c.rank r).mem.done
    · simp [gone] at told
    · by_cases made : container < (created ((c.rank r).mem.log.take (c.rank r).mem.done)).length
      · obtain ⟨later, prior⟩ := created_prefix (c.rank r).mem.log (c.rank r).mem.done
        rw [← prior] at type idx
        rw [List.getElem?_append_left made] at type
        rw [List.take_append_of_le_length made.le] at idx
        exact ⟨type, idx, gone⟩
      · simp [gone, made] at told

theorem orderly_of_reachable (h : (lifeComm cfg u mem main).ReachableBy u.Lawful c) :
    Orderly c := by
  refine h.invariant (I := Orderly) ?_ ?_
  · refine ⟨fun r => .user rfl (by simp [lifeComm, comm, Rank.init, Inside]) rfl rfl,
      fun r => ⟨fun type => rfl, fun i => rfl, by simp [lifeComm, comm, Rank.init, LifeMem.init]⟩,
      by simp [lifeComm, comm, Rank.init, LifeMem.init],
      by simp [lifeComm, comm, Rank.init, Rank.started, Rank.handed]⟩
  · intro c a d before inv lawful taken
    rcases Sys.step_cases taken with
      ⟨r, flag, t, sent, rfl, move, rfl⟩ | ⟨r, src, t, stream, -, receive, rfl⟩
    · have reached := before.reachable
      have lawful' : ∀ k, (c.rank r).running = some (.user k) →
          Allowed c r (u.next k (c.rank r).mem.mem) := by
        intro k running
        exact lawful k (by simp [running, LifeCode.user?])
      have outlined := (((lifeOutline u).of_reachable (fun _ => .inl rfl) reached) r).1
      obtain ⟨place, consistent, log⟩ := move_orderly move (inv.place r) (inv.mem r)
        (fun ctx k here => ((outlined.stack ctx k here).resolve_left (by simp)))
        (fun k pc => by
          obtain ⟨-, value, -, cmd⟩ := (inTurn_of_reachable reached).entered r k pc
          exact ⟨value, cmd⟩) lawful'
      obtain ⟨new, grown⟩ : ∃ new, t.mem.log = (c.rank r).mem.log ++ new := by
        rcases log with same | ⟨x, -, more⟩
        · exact ⟨[], by rw [same, List.append_nil]⟩
        · exact ⟨[x], more⟩
      -- the calls of a rank are right by its longer log
      have keeps : ∀ m : Rpc n (Message T P), (m.epoch ≤ (c.rank r).mem.log.length ∧
          ∀ t ∈ m.payload.targets, t.Right ((c.rank r).mem.log.take m.epoch)) →
          m.epoch ≤ t.mem.log.length ∧
            ∀ x ∈ m.payload.targets, x.Right (t.mem.log.take m.epoch) := by
        rintro m ⟨le, right⟩
        rw [grown, List.take_append_of_le_length le]
        exact ⟨le.trans (by simp), right⟩
      have joined : ∀ i, i ≠ r → ∀ p : ℕ, ∀ x y, t.mem.log[p]? = some x →
          (c.rank i).mem.log[p]? = some y → x = y := by
        intro i _ p x y hx hy
        rcases log with same | ⟨z, joins, more⟩
        · exact inv.agree r i p x y (same ▸ hx) hy
        · rw [more] at hx
          rcases getElem?_concat_cases hx with ⟨-, old⟩ | ⟨rfl, rfl⟩
          · exact inv.agree r i p x y old hy
          · exact (joins.2 i y (by simpa using hy)).symm
      refine ⟨fun i => ?_, fun i => ?_, fun i j p x y hx hy => ?_, fun i m hm => ?_⟩
      · by_cases hi : i = r
        · subst hi
          simpa using place
        · simpa [hi] using inv.place i
      · by_cases hi : i = r
        · subst hi
          simpa using consistent
        · simpa [hi] using inv.mem i
      · by_cases hi : i = r <;> by_cases hj : j = r
        · subst hi hj
          exact Option.some.inj (hx.symm.trans hy)
        · subst hi
          exact joined j hj p x y (by simpa using hx) (by simpa [hj] using hy)
        · subst hj
          exact (joined i hi p y x (by simpa using hy) (by simpa [hi] using hx)).symm
        · exact inv.agree i j p x y (by simpa [hi] using hx) (by simpa [hj] using hy)
      · by_cases hi : i = r
        · subst hi
          simp only [Function.update_self] at hm ⊢
          rcases move.started hm with old | calls
          · exact keeps m (inv.calls i m old)
          · exact keeps m (right_of_calls reached inv lawful' calls)
        · simp only [Function.update_of_ne hi] at hm ⊢
          exact inv.calls i m hm
    · have same : ∀ i, ∃ listener queue, Function.update c.rank r t i = { c.rank i with
          listener := listener, receiveQueue := queue } := receive.frame
      refine ⟨fun i => ?_, fun i => ?_, fun i j p x y hx hy => ?_, fun i m hm => ?_⟩
      · obtain ⟨listener, queue, eq⟩ := same i
        simp only [eq]
        cases inv.place i with
        | user code outside log epoch => exact .user code outside log epoch
        | entering code pc stack log last epoch => exact .entering code pc stack log last epoch
        | inside code inside log last epoch => exact .inside code inside log last epoch
        | leaving code pc stack log last epoch => exact .leaving code pc stack log last epoch
      · obtain ⟨listener, queue, eq⟩ := same i
        simp only [eq]
        exact inv.mem i
      · obtain ⟨listener, queue, eq⟩ := same i
        obtain ⟨listener', queue', eq'⟩ := same j
        simp only [eq] at hx
        simp only [eq'] at hy
        exact inv.agree i j p x y hx hy
      · obtain ⟨listener, queue, eq⟩ := same i
        simp only [eq] at hm ⊢
        exact inv.calls i m hm

/-- **A pointer in a call leads to the container it was taken from**: on the rank that runs the
handler, its index is registered, and the object under this index is alive and was constructed
by the same collective call. -/
structure Resolves (c : LifeSys n T D P σ V C) (src dest : Fin n) (t : Target T) : Prop where
  registered : t.ptr.idx < ((c.rank dest).mem.sptrs t.ptr.type).length
  counterpart : ((c.rank dest).mem.sptrs t.ptr.type)[t.ptr.idx]? = some t.container
  alive : ∃ object, (c.rank dest).mem.objects[t.container]? = some object ∧
    object.type = t.ptr.type ∧ object.idx = t.ptr.idx ∧ object.stage = .alive
  /-- The sender has taken the pointer from its own object of this container. -/
  sender : ∃ object, (c.rank src).mem.objects[t.container]? = some object ∧
    object.type = t.ptr.type ∧ object.idx = t.ptr.idx
  /-- Sender and receiver have made the same collective calls up to the construction of the
  container. -/
  same : ∃ p : ℕ, (c.rank dest).mem.log[p]? = some (.construct t.ptr.type) ∧
    (created ((c.rank dest).mem.log.take p)).length = t.container ∧
    (c.rank src).mem.log.take (p + 1) = (c.rank dest).mem.log.take (p + 1)

/-- A pointer that is right by the first calls of a rank's log finds its object on this rank,
and finds it alive if these are all calls that have returned. -/
theorem Target.Right.object {s : LifeMem T D σ} {t : Target T} {k : ℕ}
    (h : t.Right (s.log.take k)) (consistent : s.Consistent) :
    (s.sptrs t.ptr.type)[t.ptr.idx]? = some t.container ∧
      ∃ object, s.objects[t.container]? = some object ∧ object.type = t.ptr.type ∧
        object.idx = t.ptr.idx ∧ (k = s.done → object.stage = .alive) := by
  obtain ⟨type, idx, there⟩ := h
  have made := (List.getElem?_eq_some_iff.mp type).1
  obtain ⟨later, prior⟩ := created_prefix s.log k
  have type' : (created s.log)[t.container]? = some t.ptr.type := by
    rw [← prior, List.getElem?_append_left made, type]
  have idx' : t.ptr.idx = ((created s.log).take t.container).count t.ptr.type := by
    rw [← prior, List.take_append_of_le_length made.le, idx]
  have long : t.container < s.objects.length := by
    rw [consistent.length]
    exact (List.getElem?_eq_some_iff.mp type').1
  obtain ⟨object, here⟩ : ∃ object, s.objects[t.container]? = some object :=
    ⟨_, List.getElem?_eq_getElem long⟩
  obtain ⟨objectType, objectIdx, stage⟩ := consistent.object here
  have same : object.type = t.ptr.type := Option.some.inj (objectType.symm.trans type')
  refine ⟨?_, object, here, same, by rw [objectIdx, same, idx'], fun now => ?_⟩
  · rw [consistent.registered, idx']
    exact places_getElem? type'
  · rw [stage, ← now, stageOf, if_neg there, if_pos made]

/-- **Container lifetime.**  A handler that runs finds, behind every pointer it was sent, the
counterpart of the container the pointer was taken from, registered and not gone. -/
theorem pointers_resolve (h : (lifeComm cfg u mem main).ReachableBy u.Lawful c) {d : Fin n}
    {ctx : Ctx n (Message T P)} {k : LifeCode T C} (runs : .user ctx k ∈ (c.rank d).stack)
    {t : Target T} (sent : t ∈ ctx.rpc.payload.targets) : Resolves c ctx.rpc.src d t := by
  have reached := h.reachable
  have orderly := orderly_of_reachable h
  have running : ctx.rpc ∈ (c.rank d).executing :=
    Multiset.mem_coe.mpr (List.mem_flatMap.mpr ⟨_, runs, by simp [Frame.executing]⟩)
  have pending := Sys.executing_pending running
  -- the call belongs to the epoch its handler runs in
  have now : ctx.rpc.epoch = (c.rank d).mem.done := by
    rw [(Sys.epochs_of_reachable reached).current _ pending,
      ← Sys.epoch_eq_round reached (Sys.not_second_of_executing reached running)]
    exact (orderly.place d).epoch_of_busy (List.ne_nil_of_mem runs)
  have started : ctx.rpc ∈ (c.rank ctx.rpc.src).started := by
    have issued : ctx.rpc ∈ c.issued := by
      rw [Sys.conservation reached, Sys.unfinished]
      have : ctx.rpc ∈ c.executing := Multiset.mem_sum.mpr ⟨d, Finset.mem_univ d, running⟩
      simp [this]
    obtain ⟨i, -, hi⟩ := Multiset.mem_sum.mp issued
    rw [((Sys.routed_of_reachable reached).rank i).issued _ hi]
    exact Multiset.mem_add.mpr (.inl hi)
  obtain ⟨long, right⟩ := orderly.calls _ _ started
  have long' : ctx.rpc.epoch ≤ (c.rank d).mem.log.length := by
    rw [now]
    exact (orderly.place d).done_le
  have logs := take_eq_take long long' (orderly.agree _ d)
  have there := right t sent
  obtain ⟨-, own, ownHere, ownType, ownIdx, -⟩ := there.object (orderly.mem _)
  rw [logs] at there
  obtain ⟨counterpart, object, here, type, idx, alive⟩ := there.object (orderly.mem d)
  refine ⟨(List.getElem?_eq_some_iff.mp counterpart).1, counterpart,
    ⟨object, here, type, idx, alive now⟩, ⟨own, ownHere, ownType, ownIdx⟩, ?_⟩
  obtain ⟨p, construct, before⟩ := exists_construct there.1
  have lt : p < ctx.rpc.epoch := by
    have := (List.getElem?_eq_some_iff.mp construct).1
    rw [List.length_take] at this
    omega
  rw [List.getElem?_take_of_lt lt] at construct
  rw [List.take_take, min_eq_left lt.le] at before
  refine ⟨p, construct, before, ?_⟩
  have more := congrArg (List.take (p + 1)) logs
  rwa [List.take_take, List.take_take, min_eq_left lt] at more

end Runs

/-! ## Two ranks -/

/-- The actions of the main programs in the runs below. -/
inductive LifeAct
  | construct
  | use (dest : Fin 2)
  | call (dest : Fin 2)
  | barrier
  | destroy
deriving DecidableEq

/-- Whether an action constructs or destroys the container. -/
def LifeAct.bounds : LifeAct → Bool
  | .construct | .destroy => true
  | _ => false

/-- A program with one container, which makes calls with and without a pointer to it. -/
def lifeScript : LifeUser 2 Unit Unit Unit Unit Unit (List LifeAct) where
  next
    | [], _ => .plain (.ret ())
    | .construct :: k, _ => .construct () () fun _ => k
    | .use dest :: k, _ => .use [.object 0] dest () k
    | .call dest :: k, _ => .plain (.async dest () k)
    | .barrier :: k, _ => .plain (.barrier k)
    | .destroy :: k, _ => .destroy 0 k
  handler _ _ _ := []
  packedSize _ := 16
  offset_le _ := by decide
  combine _ := ()

/-- The pointers that were sent to the handlers running on a rank. -/
def running (s : LifeRank 2 Unit Unit Unit Unit Unit (List LifeAct)) : List (Target Unit) :=
  s.stack.flatMap fun
    | .user ctx _ => ctx.rpc.payload.targets
    | _ => []

theorem exists_of_running {s : LifeRank 2 Unit Unit Unit Unit Unit (List LifeAct)}
    {t : Target Unit} (h : t ∈ running s) :
    ∃ ctx k, .user ctx k ∈ s.stack ∧ t ∈ ctx.rpc.payload.targets := by
  obtain ⟨frame, stack, here⟩ := List.mem_flatMap.mp h
  cases frame with
  | user ctx k => exact ⟨ctx, k, stack, here⟩
  | _ => simp at here

/-- Main programs in which both ranks construct the container, and rank 0 uses it on rank 1. -/
def matchedMain : Fin 2 → List LifeAct :=
  ![[.construct, .use 1, .destroy], [.construct, .destroy]]

/-- Main programs in which rank 1 calls `barrier` before its constructor, and rank 0 behind its
constructor. -/
def unmatchedMain : Fin 2 → List LifeAct :=
  ![[.construct, .use 1, .barrier, .destroy], [.barrier, .call 1, .construct, .destroy]]

/-- A schedule in which both ranks move in turn, `k` times each. -/
def inTurn (k : ℕ) : List (Action 2) :=
  (List.replicate k [.main 0 true, .main 1 true]).flatten

/-- The state of the run of `matchedMain` in which rank 1 runs the handler. -/
def matchedRun : LifeSys 2 Unit Unit Unit Unit Unit (List LifeAct) :=
  (lifeComm ⟨64, false⟩ lifeScript (fun _ => ()) matchedMain).drive lifeScript.Lawful
    (lifeComm ⟨64, false⟩ lifeScript (fun _ => ()) matchedMain).init
    (inTurn 32 ++ .listen 1 0 :: mains 1 5)

/-- In this state, the pointer sent to the handler leads to the container of rank 1. -/
theorem pointers_resolve_matched :
    running (matchedRun.rank 1) = [⟨⟨(), 0⟩, 0⟩] ∧
      Resolves matchedRun 0 1 ⟨⟨(), 0⟩, 0⟩ := by
  have reached : (lifeComm ⟨64, false⟩ lifeScript (fun _ => ()) matchedMain).ReachableBy
      lifeScript.Lawful matchedRun := Machine.ReachableBy.init.drive _
  have run : (running (matchedRun.rank 1), (matchedRun.rank 1).executing.map Rpc.src)
      = ([⟨⟨(), 0⟩, 0⟩], {0}) := by decide +kernel
  obtain ⟨here, sources⟩ := Prod.mk.inj run
  obtain ⟨ctx, k, runs, sent⟩ := exists_of_running (t := ⟨⟨(), 0⟩, 0⟩) (by rw [here]; simp)
  have src : ctx.rpc.src = 0 := by
    have mem : ctx.rpc.src ∈ (matchedRun.rank 1).executing.map Rpc.src :=
      Multiset.mem_map_of_mem _
        (Multiset.mem_coe.mpr (List.mem_flatMap.mpr ⟨_, runs, by simp [Frame.executing]⟩))
    simpa [sources] using mem
  exact ⟨here, src ▸ pointers_resolve reached runs sent⟩

/-- **Barriers that do not match.**  Both ranks construct and destroy the one container and
use it in between; the barrier of the constructor on rank 0 is a plain `barrier()` on
rank 1, which then runs a handler before it has registered anything. -/
theorem handler_before_registration :
    (unmatchedMain 0).filter LifeAct.bounds = (unmatchedMain 1).filter LifeAct.bounds ∧
    ∃ c, (lifeComm ⟨64, false⟩ lifeScript (fun _ => ()) unmatchedMain).Reachable c ∧
      (∃ ctx k, .user ctx k ∈ (c.rank 1).stack ∧ ⟨⟨(), 0⟩, 0⟩ ∈ ctx.rpc.payload.targets) ∧
      (c.rank 1).mem.sptrs () = [] ∧ ∀ src, ¬ Resolves c src 1 ⟨⟨(), 0⟩, 0⟩ := by
  let c := (lifeComm ⟨64, false⟩ lifeScript (fun _ => ()) unmatchedMain).drive (fun _ _ => True)
    (lifeComm ⟨64, false⟩ lifeScript (fun _ => ()) unmatchedMain).init
    (inTurn 16 ++ mains 0 20 ++ .listen 1 0 :: mains 1 4)
  have run : running (c.rank 1) = [⟨⟨(), 0⟩, 0⟩] ∧ (c.rank 1).mem.sptrs () = [] := by
    decide +kernel
  refine ⟨by decide, c, Machine.ReachableBy.init.drive _,
    exists_of_running (by simp [run.1]), run.2, fun src resolves => ?_⟩
  have registered := resolves.registered
  simp [run.2] at registered

end Lifetime

end YGM
