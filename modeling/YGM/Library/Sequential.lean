import Mathlib.Data.List.Induction
import Mathlib.Logic.Function.Basic

/-!
# Sequential maps and multimaps

What a map and a multimap are for, as functions of the key: `SeqMap` has at most one
value for a key, `SeqMultimap` a list.  `Sequential` is the interface of both, and `run`
applies a list of events to a family of containers: operations on one of them, clearing
one, exchanging two.

An operation only touches its key, so what a key has depends on the operations on that
key alone (`run_filter`).
-/

namespace YGM

/-- An operation on a map or multimap, with the key it is about. -/
inductive MapOp (K V : Type)
  | insert (key : K) (value : V)
  | visit (key : K) (f : V → V)
  | visitIfExists (key : K) (f : V → V)
  | erase (key : K)

def MapOp.key {K V : Type} : MapOp K V → K
  | .insert key _ | .visit key _ | .visitIfExists key _ | .erase key => key

/-- An event in a family of containers: an operation on one of them, clearing one, or exchanging
two. -/
inductive MapEvent (I K V : Type)
  | op (id : I) (op : MapOp K V)
  | clear (id : I)
  | swap (i j : I)

/-- **A sequential container**: a default value and what each key has. -/
structure Sequential (K V E : Type) where
  /-- The entry that a key has before anything is inserted. -/
  none : E
  /-- The list of values for which an entry stands. -/
  values : E → List V
  /-- The entry that an operation on the key makes of an entry, given the default value. -/
  apply : V → MapOp K V → E → E

/-- A family after `std::exchange` of two of its members. -/
def swapped {α β : Type} [DecidableEq α] (f : α → β) (a b : α) : α → β :=
  Function.update (Function.update f a (f b)) b (f a)

/-- **A map**: insert overwrites, and a visit creates what is absent. -/
def seqMap (K V : Type) : Sequential K V (Option V) where
  none := .none
  values := Option.toList
  apply := fun dv op entry =>
    match op with
    | .insert _ value => some value
    | .visit _ f => some (f (entry.getD dv))
    | .visitIfExists _ f => entry.map f
    | .erase _ => .none

/-- **A multimap**: insert adds, a visit runs on all values, erase removes them all. -/
def seqMultimap (K V : Type) : Sequential K V (List V) where
  none := []
  values := id
  apply := fun dv op entries =>
    match op with
    | .insert _ value => entries ++ [value]
    | .visit _ f => (if entries = [] then [dv] else entries).map f
    | .visitIfExists _ f => entries.map f
    | .erase _ => []

/-- The state of one sequential container: its default value, and the entry of each key. -/
structure SeqState (K V E : Type) where
  default : V
  entry : K → E

namespace Sequential

variable {I K V E : Type} [DecidableEq I] [DecidableEq K] (seq : Sequential K V E)

/-- The state of a container after an operation, which changes the entry of its key only. -/
def applyTo (op : MapOp K V) (s : SeqState K V E) : SeqState K V E :=
  { s with entry := Function.update s.entry op.key (seq.apply s.default op (s.entry op.key)) }

/-- **The family of containers after one event**: an operation, a clear, or a swap. -/
def event (s : I → SeqState K V E) : MapEvent I K V → I → SeqState K V E
  | .op id op => Function.update s id (seq.applyTo op (s id))
  | .clear id => Function.update s id { s id with entry := fun _ => seq.none }
  | .swap i j => swapped s i j

/-- **The family after a list of events**, which happen in order. -/
def run (s : I → SeqState K V E) (events : List (MapEvent I K V)) : I → SeqState K V E :=
  events.foldl seq.event s

@[simp] theorem run_nil (s : I → SeqState K V E) : seq.run s [] = s :=
  rfl

@[simp] theorem run_append (s : I → SeqState K V E) (events : List (MapEvent I K V))
    (e : MapEvent I K V) : seq.run s (events ++ [e]) = seq.event (seq.run s events) e :=
  by simp [run]

end Sequential

/-- The event can touch the key: it is an operation on the key, or concerns a whole container. -/
def MapEvent.on {I K V : Type} [DecidableEq K] (key : K) : MapEvent I K V → Bool
  | .op _ o => o.key = key
  | .clear _ | .swap _ _ => true

/-- **The entry of a key depends on the operations on that key alone**, and on the containers
cleared and exchanged. -/
theorem Sequential.run_filter {I K V E : Type} [DecidableEq I] [DecidableEq K]
    (seq : Sequential K V E) (s : I → SeqState K V E) (key : K)
    (events : List (MapEvent I K V)) (id : I) :
    (seq.run s (events.filter (MapEvent.on key)) id).entry key = (seq.run s events id).entry key ∧
      (seq.run s (events.filter (MapEvent.on key)) id).default = (seq.run s events id).default := by
  induction events using List.reverseRecOn generalizing id with
  | nil => exact ⟨rfl, rfl⟩
  | append_singleton events e ih =>
      rw [List.filter_append, run_append]
      cases e with
      | op id' op =>
          by_cases here : op.key = key
          · have kept : [MapEvent.op id' op].filter (MapEvent.on key) = [MapEvent.op id' op] := by
              simp [MapEvent.on, here]
            rw [kept, run_append]
            by_cases same : id = id'
            · subst same
              simp [event, applyTo, here, ih id]
            · simp [event, same, ih id]
          · have skipped : [MapEvent.op id' op].filter (MapEvent.on key) = [] := by
              simp [MapEvent.on, here]
            rw [skipped, List.append_nil]
            by_cases same : id = id'
            · subst same
              simp [event, applyTo, Ne.symm here, ih id]
            · simp [event, same, ih id]
      | clear id' =>
          have kept : [MapEvent.clear id'].filter (MapEvent.on key)
              = [(MapEvent.clear id' : MapEvent I K V)] := rfl
          rw [kept, run_append]
          by_cases same : id = id'
          · subst same
            simp [event, (ih id).2]
          · simp [event, same, ih id]
      | swap i j =>
          have kept : [MapEvent.swap i j].filter (MapEvent.on key)
              = [(MapEvent.swap i j : MapEvent I K V)] := rfl
          rw [kept, run_append]
          simp only [event, swapped]
          by_cases second : id = j
          · subst second
            simp [ih i]
          · by_cases first : id = i
            · subst first
              simp [second, ih j]
            · simp [second, first, ih id]

/-- A key on which no operation was performed has the entry that it had in the beginning, when
no key had anything. -/
theorem Sequential.run_none {I K V E : Type} [DecidableEq I] [DecidableEq K]
    (seq : Sequential K V E) {s : I → SeqState K V E} {key : K}
    {events : List (MapEvent I K V)} (start : ∀ id, (s id).entry key = seq.none)
    (untouched : ∀ id op, MapEvent.op id op ∈ events → op.key ≠ key) (id : I) :
    (seq.run s events id).entry key = seq.none := by
  induction events using List.reverseRecOn generalizing id with
  | nil => exact start id
  | append_singleton events e ih =>
      have before := ih fun id' op h => untouched id' op (List.mem_append_left _ h)
      rw [run_append]
      cases e with
      | op id' op =>
          have other := untouched id' op (by simp)
          by_cases same : id = id'
          · subst same
            simp [event, applyTo, Ne.symm other, before id]
          · simp [event, same, before id]
      | clear id' =>
          by_cases same : id = id'
          · subst same
            simp [event]
          · simp [event, same, before id]
      | swap i j =>
          simp only [event, swapped]
          by_cases second : id = j
          · subst second
            simp [before i]
          · by_cases first : id = i
            · subst first
              simp [second, before j]
            · simp [second, first, before id]

end YGM
