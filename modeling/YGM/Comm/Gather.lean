import YGM.Comm.Activations
import YGM.Comm.Meeting

/-!
# Questions between two barriers

The protocol of `all_gather`: behind a barrier each rank asks, for each key of a list, the
owner of that key; the handler there calls back with what is stored; another barrier
follows.  A program that contains it, in whatever other code, is described by a `Gather`.

Nothing of what is going on elsewhere can come in between.  All ranks have been at the end of
the first barrier (`Meeting`), nothing was pending there, and until the second one ends all
of them are in this code.  So what a rank has started since then is what it has asked and
the answers to what it has been asked (`Gather.Part`).  At the end of the second barrier
again nothing is pending, and the answers a rank has got are those to its own questions, one
for each key of its list (`Gather.answers`), with what was stored at the first barrier.
-/

namespace YGM

variable {n : ℕ} {P σ V C T Q K X R M O : Type}

/-- The content of a call of the protocol: a question to the owner of a key, or an answer to the
rank that asked. -/
inductive Request (T Q K R : Type)
  | ask (pmap : T) (q : Q) (key : K)
  | answer (q : Q) (key : K) (reply : R)

/-- The code points of the protocol, in the main program and in the handlers of its calls. -/
inductive Point (n : ℕ) (T Q K X R : Type)
  /-- Back from the first barrier, about to make the pointer to the output. -/
  | create (pmap : T) (keys : List K) (x : X)
  /-- In the loop over the keys, with those still to be asked for. -/
  | fetching (pmap : T) (q : Q) (keys : List K) (x : X)
  /-- The asking code is back from its second barrier, with its output at `q`. -/
  | gathered (q : Q) (x : X)
  /-- The handler of a question looks up a key for the rank that asks. -/
  | fetch (src : Fin n) (pmap : T) (q : Q) (key : K)
  /-- The handler of a question, after it has called back. -/
  | fetched (src : Fin n) (pmap : T) (q : Q) (key : K)
  /-- The handler of an answer puts the reply for a key into the output. -/
  | returner (q : Q) (key : K) (reply : R)

/-- The code point at which the handler of a call of the protocol starts. -/
def Request.start (src : Fin n) : Request T Q K R → Point n T Q K X R
  | .ask pmap q key => .fetch src pmap q key
  | .answer q key reply => .returner q key reply

/-- **A program that gathers.**  A question says which table is asked and carries the pointer
`q` to the output of the rank that asks, where the answer is put. -/
structure Gather (prog : Program n P σ V C) (T Q K X R M O : Type) [DecidableEq Q] where
  owner : K → Fin n
  pack : Request T Q K R → P
  place : Point n T Q K X R → C
  /-- The part of the memory from which the answers are read. -/
  table : σ → M
  stored : M → T → K → R
  /-- The part of the memory into which the answers are put. -/
  output : σ → Q → O
  put : Q → K → R → O → O
  /-- The pointer that is made for a call, and the output it points to at first. -/
  preturn : σ → T → Q
  fresh : O
  pack_injective : Function.Injective pack
  place_injective : Function.Injective place
  handler : ∀ src m, prog.handler src (pack m) = place (m.start src)
  next_create : ∀ pmap keys x mem, ∃ mem', prog.next (place (.create pmap keys x)) mem
      = .update mem' (place (.fetching pmap (preturn mem pmap) keys x)) ∧
    table mem' = table mem ∧ output mem' (preturn mem pmap) = fresh
  next_nil : ∀ pmap q x mem, prog.next (place (.fetching pmap q [] x)) mem = .barrier (place (.gathered q x))
  next_cons : ∀ pmap q key keys x mem, prog.next (place (.fetching pmap q (key :: keys) x)) mem
    = .async (owner key) (pack (.ask pmap q key)) (place (.fetching pmap q keys x))
  next_fetch : ∀ src pmap q key mem, prog.next (place (.fetch src pmap q key)) mem
    = .async src (pack (.answer q key (stored (table mem) pmap key))) (place (.fetched src pmap q key))
  next_fetched : ∀ src pmap q key mem, prog.next (place (.fetched src pmap q key)) mem = .ret mem
  next_returner : ∀ q key reply mem, ∃ mem',
    prog.next (place (.returner q key reply)) mem = .ret mem' ∧ table mem' = table mem ∧
      ∀ q', output mem' q' = if q' = q then put q key reply (output mem q) else output mem q'

/-- The rank is in `barrier`, or `barrier` has thrown there. -/
def Pc.InBarrier : Pc V C → Prop
  | .sample | .test _ | .second _ _ | .thrown _ _ => True
  | _ => False

/-- A call of the protocol, as its source, its destination and its content. -/
abbrev Note (n : ℕ) (T Q K R : Type) : Type :=
  Fin n × Fin n × Request T Q K R

variable [DecidableEq Q] {cfg : Config} {prog : Program n P σ V C}
variable {mem : Fin n → σ} {main : Fin n → C}

namespace Gather

variable (g : Gather prog T Q K X R M O)

/-! ## Calls and code points -/

/-- The call of the protocol that a call is, if it is one. -/
noncomputable def note (m : Rpc n P) : Option (Note n T Q K R) :=
  (Function.partialInv g.pack m.payload).map fun request => (m.src, m.dest, request)

/-- The point of the protocol at which a code point is, if it is one of them. -/
noncomputable def point (k : C) : Option (Point n T Q K X R) :=
  Function.partialInv g.place k

/-- The questions that code on rank `i` at a point of the protocol has still to ask. -/
def asks (i : Fin n) : Point n T Q K X R → List (Note n T Q K R)
  | .fetching pmap q keys _ => keys.map fun key => (i, g.owner key, .ask pmap q key)
  | _ => []

/-- The answers that code on rank `i` at a point of the protocol has given, when the ranks store
`tables`. -/
def answered (tables : Fin n → M) (i : Fin n) : Point n T Q K X R → List (Note n T Q K R)
  | .fetched src pmap q key => [(i, src, .answer q key (g.stored (tables i) pmap key))]
  | _ => []

/-- The answer to a question, as a call back to the rank that asked; an answer gets none. -/
def reply (tables : Fin n → M) : Note n T Q K R → Option (Note n T Q K R)
  | (src, dest, .ask pmap q key) => some (dest, src, .answer q key (g.stored (tables dest) pmap key))
  | _ => none

/-- The output `q` after a call has been executed: an answer for `q` is put into it, and every
other call leaves it as it was. -/
noncomputable def receive (q : Q) (out : O) (e : Exec n P) : O :=
  match g.note e.rpc with
  | some (_, _, .answer q' key reply) => if q = q' then g.put q' key reply out else out
  | _ => out

theorem note_pack {m : Rpc n P} {request : Request T Q K R} (payload : m.payload = g.pack request) :
    g.note m = some (m.src, m.dest, request) := by
  rw [note, payload, Function.partialInv_left g.pack_injective]
  rfl

theorem of_note {m : Rpc n P} (h : (g.note m).isSome) :
    ∃ request, m.payload = g.pack request := by
  obtain ⟨found, hfound⟩ := Option.isSome_iff_exists.mp h
  obtain ⟨request, inverse, -⟩ := Option.map_eq_some_iff.mp hfound
  exact ⟨request, ((g.pack_injective.isPartialInv _ _).mp inverse).symm⟩

@[simp] theorem point_place (p : Point n T Q K X R) : g.point (g.place p) = some p :=
  Function.partialInv_left g.place_injective p

/-- The questions that all activations of rank `i` together have still to ask. -/
noncomputable def asking (i : Fin n) (codes : List C) : List (Note n T Q K R) :=
  (codes.filterMap g.point).flatMap (g.asks i)

/-- The answers that the activations on the stack of rank `i` have given. -/
noncomputable def answering (tables : Fin n → M) (i : Fin n) (codes : List C) :
    List (Note n T Q K R) :=
  (codes.filterMap g.point).flatMap (g.answered tables i)

@[simp] theorem asking_place (i : Fin n) (p : Point n T Q K X R) (codes : List C) :
    g.asking i (g.place p :: codes) = g.asks i p ++ g.asking i codes := by
  simp [asking]

@[simp] theorem answering_place (tables : Fin n → M) (i : Fin n) (p : Point n T Q K X R)
    (codes : List C) : g.answering tables i (g.place p :: codes)
      = g.answered tables i p ++ g.answering tables i codes := by
  simp [answering]

/-! ## Which code runs for which call -/

/-- The code that the handler of a call of the protocol runs, from its start to its end. -/
inductive Serves (m : Rpc n P) : Point n T Q K X R → Prop
  | fetch {pmap : T} {q : Q} {key : K} (payload : m.payload = g.pack (.ask pmap q key)) :
      Serves m (.fetch m.src pmap q key)
  | fetched {pmap : T} {q : Q} {key : K} (payload : m.payload = g.pack (.ask pmap q key)) :
      Serves m (.fetched m.src pmap q key)
  | returner {q : Q} {key : K} {reply : R} (payload : m.payload = g.pack (.answer q key reply)) :
      Serves m (.returner q key reply)

theorem Serves.start {m : Rpc n P} {request : Request T Q K R}
    (payload : m.payload = g.pack request) : g.Serves m (request.start m.src) := by
  cases request with
  | ask q key => exact .fetch payload
  | answer q key reply => exact .returner payload

/-- The outline of the program: calls of the protocol run the code of their handlers and no
other code. -/
def outline : Outline prog where
  code cause k := ∀ m ∈ cause, ∀ request, m.payload = g.pack request →
    ∃ p, k = g.place p ∧ g.Serves m p
  call _ _ := True
  start m _ := by
    rintro _ ⟨⟩ request payload
    refine ⟨request.start m.src, ?_, .start g payload⟩
    rw [payload, g.handler]
  next cause k mem serves := by
    have main : ∀ m ∈ (none : Option (Rpc n P)), ∀ (k' : C) request,
        m.payload = g.pack request → ∃ p, k' = g.place p ∧ g.Serves m p := by simp
    by_cases protocol : ∃ m ∈ cause, ∃ request, m.payload = g.pack request
    · obtain ⟨m, rfl, request, payload⟩ := protocol
      obtain ⟨p, rfl, runs⟩ := serves m rfl request payload
      cases runs with
      | fetch payload =>
          rw [g.next_fetch]
          refine ⟨trivial, ?_⟩
          rintro _ ⟨⟩ _ -
          exact ⟨_, rfl, .fetched payload⟩
      | fetched payload =>
          rw [g.next_fetched]
          trivial
      | @returner q key reply payload =>
          obtain ⟨mem', cmd, -⟩ := g.next_returner q key reply mem
          rw [cmd]
          trivial
    · have other : ∀ k' : C, ∀ m ∈ cause, ∀ request, m.payload = g.pack request →
          ∃ p, k' = g.place p ∧ g.Serves m p :=
        fun _ m hm request payload => absurd ⟨m, hm, request, payload⟩ protocol
      cases prog.next k mem with
      | ret mem => trivial
      | update mem k' => exact other k'
      | async dest payload k' => exact ⟨trivial, other k'⟩
      | asyncFlush dest k' => exact other k'
      | asyncFlushAll k' => exact other k'
      | barrier k' => exact fun _ m hm => main m hm k'
      | kill k' => exact fun _ m hm => main m hm k'
      | allReduce value k' => exact fun _ value m hm => main m hm (k' value)

/-- **The running code of a rank in the protocol** is the loop over the keys, or the handler of
a call of the protocol. -/
inductive Runs (s : Rank n P σ V C) : Point n T Q K X R → Prop
  | loop (pmap : T) (q : Q) (keys : List K) (x : X) (stack : s.stack = []) : Runs s (.fetching pmap q keys x)
  | handler {ctx : Ctx n P} {rest : List (Frame n P C)} {k : C} {p : Point n T Q K X R}
      (stack : s.stack = .user ctx k :: rest) (serves : g.Serves ctx.rpc p) : Runs s p

/-! ## One rank -/

/-- **The part of the protocol that a rank has done since the first barrier**, where it was at
`s` and had `owed` to ask, with the pointer `q` to its output. -/
structure Part (tables : Fin n → M) (i : Fin n) (q : Q) (owed : List (Note n T Q K R))
    (s t : Rank n P σ V C) (calls : Multiset (Rpc n P)) (execs : List (Exec n P)) : Prop where
  started : t.started = s.started + calls
  executed : t.executed = s.executed ++ execs
  noted : ∀ m ∈ calls, (g.note m).isSome
  /-- The notes of the calls started and of those still to be made are the notes owed together
  with the answers to the questions executed. -/
  account : calls.filterMap g.note + (g.asking i t.codes : Multiset (Note n T Q K R))
    = (owed : Multiset (Note n T Q K R))
      + (execs.filterMap fun e => (g.note e.rpc).bind (g.reply tables) : List (Note n T Q K R))
      + (g.answering tables i t.codes : Multiset (Note n T Q K R))
  table : g.table t.mem = tables i
  output : g.output t.mem q = execs.foldl (g.receive q) g.fresh

section Part

variable {g} {tables : Fin n → M} {i : Fin n} {q₀ : Q} {owed : List (Note n T Q K R)}
variable {s t t' : Rank n P σ V C} {calls : Multiset (Rpc n P)} {execs : List (Exec n P)}

/-- A move that starts and finishes no call of the rank, leaves its memory alone and leaves
nothing more or less to ask keeps the account of the rank. -/
theorem Part.same (h : g.Part tables i q₀ owed s t calls execs) (started : t'.started = t.started)
    (executed : t'.executed = t.executed) (mem : t'.mem = t.mem)
    (asking : g.asking i t'.codes = g.asking i t.codes)
    (answering : g.answering tables i t'.codes = g.answering tables i t.codes) :
    g.Part tables i q₀ owed s t' calls execs where
  started := started.trans h.started
  executed := executed.trans h.executed
  noted := h.noted
  account := by
    rw [asking, answering]
    exact h.account
  table := by rw [mem, h.table]
  output := by
    rw [mem]
    exact h.output

/-- A call of the protocol keeps the account of its rank, if what it starts is what the code no
longer owes. -/
theorem Part.called (h : g.Part tables i q₀ owed s t calls execs) {m : Rpc n P} {request : Request T Q K R}
    (payload : m.payload = g.pack request) (started : t'.started = t.started + {m})
    (executed : t'.executed = t.executed) (mem : t'.mem = t.mem)
    (account : ({(m.src, m.dest, request)} : Multiset (Note n T Q K R))
        + (g.asking i t'.codes : Multiset (Note n T Q K R))
        + (g.answering tables i t.codes : Multiset (Note n T Q K R))
      = (g.asking i t.codes : Multiset (Note n T Q K R))
        + (g.answering tables i t'.codes : Multiset (Note n T Q K R))) :
    g.Part tables i q₀ owed s t' (calls + {m}) execs where
  started := by rw [started, h.started, add_assoc]
  executed := executed.trans h.executed
  noted := fun m' hm => by
    rcases Multiset.mem_add.mp hm with hm | hm
    · exact h.noted m' hm
    · rw [Multiset.mem_singleton.mp hm, g.note_pack payload]
      rfl
  account := by
    have note : ({m} : Multiset (Rpc n P)).filterMap g.note = {(m.src, m.dest, request)} :=
      Multiset.filterMap_cons_some _ _ 0 (g.note_pack payload)
    rw [Multiset.filterMap_add, note]
    refine add_right_cancel (b := (g.answering tables i t.codes : Multiset (Note n T Q K R))) ?_
    calc _ = calls.filterMap g.note + ({(m.src, m.dest, request)}
            + (g.asking i t'.codes : Multiset (Note n T Q K R))
            + (g.answering tables i t.codes : Multiset (Note n T Q K R))) := by abel
      _ = calls.filterMap g.note + (g.asking i t.codes : Multiset (Note n T Q K R))
            + (g.answering tables i t'.codes : Multiset (Note n T Q K R)) := by
        rw [account, add_assoc]
      _ = _ := by
        rw [h.account]
        abel
  table := by rw [mem, h.table]
  output := by
    rw [mem]
    exact h.output

/-- The return of a handler of the protocol keeps the account of its rank. -/
theorem Part.returns (h : g.Part tables i q₀ owed s t calls execs) {e : Exec n P}
    {p : Point n T Q K X R} {mem : σ} (serves : g.Serves e.rpc p) (dest : e.rpc.dest = i)
    (cmd : prog.next (g.place p) t.mem = .ret mem) (codes : t.codes = g.place p :: t'.codes)
    (started : t'.started = t.started) (executed : t'.executed = t.executed ++ [e])
    (same : t'.mem = mem) : g.Part tables i q₀ owed s t' calls (execs ++ [e]) := by
  have account := h.account
  rw [codes, asking_place, answering_place] at account
  have extended : t'.executed = s.executed ++ (execs ++ [e]) := by
    rw [executed, h.executed, List.append_assoc]
  cases serves with
  | fetch payload =>
      rw [g.next_fetch] at cmd
      cases cmd
  | @fetched pmap q key payload =>
      rw [g.next_fetched] at cmd
      cases cmd
      have note := g.note_pack payload
      refine ⟨started.trans h.started, extended, h.noted, ?_, by rw [same, h.table], ?_⟩
      · simp only [asks, answered, List.nil_append, List.cons_append, ← Multiset.cons_coe]
          at account
        rw [account, List.filterMap_append, ← Multiset.coe_add]
        simp only [List.filterMap_cons, note, Option.bind_some, reply, dest, List.filterMap_nil,
          Multiset.coe_singleton, ← Multiset.singleton_add]
        abel
      · rw [same, h.output, List.foldl_append]
        simp [receive, note]
  | @returner q key reply payload =>
      have note := g.note_pack payload
      obtain ⟨mem', cmd', table, output⟩ := g.next_returner q key reply t.mem
      rw [cmd'] at cmd
      cases cmd
      refine ⟨started.trans h.started, extended, h.noted, ?_, by rw [same, table, h.table], ?_⟩
      · simp only [asks, answered, List.nil_append] at account
        rw [account]
        simp [note, Gather.reply]
      · rw [same, output, List.foldl_append, ← h.output]
        simp only [List.foldl_cons, List.foldl_nil, receive, note]
        split
        · next same => rw [same]
        · rfl

/-- A call that code of the protocol makes is a question that it owes or the answer that it then
has given. -/
theorem Runs.issues {p : Point n T Q K X R} (runs : g.Runs t p) {m : Rpc n P} {k' : C}
    (cmd : prog.next (g.place p) t.mem = .async m.dest m.payload k') (src : m.src = i)
    (table : g.table t.mem = tables i) :
    ∃ request p', m.payload = g.pack request ∧ k' = g.place p' ∧
      ({(m.src, m.dest, request)} : Multiset (Note n T Q K R))
          + (g.asks i p' : Multiset (Note n T Q K R)) + (g.answered tables i p : Multiset (Note n T Q K R))
        = (g.asks i p : Multiset (Note n T Q K R))
          + (g.answered tables i p' : Multiset (Note n T Q K R)) := by
  cases runs with
  | loop pmap q keys x stack =>
      cases keys with
      | nil =>
          rw [g.next_nil] at cmd
          cases cmd
      | cons key keys =>
          rw [g.next_cons, Cmd.async.injEq] at cmd
          obtain ⟨dest, payload, rfl⟩ := cmd
          refine ⟨_, _, payload.symm, rfl, ?_⟩
          simp [asks, answered, src, ← dest]
  | handler stack serves =>
      cases serves with
      | @fetch pmap q key asked =>
          rw [g.next_fetch, Cmd.async.injEq] at cmd
          obtain ⟨dest, payload, rfl⟩ := cmd
          refine ⟨_, _, payload.symm, rfl, ?_⟩
          simp [asks, answered, src, ← dest, table]
      | fetched asked =>
          rw [g.next_fetched] at cmd
          cases cmd
      | @returner q key reply asked =>
          obtain ⟨mem', cmd', -⟩ := g.next_returner q key reply t.mem
          rw [cmd'] at cmd
          cases cmd

/-- A call that running code of the protocol makes keeps the account of its rank, with one more
call started. -/
theorem Part.issues (h : g.Part tables i q₀ owed s t calls execs) {p : Point n T Q K X R}
    (runs : g.Runs t p) {m : Rpc n P} {k' : C} {waiting : List C}
    (here : t.codes = g.place p :: waiting) (src : m.src = i)
    (cmd : prog.next (g.place p) t.mem = .async m.dest m.payload k')
    (asking : g.asking i t'.codes = g.asking i (k' :: waiting))
    (answering : g.answering tables i t'.codes = g.answering tables i (k' :: waiting))
    (started : t'.started = t.started + {m}) (executed : t'.executed = t.executed)
    (mem : t'.mem = t.mem) : ∃ calls', g.Part tables i q₀ owed s t' calls' execs := by
  obtain ⟨request, p', payload, rfl, owed⟩ := runs.issues cmd src h.table
  refine ⟨_, h.called payload started executed mem ?_⟩
  rw [asking, answering, here]
  simp only [asking_place, answering_place, ← Multiset.coe_add]
  calc _ = ({(m.src, m.dest, request)} + (g.asks i p' : Multiset (Note n T Q K R))
          + (g.answered tables i p : Multiset (Note n T Q K R)))
        + (g.asking i waiting : Multiset (Note n T Q K R))
        + (g.answering tables i waiting : Multiset (Note n T Q K R)) := by abel
    _ = _ := by
      rw [owed]
      abel

/-- The next command of code that runs in the protocol is a call, the return of a handler, or
the barrier at the end of the loop. -/
theorem Runs.command {p : Point n T Q K X R} (runs : g.Runs t p) (mem : σ) :
    (∃ pmap q x, p = .fetching pmap q [] x ∧ prog.next (g.place p) mem = .barrier (g.place (.gathered q x))) ∨
      (∃ dest payload k', prog.next (g.place p) mem = .async dest payload k') ∨
      (∃ mem', prog.next (g.place p) mem = .ret mem') := by
  cases runs with
  | loop pmap q keys x stack =>
      cases keys with
      | nil => exact .inl ⟨pmap, q, x, rfl, g.next_nil pmap q x mem⟩
      | cons key keys => exact .inr (.inl ⟨_, _, _, g.next_cons pmap q key keys x mem⟩)
  | handler stack serves =>
      cases serves with
      | fetch payload => exact .inr (.inl ⟨_, _, _, g.next_fetch _ _ _ _ mem⟩)
      | fetched payload => exact .inr (.inr ⟨_, g.next_fetched _ _ _ _ mem⟩)
      | @returner q key reply payload =>
          obtain ⟨mem', cmd, -⟩ := g.next_returner q key reply mem
          exact .inr (.inr ⟨mem', cmd⟩)

/-- The handler of a call of the protocol starts with nothing to ask and nothing answered. -/
theorem start_owes (src : Fin n) (request : Request T Q K R) :
    g.asks i (request.start src) = [] ∧ g.answered tables i (request.start src) = [] := by
  cases request <;> exact ⟨rfl, rfl⟩

/-- **A move is accounted for**: between the two barriers, every move of a rank keeps the
account of that rank, with the calls it starts and executes. -/
theorem Part.move {w : View n V} {sent : Option (Fin n × Packet n P)}
    (h : g.Part tables i q₀ owed s t calls execs) (routed : t.Routed i) (routed' : t'.Routed i)
    (noted : ∀ m ∈ t.unparsed, (g.note m).isSome)
    (runs : ∀ k, t.running = some k → ∃ p, k = g.place p ∧ g.Runs t p)
    (inside : ∀ k, t.pc ≠ .reduce k) (move : Move cfg prog i w t t' sent) :
    ∃ calls' execs', g.Part tables i q₀ owed s t' calls' execs' := by
  have keeps : (∀ k, t.running = some k → ∀ mem', prog.next k t.mem ≠ .ret mem') →
      t'.executed = t.executed := by
    intro other
    rcases move.records with ⟨executed, -⟩ | ⟨ctx, k, rest, e, stack, cmd, -⟩
    · exact executed
    · exact absurd cmd (other k (Running.handler stack).running _)
  have here : ∀ {k}, t.running = some k → t.codes = k :: t.waiting := by
    intro k running
    rw [Rank.codes_eq, running, Option.toList_some, List.singleton_append]
  cases move.acts routed with
  | quiet idle codes mem started =>
      exact ⟨calls, execs, h.same started (keeps (by simp [idle])) mem (by rw [codes])
        (by rw [codes])⟩
  | start m idle received codes running mem started =>
      obtain ⟨request, payload⟩ := g.of_note (noted m received)
      rw [payload, g.handler] at codes
      obtain ⟨asks, answered⟩ := start_owes (g := g) (i := i) m.src request
      exact ⟨calls, execs, h.same started (keeps (by simp [idle])) mem
        (by rw [codes, asking_place, asks, List.nil_append])
        (by rw [codes, answering_place, answered, List.nil_append])⟩
  | reduced value k pc => exact absurd pc (inside k)
  | ret k running cmd codes started =>
      obtain ⟨p, rfl, runs⟩ := runs k running
      rcases move.records with ⟨-, other⟩ | ⟨ctx, k, rest, e, stack, cmd', rpc, executed⟩
      · cases runs with
        | loop pmap q keys x stack =>
            cases keys with
            | nil =>
                rw [g.next_nil] at cmd
                cases cmd
            | cons key keys =>
                rw [g.next_cons] at cmd
                cases cmd
        | handler stack serves =>
            have same := (Running.handler stack).running
            rw [running, Option.some.injEq] at same
            subst same
            exact absurd cmd (other _ _ _ _ stack)
      · cases runs with
        | loop pmap q keys x empty => simp [empty] at stack
        | handler stack' serves =>
            rw [stack] at stack'
            cases stack'
            rw [← rpc] at serves
            have dest : e.rpc.dest = i := (routed'.executed e (by simp [executed])).2
            exact ⟨calls, _, h.returns serves dest cmd (codes ▸ here running) started executed rfl⟩
  | update k k' running cmd =>
      obtain ⟨p, rfl, runs⟩ := runs k running
      rcases runs.command t.mem with ⟨pmap, q, x, -, cmd'⟩ | ⟨dest, payload, k', cmd'⟩ | ⟨mem', cmd'⟩ <;>
      · rw [cmd'] at cmd
        cases cmd
  | remote k k' m running src cmd codes idle mem started =>
      obtain ⟨p, rfl, runs⟩ := runs k running
      obtain ⟨calls', part⟩ := h.issues runs (here running) src cmd (by rw [codes]) (by rw [codes])
        started (keeps fun k running' mem' => by
          rw [running] at running'
          cases running'
          simp [cmd]) mem
      exact ⟨calls', execs, part⟩
  | self k k' m running src dest cmd codes after mem started =>
      obtain ⟨p, rfl, runs⟩ := runs k running
      obtain ⟨request, -, payload, -⟩ := runs.issues cmd src h.table
      obtain ⟨asks, answered⟩ := start_owes (g := g) (i := i) i request
      rw [payload, g.handler] at codes
      obtain ⟨calls', part⟩ := h.issues runs (here running) src cmd
        (by rw [codes, asking_place, asks, List.nil_append])
        (by rw [codes, answering_place, answered, List.nil_append])
        started (keeps fun k running' mem' => by
          rw [running] at running'
          cases running'
          simp [cmd]) mem
      exact ⟨calls', execs, part⟩
  | leave k k' running cmd codes idle mem started =>
      obtain ⟨p, rfl, runs⟩ := runs k running
      have executed := keeps fun k' running' mem' => by
        rw [running] at running'
        cases running'
        rcases cmd with ⟨dest, cmd⟩ | cmd | cmd | cmd <;> simp [cmd]
      rcases runs.command t.mem with ⟨pmap, q, x, rfl, cmd'⟩ | ⟨dest, payload, k', cmd'⟩ | ⟨mem', cmd'⟩
      · simp only [cmd', reduceCtorEq, exists_false, Cmd.barrier.injEq, false_or, or_false] at cmd
        subst cmd
        exact ⟨calls, execs, h.same started executed mem
          (by rw [codes, here running]; simp [asks]) (by rw [codes, here running]; simp [answered])⟩
      · simp [cmd'] at cmd
      · simp [cmd'] at cmd
  | reduce value k running cmd =>
      obtain ⟨p, code, runs⟩ := runs t.code running
      rw [code] at cmd
      rcases runs.command t.mem with ⟨pmap, q, x, -, cmd'⟩ | ⟨dest, payload, k', cmd'⟩ | ⟨mem', cmd'⟩ <;>
      · rw [cmd'] at cmd
        cases cmd

/-- **The place of a rank between the two barriers**: in the loop over its keys, or in the
second barrier. -/
def InLoop (g : Gather prog T Q K X R M O) (pmap : T) (q : Q) (x : X) (t : Rank n P σ V C) : Prop :=
  (t.pc = .user ∧ ∃ keys, t.code = g.place (.fetching pmap q keys x)) ∨
    (t.pc.InBarrier ∧ t.code = g.place (.gathered q x))

/-- A rank in the loop or in the second barrier stays there until its epoch ends. -/
theorem InLoop.move {pmap : T} {q : Q} {x : X} {w : View n V} {sent : Option (Fin n × Packet n P)}
    (h : g.InLoop pmap q x t) (move : Move cfg prog i w t t' sent) (epoch : t'.epoch = t.epoch) :
    g.InLoop pmap q x t' := by
  -- what the main program can be doing
  have loop : t.pc = .user → ∃ keys, t.code = g.place (.fetching pmap q keys x) := by
    intro user
    rcases h with ⟨-, code⟩ | ⟨pc, -⟩
    · exact code
    · rw [user] at pc
      exact pc.elim
  have next : ∀ {ctx rest k}, Running t ctx rest k → ctx = none →
      (k = g.place (.fetching pmap q [] x) ∧
        prog.next k t.mem = .barrier (g.place (.gathered q x))) ∨
      ∃ dest payload keys, prog.next k t.mem
        = .async dest payload (g.place (.fetching pmap q keys x)) := by
    rintro ctx rest k run rfl
    cases run with
    | main user stack =>
        obtain ⟨keys, code⟩ := loop user
        rw [code]
        cases keys with
        | nil => exact .inl ⟨rfl, g.next_nil pmap q x _⟩
        | cons key keys => exact .inr ⟨_, _, keys, g.next_cons pmap q key keys x _⟩
  have barrier : t.pc.InBarrier → ∀ {t'' : Rank n P σ V C}, t''.code = t.code →
      t''.pc.InBarrier → g.InLoop pmap q x t'' := by
    intro pc t'' code pc'
    refine .inr ⟨pc', ?_⟩
    rcases h with ⟨user, -⟩ | ⟨-, here⟩
    · rw [user] at pc
      exact pc.elim
    · rw [code, here]
  have same : ∀ {t'' : Rank n P σ V C}, t''.code = t.code → t''.pc = t.pc → g.InLoop pmap q x t'' := by
    intro t'' code pc
    rwa [InLoop, code, pc]
  cases move with
  | @update ctx rest k k' mem run cmd =>
      cases ctx with
      | none => rcases next run rfl with ⟨-, cmd'⟩ | ⟨_, _, _, cmd'⟩ <;> simp [cmd'] at cmd
      | some ctx => exact same rfl rfl
  | @asyncSelf ctx rest k k' payload m run cmd | @asyncRemote ctx rest k k' dest payload m frames run cmd =>
      cases ctx with
      | none =>
          rcases next run rfl with ⟨-, cmd'⟩ | ⟨_, _, keys, cmd'⟩
          · simp [cmd'] at cmd
          · rw [cmd', Cmd.async.injEq] at cmd
            obtain ⟨-, -, rfl⟩ := cmd
            cases run with
            | main user stack => exact .inl ⟨user, keys, rfl⟩
      | some ctx => exact same rfl rfl
  | @callFlush ctx rest k k' frame run cmd =>
      cases ctx with
      | none =>
          rcases next run rfl with ⟨-, cmd'⟩ | ⟨_, _, _, cmd'⟩ <;>
          · rw [cmd'] at cmd
            simp at cmd
      | some ctx => exact same rfl rfl
  | @barrier k user stack cmd =>
      rcases next (.main user stack) rfl with ⟨-, cmd'⟩ | ⟨_, _, _, cmd'⟩
      · rw [cmd', Cmd.barrier.injEq] at cmd
        subst cmd
        exact .inr ⟨trivial, rfl⟩
      · simp [cmd'] at cmd
  | reduce user stack cmd | kill user stack cmd =>
      rcases next (.main user stack) rfl with ⟨-, cmd'⟩ | ⟨_, _, _, cmd'⟩ <;> simp [cmd'] at cmd
  | reduced pc | joined pc => rcases h with ⟨user, -⟩ | ⟨here, -⟩ <;> simp_all [Pc.InBarrier]
  | sample pc | confirm pc | pending pc | throw pc =>
      exact barrier (by rw [pc]; trivial) rfl trivial
  | retry pc => exact barrier (by rcases pc with ⟨_, pc⟩ | ⟨_, _, pc⟩ <;> rw [pc] <;> trivial) rfl trivial
  | leave => simp at epoch
  | _ => exact same rfl rfl

end Part

/-! ## All ranks -/

section Ranks

variable {g} {c d : Sys n P σ V C} {e : ℕ}
variable {pmap : Fin n → T} {keys : Fin n → List K} {x : Fin n → X}

/-- A rank has not gone on from where it was at the end of the first barrier. -/
structure Untouched (s t : Rank n P σ V C) : Prop where
  code : t.code = s.code
  mem : t.mem = s.mem
  stack : t.stack = []
  started : t.started = s.started
  executed : t.executed = s.executed
  pc : t.pc.waiting = some .second ∧ t.epoch = s.epoch ∨ t.pc = .user

/-- **The state `c` of a run between the two barriers**, the first of which ended at `d`,
where rank `i` was about to ask for `keys i`. -/
def Window (g : Gather prog T Q K X R M O) (d c : Sys n P σ V C) (e : ℕ) (pmap : Fin n → T)
    (keys : Fin n → List K) (x : Fin n → X) : Prop :=
  ∀ i, Untouched (d.rank i) (c.rank i) ∨
    e < (c.rank i).epoch ∧
      g.InLoop (pmap i) (g.preturn (d.rank i).mem (pmap i)) (x i) (c.rank i) ∧
      ∃ calls execs, g.Part (fun j => g.table (d.rank j).mem) i
        (g.preturn (d.rank i).mem (pmap i))
        (g.asks i (.fetching (pmap i) (g.preturn (d.rank i).mem (pmap i)) (keys i) (x i)))
        (d.rank i) (c.rank i) calls execs

/-- After a state in which nothing was pending, the calls started since then are those executed
since then and those that are pending. -/
theorem calls_eq (reached : (comm cfg prog mem main).Reachable d)
    (h : (comm cfg prog mem main).Reachable c) (nothing : d.pending = 0)
    {calls : Fin n → Multiset (Rpc n P)} {execs : Fin n → List (Exec n P)}
    (started : ∀ i, (c.rank i).started = (d.rank i).started + calls i)
    (executed : ∀ i, (c.rank i).executed = (d.rank i).executed ++ execs i) :
    ∑ i, calls i = ∑ i, ((execs i).map Exec.rpc : Multiset (Rpc n P)) + c.pending := by
  have before := Sys.started_eq reached
  have after := Sys.started_eq h
  have done : ∀ i, (c.rank i).done
      = (d.rank i).done + ((execs i).map Exec.rpc : Multiset (Rpc n P)) := by
    intro i
    simp [Rank.done, executed i]
  rw [nothing, add_zero] at before
  simp only [started, Sys.executed, done, Finset.sum_add_distrib] at after before
  rw [before, add_assoc] at after
  exact add_left_cancel after

theorem Window.noted (window : g.Window d c e pmap keys x)
    (reached : (comm cfg prog mem main).Reachable d)
    (h : (comm cfg prog mem main).Reachable c) (nothing : d.pending = 0) {m : Rpc n P}
    (pending : m ∈ c.pending) : (g.note m).isSome := by
  have parts : ∀ i, ∃ calls execs, (c.rank i).started = (d.rank i).started + calls ∧
      (c.rank i).executed = (d.rank i).executed ++ execs ∧ ∀ m ∈ calls, (g.note m).isSome := by
    intro i
    rcases window i with same | ⟨-, -, calls, execs, part⟩
    · exact ⟨0, [], by simp [same.started], by simp [same.executed], by simp⟩
    · exact ⟨calls, execs, part.started, part.executed, part.noted⟩
  choose calls execs started executed noted using parts
  have hm : m ∈ ∑ i, calls i := by
    rw [calls_eq reached h nothing started executed]
    exact Multiset.mem_add.mpr (.inr pending)
  obtain ⟨i, -, hi⟩ := Multiset.mem_sum.mp hm
  exact noted i m hi

/-- Between the two barriers, the code that a rank runs is code of the protocol. -/
theorem Window.runs (window : g.Window d c e pmap keys x) (meeting : Meeting d e)
    (reached : (comm cfg prog mem main).Reachable d) (leads : (comm cfg prog mem main).Leads d c)
    {i : Fin n} {q : Q} (loop : g.InLoop (pmap i) q (x i) (c.rank i)) {k : C}
    (running : (c.rank i).running = some k) : ∃ p, k = g.place p ∧ g.Runs (c.rank i) p := by
  have h := reached.leads leads
  cases stack : (c.rank i).stack with
  | nil =>
      cases pc : (c.rank i).pc <;>
        simp only [Rank.running, stack, pc, Option.some.injEq, reduceCtorEq] at running
      subst running
      rcases loop with ⟨-, rest, code⟩ | ⟨inside, -⟩
      · exact ⟨_, code, .loop _ _ _ _ stack⟩
      · rw [pc] at inside
        exact inside.elim
  | cons frame rest =>
      cases frame <;> simp only [Rank.running, stack, Option.some.injEq, reduceCtorEq] at running
      rename_i ctx k'
      subst running
      have outlined := (g.outline.of_reachable (by simp [outline]) h i).1.stack ctx k'
        (by simp [stack])
      have pending := Sys.executing_pending (c := c) (r := i) (m := ctx.rpc)
        (by simp [Rank.executing, stack, Frame.executing])
      obtain ⟨request, payload⟩ := g.of_note (window.noted reached h meeting.pending pending)
      obtain ⟨p, code, serves⟩ := outlined _ rfl request payload
      exact ⟨p, code, .handler stack serves⟩

/-- A rank that has not gone on from the first barrier still has not after a move, or the move
is the one that makes the pointer to the output. -/
theorem Untouched.move {s t t' : Rank n P σ V C} {i : Fin n} {w : View n V}
    {sent : Option (Fin n × Packet n P)} {pmap : T} {keys : List K} {x : X}
    (h : Untouched s t) (code : s.code = g.place (.create pmap keys x))
    (zero : t.pc.waiting = some .second → ∀ x, w.allCount = some x → x = 0)
    (move : Move cfg prog i w t t' sent) :
    Untouched s t' ∨ ∃ mem', g.table mem' = g.table s.mem ∧
      g.output mem' (g.preturn s.mem pmap) = g.fresh ∧
      t.pc = .user ∧ t' = { t with
        mem := mem'
        code := g.place (.fetching pmap (g.preturn s.mem pmap) keys x)
        stack := [] } := by
  have stack := h.stack
  rcases h.pc with ⟨waits, epoch⟩ | user
  · left
    rcases move.leaves waits stack (zero waits) with ⟨first, second, rfl⟩ | rfl
    · exact ⟨h.code, h.mem, stack, h.started, h.executed, .inl ⟨rfl, epoch⟩⟩
    · exact ⟨h.code, h.mem, stack, h.started, h.executed, .inr rfl⟩
  · right
    obtain ⟨mem', cmd', table, output⟩ := g.next_create pmap keys x t.mem
    rw [← code, ← h.code] at cmd'
    have main : ∀ {ctx rest k}, Running t ctx rest k → k = t.code ∧ ctx = none ∧ rest = [] := by
      intro ctx rest k run
      cases run with
      | main => exact ⟨rfl, rfl, rfl⟩
      | handler busy => simp [stack] at busy
    cases move with
    | @update ctx rest k k' mem'' run cmd =>
        obtain ⟨rfl, rfl, rfl⟩ := main run
        rw [cmd', Cmd.update.injEq, h.mem] at cmd
        obtain ⟨rfl, rfl⟩ := cmd
        rw [h.mem] at table output
        exact ⟨mem', table, output, user, rfl⟩
    | asyncSelf run cmd | asyncRemote run cmd =>
        obtain ⟨rfl, -⟩ := main run
        simp [cmd'] at cmd
    | callFlush run cmd =>
        obtain ⟨rfl, -⟩ := main run
        simp [cmd'] at cmd
    | barrier _ _ cmd | reduce _ _ cmd | kill _ _ cmd => simp [cmd'] at cmd
    | reduced pc | joined pc | sample pc | pending pc | confirm pc | leave pc | throw pc =>
        simp [user] at pc
    | retry pc => rcases pc with ⟨_, pc⟩ | ⟨_, _, pc⟩ <;> simp [user] at pc
    | _ => simp_all

/-- **Between the two barriers** every rank does what the protocol says, in every continuation
of the meeting. -/
theorem window_of_leads (meeting : Meeting d e) (reached : (comm cfg prog mem main).Reachable d)
    (codes : ∀ i, (d.rank i).code = g.place (.create (pmap i) (keys i) (x i)))
    (leads : (comm cfg prog mem main).Leads d c) (low : ∀ i, (c.rank i).epoch ≤ e + 1) :
    g.Window d c e pmap keys x := by
  induction leads with
  | refl =>
      exact fun i => .inl ⟨rfl, rfl, meeting.stack i, rfl, rfl,
        .inl ⟨meeting.inside i, rfl⟩⟩
  | @tail b c before taken ih =>
      have epochs := Sys.epoch_le_of_leads (Relation.ReflTransGen.single taken)
      have window := ih fun i => (epochs i).trans (low i)
      obtain ⟨a, taken⟩ := taken
      change Sys.step cfg prog b a = some c at taken
      have here := reached.leads before
      have after := here.step taken
      rcases Sys.step_cases taken with
        ⟨i, flag, t, sent, -, move, rfl⟩ | ⟨i, src, t, stream, -, receive, rfl⟩
      · intro j
        by_cases hj : j = i
        · subst hj
          have routed := (Sys.routed_of_reachable here).rank j
          have routed' := (Sys.routed_of_reachable after).rank j
          have low := low j
          have grows := move.epoch_le
          simp only [Function.update_self] at routed' low ⊢
          obtain ⟨complete, stays⟩ := meeting.stays reached before j
          rcases window j with same | ⟨later, loop, calls, execs, part⟩
          · have zero : (b.rank j).pc.waiting = some .second →
                ∀ x, b.allCount j = some x → x = 0 := by
              intro waits x seen
              refine (Sys.aligned_of_reachable here).result_of_rounds_lt (i := j) waits ?_ seen
              change (b.rank j).epoch < b.round
              rcases same.pc with ⟨-, epoch⟩ | user
              · rwa [epoch, meeting.epoch j]
              · simp [user, Pc.waiting] at waits
            rcases same.move (codes j) zero move with same' | ⟨mem', table, output, user, rfl⟩
            · exact .inl same'
            · have later : e < (b.rank j).epoch := by
                rcases stays with ⟨-, waits, -⟩ | later
                · simp [user, Pc.waiting] at waits
                · exact later
              have started : ({ b.rank j with
                  mem := mem'
                  code := g.place (.fetching (pmap j) (g.preturn (d.rank j).mem (pmap j)) (keys j)
                    (x j))
                  stack := [] } : Rank n P σ V C).started = (d.rank j).started := by
                rw [← same.started]
                simp [Rank.started, Rank.handed, same.stack]
              refine .inr ⟨later, .inl ⟨user, keys j, rfl⟩, 0, [], ?_, ?_, by simp, ?_, table, output⟩
              · rw [started, add_zero]
              · simp [same.executed]
              · simp [Rank.codes, asking, answering, answered]
          · refine .inr ⟨later.trans_le grows, loop.move move (by omega), ?_⟩
            refine part.move routed routed' (fun m hm => ?_) (fun k running => ?_) ?_ move
            · exact window.noted reached here meeting.pending (Sys.unparsed_pending hm)
            · exact window.runs meeting reached before loop running
            · intro k pc
              rcases loop with ⟨user, -⟩ | ⟨inside, -⟩
              · simp [pc] at user
              · rw [pc] at inside
                exact inside
        · simp only [Function.update_of_ne hj]
          exact window j
      · intro j
        obtain ⟨listener, queue, eq⟩ := receive.frame j
        simp only [eq]
        rcases window j with same | ⟨later, loop, calls, execs, part⟩
        · exact .inl ⟨same.code, same.mem, same.stack, same.started, same.executed, same.pc⟩
        · exact .inr ⟨later, loop, calls, execs, part.same rfl rfl rfl rfl rfl⟩

/-! ### The answers -/

/-- The answer that a call brings to rank `r`, if it is an answer to that rank. -/
def answerTo (r : Fin n) : Note n T Q K R → Option (Q × K × R)
  | (_, dest, .answer q key reply) => if dest = r then some (q, key, reply) else none
  | _ => none

/-- The answer that a question gets, if it is a question of rank `r`. -/
def answerFor (g : Gather prog T Q K X R M O) (tables : Fin n → M) (r : Fin n) :
    Note n T Q K R → Option (Q × K × R)
  | (src, dest, .ask pmap q key) =>
      if src = r then some (q, key, g.stored (tables dest) pmap key) else none
  | _ => none

theorem reply_answerTo (tables : Fin n → M) (r : Fin n) (note : Note n T Q K R) :
    (g.reply tables note).bind (answerTo r) = g.answerFor tables r note := by
  obtain ⟨src, dest, _ | _⟩ := note <;> rfl

theorem reply_answerFor (tables : Fin n → M) (r : Fin n) (note : Note n T Q K R) :
    (g.reply tables note).bind (g.answerFor tables r) = none := by
  obtain ⟨src, dest, _ | _⟩ := note <;> rfl

/-- **A rank is answered exactly what it has asked for**, if each call executed was a question
owed or the answer to a question executed. -/
theorem answers {tables : Fin n → M} {q : Fin n → Q} {notes : Fin n → Multiset (Note n T Q K R)}
    (dest : ∀ i, ∀ note ∈ notes i, note.2.1 = i)
    (total : ∑ i, notes i
      = ∑ i, (g.asks i (.fetching (pmap i) (q i) (keys i) (x i)) : Multiset (Note n T Q K R))
        + ∑ i, (notes i).filterMap (g.reply tables)) (r : Fin n) :
    (notes r).filterMap (answerTo r)
      = ((keys r).map fun key => (q r, key, g.stored (tables (g.owner key)) (pmap r) key) :
        List (Q × K × R)) := by
  -- only rank `r` executes answers to rank `r`
  have own : ∑ i, (notes i).filterMap (answerTo r) = (notes r).filterMap (answerTo r) := by
    refine Finset.sum_eq_single r (fun i _ hi => filterMap_eq_zero ?_) (by simp)
    rintro ⟨src, dest', request⟩ hnote
    have here : dest' = i := dest i _ hnote
    cases request <;> simp [answerTo, here, hi]
  have asked : ∀ i, Multiset.filterMap (answerTo r)
      (g.asks i (.fetching (pmap i) (q i) (keys i) (x i)) : Multiset (Note n T Q K R)) = 0 := by
    intro i
    refine filterMap_eq_zero ?_
    simp [asks, answerTo]
  have replied : ∀ f : Note n T Q K R → Option (Q × K × R), ∀ i,
      ((notes i).filterMap (g.reply tables)).filterMap f
        = (notes i).filterMap fun note => (g.reply tables note).bind f :=
    fun f i => Multiset.filterMap_filterMap _ _ _
  have received := congrArg (Multiset.filterMap (answerTo r)) total
  have questions := congrArg (Multiset.filterMap (g.answerFor tables r)) total
  simp only [Multiset.filterMap_add, filterMap_sum, own, asked, replied, reply_answerTo,
    Finset.sum_const_zero, zero_add] at received
  simp only [Multiset.filterMap_add, filterMap_sum, replied, reply_answerFor] at questions
  rw [received, questions]
  have none : ∀ i, (notes i).filterMap (fun _ => (none : Option (Q × K × R))) = 0 :=
    fun i => filterMap_eq_zero (by simp)
  simp only [none, Finset.sum_const_zero, add_zero]
  rw [Finset.sum_eq_single r (fun i _ hi => filterMap_eq_zero ?_) (by simp)]
  · simp only [asks, Multiset.filterMap_coe, List.filterMap_map, Multiset.coe_eq_coe]
    refine List.Perm.of_eq ?_
    rw [← List.filterMap_eq_map]
    exact List.filterMap_congr fun key _ => by simp [answerFor]
  · simp [asks, answerFor, hi]

/-- An executed call changes the output `q` of its rank exactly if it is an answer that carries
the pointer `q`. -/
theorem receive_eq {r : Fin n} {e : Exec n P} (dest : e.rpc.dest = r) (q : Q) (out : O) :
    g.receive q out e = match (g.note e.rpc).bind (answerTo r) with
      | some (q', key, reply) => if q = q' then g.put q' key reply out else out
      | none => out := by
  cases found : g.note e.rpc with
  | none => simp [receive, found]
  | some note =>
      obtain ⟨request, -, rfl⟩ := Option.map_eq_some_iff.mp found
      cases request <;> simp [receive, found, answerTo, dest]

/-- **At the end of the second barrier** the tables are what they were at the end of the
first one, and a rank has put into its output, in some order, the answer for each of its keys. -/
theorem snapshot {d' : Sys n P σ V C} (meeting : Meeting d e) (meeting' : Meeting d' (e + 1))
    (reached : (comm cfg prog mem main).Reachable d)
    (codes : ∀ i, (d.rank i).code = g.place (.create (pmap i) (keys i) (x i)))
    (leads : (comm cfg prog mem main).Leads d d') :
    (∀ i, g.table (d'.rank i).mem = g.table (d.rank i).mem) ∧
      ∀ r, (d'.rank r).code
          = g.place (.gathered (g.preturn (d.rank r).mem (pmap r)) (x r)) ∧
        ∃ order : List K, order.Perm (keys r) ∧
          g.output (d'.rank r).mem (g.preturn (d.rank r).mem (pmap r))
            = order.foldl (fun out key => g.put (g.preturn (d.rank r).mem (pmap r)) key
                (g.stored (g.table (d.rank (g.owner key)).mem) (pmap r) key) out) g.fresh := by
  have h := reached.leads leads
  have window := window_of_leads meeting reached codes leads fun i => (meeting'.epoch i).le
  set q := fun i => g.preturn (d.rank i).mem (pmap i) with hq
  have through : ∀ i, (d'.rank i).code = g.place (.gathered (q i) (x i)) ∧ ∃ calls execs,
      g.Part (fun j => g.table (d.rank j).mem) i (q i)
        (g.asks i (.fetching (pmap i) (q i) (keys i) (x i))) (d.rank i) (d'.rank i) calls execs := by
    intro i
    have waits := meeting'.inside i
    rcases window i with same | ⟨-, loop, part⟩
    · rcases same.pc with ⟨-, epoch⟩ | user
      · rw [meeting.epoch i, meeting'.epoch i] at epoch
        omega
      · simp [user, Pc.waiting] at waits
    · rcases loop with ⟨user, -⟩ | ⟨-, code⟩
      · simp [user, Pc.waiting] at waits
      · exact ⟨code, part⟩
  have code := fun i => (through i).1
  choose calls execs part using fun i => (through i).2
  refine ⟨fun i => (part i).table, fun r => ⟨code r, ?_⟩⟩
  have all := calls_eq reached h meeting.pending (fun i => (part i).started)
    fun i => (part i).executed
  rw [meeting'.pending, add_zero] at all
  have routed := Sys.routed_of_reachable h
  have dest : ∀ i, ∀ e ∈ execs i, e.rpc.dest = i := fun i e he =>
    ((routed.rank i).executed e (by simp [(part i).executed, he])).2
  let notes : Fin n → List (Note n T Q K R) := fun i => (execs i).filterMap fun e => g.note e.rpc
  have noted : ∀ i, ((execs i).map Exec.rpc : Multiset (Rpc n P)).filterMap g.note
      = (notes i : Multiset (Note n T Q K R)) := by
    intro i
    simp [notes, List.filterMap_map]
  have accounts : ∀ i, (calls i).filterMap g.note
      = (g.asks i (.fetching (pmap i) (q i) (keys i) (x i)) : Multiset (Note n T Q K R))
        + (notes i : Multiset (Note n T Q K R)).filterMap
          (g.reply fun j => g.table (d.rank j).mem) := by
    intro i
    have here : (d'.rank i).codes = [g.place (.gathered (q i) (x i))] := by
      simp [Rank.codes, meeting'.stack i, code i]
    have account := (part i).account
    rw [here] at account
    simp only [asking_place, answering_place, asks, answered, List.nil_append] at account
    simpa [asking, answering, notes, List.filterMap_filterMap, asks] using account
  have total := congrArg (Multiset.filterMap g.note) all
  simp only [filterMap_sum, accounts, noted, Finset.sum_add_distrib] at total
  have addressed : ∀ i, ∀ note ∈ (notes i : Multiset (Note n T Q K R)), note.2.1 = i := by
    intro i note hnote
    obtain ⟨e, he, found⟩ := List.mem_filterMap.mp (Multiset.mem_coe.mp hnote)
    obtain ⟨request, -, rfl⟩ := Option.map_eq_some_iff.mp found
    exact dest i e he
  have got := answers addressed total.symm r
  -- the answers in the order in which they came
  let came := (execs r).filterMap fun e => (g.note e.rpc).bind (answerTo r)
  have perm : came.Perm ((keys r).map fun key =>
      (q r, key, g.stored (g.table (d.rank (g.owner key)).mem) (pmap r) key)) := by
    rw [← Multiset.coe_eq_coe, ← got]
    simp [came, notes, List.filterMap_filterMap]
  have shape : came = (came.map fun answer => answer.2.1).map fun key =>
      (q r, key, g.stored (g.table (d.rank (g.owner key)).mem) (pmap r) key) := by
    rw [List.map_map]
    conv_lhs => rw [← List.map_id came]
    refine List.map_congr_left fun answer hanswer => ?_
    obtain ⟨key, -, rfl⟩ := List.mem_map.mp (perm.mem_iff.mp hanswer)
    rfl
  refine ⟨came.map fun answer => answer.2.1, ?_, ?_⟩
  · simpa [Function.comp_def] using perm.map fun answer => answer.2.1
  · have fold : (execs r).foldl (g.receive (q r)) g.fresh
        = came.foldl (fun out answer => if q r = answer.1
            then g.put answer.1 answer.2.1 answer.2.2 out else out)
          g.fresh := by
      rw [List.foldl_filterMap]
      refine List.foldl_ext _ _ _ fun out e he => ?_
      rw [receive_eq (dest r e he)]
      cases (g.note e.rpc).bind (answerTo r) <;> rfl
    rw [(part r).output, fold]
    conv_lhs => rw [shape, List.foldl_map]
    simp [hq]

/-- **A rank that is back from the second barrier** finds in its output, in some order, the
answer for each of its keys, read from the tables as they were at the end of the first barrier. -/
theorem returned (meeting : Meeting d e) (reached : (comm cfg prog mem main).Reachable d)
    (codes : ∀ i, (d.rank i).code = g.place (.create (pmap i) (keys i) (x i)))
    (leads : (comm cfg prog mem main).Leads d c)
    (avoids : ∀ k mem, (prog.next k mem).Avoids fun k => ∃ q x, k = g.place (.gathered q x))
    (start : ∀ i q x, main i ≠ g.place (.gathered q x)) {r : Fin n} {q : Q} {x' : X}
    (pc : (c.rank r).pc = .user) (code : (c.rank r).code = g.place (.gathered q x'))
    (epoch : (c.rank r).epoch = e + 2) :
    q = g.preturn (d.rank r).mem (pmap r) ∧ x' = x r ∧
      (∃ order : List K, order.Perm (keys r) ∧ g.output (c.rank r).mem q
        = order.foldl (fun out key => g.put q key
            (g.stored (g.table (d.rank (g.owner key)).mem) (pmap r) key) out) g.fresh) ∧
      ∃ d', (comm cfg prog mem main).Leads d d' ∧ (comm cfg prog mem main).Leads d' c ∧
        Meeting d' (e + 1) ∧ ∀ i, g.table (d'.rank i).mem = g.table (d.rank i).mem := by
  have complete := Sys.epoch_le_round (reached.leads leads) r
  obtain ⟨d', before, after, meeting'⟩ := meeting.next r.pos reached leads (by omega)
  have still := meeting'.found (o := g.outline) (fun _ k mem _ => avoids k mem)
    (fun i => by simp [outline]) (fun i ⟨q, x, same⟩ => start i q x same) (reached.leads before)
    after ⟨q, x', code⟩ pc epoch
  obtain ⟨tables, ranks⟩ := snapshot meeting meeting' reached codes before
  obtain ⟨code', order, perm, output⟩ := ranks r
  have same := g.place_injective (code.symm.trans (still.code.trans code'))
  rw [Point.gathered.injEq] at same
  obtain ⟨rfl, rfl⟩ := same
  exact ⟨rfl, rfl, ⟨order, perm, by rw [still.mem, output]⟩, d', before, after, meeting', tables⟩

end Ranks

end Gather

end YGM
