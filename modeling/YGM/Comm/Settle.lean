import YGM.Comm.Idle
import YGM.Comm.Rendezvous
import Mathlib.Algebra.Order.Group.Nat
import Mathlib.Algebra.Order.Monoid.Prod
import Mathlib.Data.Prod.Lex

/-!
# Handlers come to an end

Between the steps of the main programs and of the collectives the main threads run handlers, send
and receive, and the listeners fill the receive queues.  If every handler has a budget that pays
for its own commands and for the calls it issues (`Budget`), then this comes to an end, in
whatever order the threads move (`settles`).

The cost of a state is compared lexicographically (`Sys.cost`).  First comes the work that is left
(`Rank.work`): what the handlers that run, and those of the calls that are on their way, can still
spend, and then how far these calls still have to go, from a send buffer through the network to a
receive queue and out of it.  Last comes what the activations without a call still have to do
(`control`), where the loop of `wait_local_idle` runs once more only if `receive_queue_process` has
found something.
-/

namespace YGM

open scoped BigOperators

variable {n : ℕ} {P σ V C : Type}
variable {cfg : Config} {prog : Program n P σ V C} {mem : Fin n → σ} {main : Fin n → C}
variable {c d : Sys n P σ V C}

/-! ## Budgets -/

/-- A command that a handler may give when it has `left` to spend: it goes on with less, and a
call is paid for with its weight. -/
def Cmd.Within (inHandler : C → Prop) (work : C → ℕ) (weight : P → ℕ) (left : ℕ) :
    Cmd n P σ V C → Prop
  | .ret _ => True
  | .update _ k | .asyncFlush _ k | .asyncFlushAll k => inHandler k ∧ work k < left
  | .async _ payload k => inHandler k ∧ work k + weight payload < left
  | .barrier _ | .allReduce .. | .kill _ => False

/-- **A budget for the handlers.**  At code point `k` a handler has `work k` left, and to the
handler of a call with payload `p` its caller gives less than `weight p`. -/
structure Budget (prog : Program n P σ V C) where
  inHandler : C → Prop
  work : C → ℕ
  weight : P → ℕ
  start : ∀ src p, inHandler (prog.handler src p) ∧ work (prog.handler src p) < weight p
  next : ∀ k mem, inHandler k → (prog.next k mem).Within inHandler work weight (work k)

theorem Cmd.Within.inHandler {inHandler : C → Prop} {work : C → ℕ} {weight : P → ℕ} {left : ℕ}
    {cmd : Cmd n P σ V C} (h : cmd.Within inHandler work weight left) :
    cmd.InHandler inHandler := by
  cases cmd with
  | ret mem => trivial
  | barrier | allReduce | kill => exact h.elim
  | _ => exact h.1

namespace Budget

variable (b : Budget prog)

include b in
theorem plain (alive : ∀ k mem k', prog.next k mem ≠ .kill k') : prog.Plain :=
  ⟨⟨b.inHandler, fun src p => (b.start src p).1, fun k mem h => (b.next k mem h).inHandler⟩,
    alive⟩

/-- Every handler that is on a stack in a reachable state is at one of the code points of
handlers. -/
theorem inHandler_of_running (h : (comm cfg prog mem main).Reachable c) {r : Fin n} {ctx : Ctx n P}
    {k : C} (running : .user ctx k ∈ (c.rank r).stack) : b.inHandler k := by
  have outlined := ((handlerOutline b.inHandler (fun src p => (b.start src p).1)
    fun k mem h => (b.next k mem h).inHandler).of_reachable (fun _ => .inl rfl) h r).1
  exact (outlined.stack ctx k running).resolve_left (by simp)

/-- The total that the handlers of a list of calls can spend. -/
def calls (msgs : List (Rpc n P)) : ℕ :=
  (msgs.map fun m => b.weight m.payload).sum

@[simp] theorem calls_nil : b.calls [] = 0 :=
  rfl

@[simp] theorem calls_cons (m : Rpc n P) (msgs : List (Rpc n P)) :
    b.calls (m :: msgs) = b.weight m.payload + b.calls msgs := by
  simp [calls]

@[simp] theorem calls_append (msgs msgs' : List (Rpc n P)) :
    b.calls (msgs ++ msgs') = b.calls msgs + b.calls msgs' := by
  simp [calls]

end Budget

/-! ## Costs -/

/-- The total that the handlers of the calls can spend which are to be parsed after a handler,
in the same buffer. -/
def Ctx.load (b : Budget prog) : Ctx n P → ℕ
  | .self _ => 0
  | .remote _ _ tail => b.calls tail

/-- The total that is spent before an activation has returned, not counting the activations
below it. -/
def Frame.load (b : Budget prog) : Frame n P C → ℕ
  | .user ctx k => b.work k + 1 + ctx.load b
  | .store m | .announce m | .large m => b.weight m.payload
  | .parse _ tail => b.calls tail
  | _ => 0

/-- The distance of the calls in an activation from their handlers, in the places they have to
go through. -/
def Frame.places : Frame n P C → ℕ
  | .announce _ => 6
  | .store _ => 5
  | .large _ => 4
  | .parse _ tail | .user (.remote _ _ tail) _ => tail.length
  | _ => 0

/-- **The control left to the activations above a handler**, if the last `receive_queue_process`
has returned `received`. -/
def control (n : ℕ) : Bool → List (Frame n P C) → ℕ
  | _, [] => 0
  | _, .user .. :: _ => 0
  | received, .peek :: rest => 2 + max (control n received rest) (control n false rest)
  | received, .flushAll i :: rest => 1 + 2 * (n - i) + control n received rest
  | _, .recv received :: rest => 1 + control n received rest
  | _, .parse .. :: rest => 2 + control n true rest
  | _, .idle :: rest => 2 * n + 4 + control n false rest
  | true, .idleTest :: rest => 2 * n + 5 + control n false rest
  | false, .idleTest :: rest => 1 + control n false rest
  | received, .store _ :: rest | received, .announce _ :: rest | received, .large _ :: rest
  | received, .sending _ :: rest | received, .flush _ :: rest => 1 + control n received rest

/-- The total that the handlers on a rank, and those of the calls it holds, can spend. -/
def Rank.load (b : Budget prog) (s : Rank n P σ V C) : ℕ :=
  (s.stack.map (Frame.load b)).sum + ∑ d, b.calls (s.sendBuffers d)
    + (s.receiveQueue.map fun entry => b.calls entry.1).sum

/-- The distance of the calls that a rank holds from their handlers, added up. -/
def Rank.places (s : Rank n P σ V C) : ℕ :=
  (s.stack.map Frame.places).sum + ∑ d, 4 * (s.sendBuffers d).length
    + (s.receiveQueue.map fun entry => entry.1.length + 1).sum

/-- **The work of a rank**: what its handlers can spend, and then how far its calls have to go. -/
def Rank.work (b : Budget prog) (s : Rank n P σ V C) : ℕ ×ₗ ℕ :=
  toLex (s.load b, s.places)

/-- **The work in a message in the network**: what the handlers of its calls can spend, and then
how far they have to go. -/
def Packet.work (b : Budget prog) : Packet n P → ℕ ×ₗ ℕ
  | .buffer msgs => toLex (b.calls msgs, msgs.length + 2)
  | .announce _ => toLex (0, 1)
  | .large m => toLex (b.weight m.payload, 3)

/-- The work in the packet that a step hands to MPI, if there is one. -/
def sentWork (b : Budget prog) (sent : Option (Fin n × Packet n P)) : ℕ ×ₗ ℕ :=
  sent.elim 0 fun out => out.2.work b

/-- **A turn of a stack**, in which an activation without a call returns or is replaced by
others: the work stays the same, and the control of the stack decreases. -/
structure Rank.Turns (b : Budget prog) (s t : Rank n P σ V C) : Prop where
  same : t = { s with received := t.received, stack := t.stack }
  work : t.work b = s.work b
  control : control n t.received t.stack < control n s.received s.stack

section Steps

variable {b : Budget prog} {r : Fin n} {w : View n V} {s t : Rank n P σ V C}
variable {sent : Option (Fin n × Packet n P)}

theorem userStep_work {ctx : Ctx n P} {rest : List (Frame n P C)} {k : C}
    (stack : s.stack = .user ctx k :: rest) (inside : b.inHandler k)
    (taken : userStep cfg prog r s (some ctx) rest (prog.next k s.mem) = some (t, sent)) :
    t.work b + sentWork b sent < s.work b := by
  have within := b.next k s.mem inside
  -- what is left to spend goes down, and nothing is sent
  have spends : sent = none → t.load b < s.load b → t.work b + sentWork b sent < s.work b := by
    rintro rfl less
    simp [Rank.work, sentWork, Prod.Lex.toLex_lt_toLex, less]
  cases cmd : prog.next k s.mem with
  | ret mem =>
      rw [cmd] at taken
      cases ctx <;> cases taken <;> refine spends rfl ?_ <;>
        simp [Rank.load, Rank.finish, stack, Frame.load, Ctx.load]
  | update mem k' =>
      rw [cmd] at taken within
      cases taken
      refine spends rfl ?_
      simp only [Rank.load, Rank.resume, stack, List.map_cons, List.sum_cons, Frame.load]
      have := within.2
      omega
  | asyncFlush dest k' | asyncFlushAll k' =>
      rw [cmd] at taken within
      cases taken
      refine spends rfl ?_
      simp only [Rank.load, Rank.resume, Rank.call, stack, List.map_cons, List.sum_cons, Frame.load,
        List.cons_append, List.nil_append]
      have := within.2
      omega
  | async dest payload k' =>
      rw [cmd] at taken within
      cases taken
      refine spends rfl ?_
      have less := within.2
      have handled := (b.start r payload).2
      unfold async
      dsimp only
      split_ifs <;>
        simp only [Rank.load, Rank.resume, Rank.call, stack, List.map_cons, List.sum_cons,
          Frame.load, Ctx.load, List.cons_append, List.nil_append] <;>
        omega
  | barrier k' | allReduce value k' | kill k' =>
      rw [cmd] at within
      exact within.elim

/-- **A step of a main thread above its main program** decreases the work, or leaves the work
alone and decreases the control of the stack. -/
theorem mainStep_work (inside : ∀ ctx k, .user ctx k ∈ s.stack → b.inHandler k)
    (busy : s.stack ≠ []) (taken : mainStep cfg prog r w s = some (t, sent)) :
    t.work b + sentWork b sent < s.work b ∨ sent = none ∧ s.Turns b t := by
  obtain ⟨frame, rest, stack⟩ := List.exists_cons_of_ne_nil busy
  simp only [mainStep, stack] at taken
  -- only an activation without a call returns
  have returns : ∀ received stack', t = { s with received := received, stack := stack' } →
      sent = none → (stack'.map (Frame.load b)).sum = (s.stack.map (Frame.load b)).sum →
      (stack'.map Frame.places).sum = (s.stack.map Frame.places).sum →
      control n received stack' < control n s.received s.stack →
      t.work b + sentWork b sent < s.work b ∨ sent = none ∧ s.Turns b t := by
    rintro received stack' rfl rfl load places less
    exact .inr ⟨rfl, rfl, by simp [Rank.work, Rank.load, Rank.places, load, places], less⟩
  cases frame with
  | user ctx k => exact .inl (userStep_work stack (inside ctx k (by simp [stack])) taken)
  | store m =>
      cases taken
      have load := sum_update_add b.calls s.sendBuffers m.dest (s.sendBuffers m.dest ++ [m])
      have places := sum_update_add (fun msgs : List (Rpc n P) => 4 * msgs.length) s.sendBuffers
        m.dest (s.sendBuffers m.dest ++ [m])
      simp only [Budget.calls_append, Budget.calls_cons, Budget.calls_nil, List.length_append,
        List.length_cons, List.length_nil] at load places
      left
      simp only [Rank.work, Rank.load, Rank.places, sentWork, Option.elim_none, add_zero,
        Prod.Lex.toLex_lt_toLex, stack, List.map_cons, List.sum_cons, Frame.load, Frame.places]
      omega
  | announce m | large m =>
      cases taken
      left
      simp only [Rank.work, Rank.load, Rank.places, sentWork, Packet.work, Option.elim_some,
        ← toLex_add, Prod.mk_add_mk, Prod.Lex.toLex_lt_toLex, stack, List.map_cons, List.sum_cons,
        Frame.load, Frame.places]
      omega
  | sending dest =>
      simp only [frameStep] at taken
      split at taken
      · cases taken
        refine returns s.received rest rfl rfl ?_ ?_ ?_ <;>
          simp [stack, Frame.load, Frame.places, control]
      · cases taken
  | peek =>
      simp only [frameStep] at taken
      split at taken <;> cases taken
      · refine returns s.received rest rfl rfl ?_ ?_ ?_ <;>
          simp only [stack, List.map_cons, List.sum_cons, Frame.load, Frame.places, control] <;>
          omega
      · refine returns s.received (.recv false :: rest) rfl rfl ?_ ?_ ?_ <;>
          simp [stack, Frame.load, Frame.places, control]
        omega
  | flush dest =>
      simp only [frameStep, asyncFlush] at taken
      split at taken <;> cases taken
      · refine returns s.received rest rfl rfl ?_ ?_ ?_ <;>
          simp [stack, Frame.load, Frame.places, control]
      · rename_i sends
        have some_ := List.length_pos_iff.mpr (not_or.mp sends).2
        have load := sum_update_add b.calls s.sendBuffers dest []
        have places := sum_update_add (fun msgs : List (Rpc n P) => 4 * msgs.length)
          s.sendBuffers dest []
        simp only [Budget.calls_nil, List.length_nil] at load places
        left
        simp only [Rank.work, Rank.load, Rank.places, sentWork, Packet.work, Option.elim_some,
          ← toLex_add, Prod.mk_add_mk, Prod.Lex.toLex_lt_toLex, stack, List.map_cons,
          List.sum_cons, Frame.load, Frame.places]
        omega
  | flushAll i =>
      simp only [frameStep] at taken
      split at taken <;> cases taken
      · refine returns s.received (.flush _ :: .flushAll (i + 1) :: rest) rfl rfl ?_ ?_ ?_ <;>
          simp only [stack, List.map_cons, List.sum_cons, Frame.load, Frame.places, control] <;>
          omega
      · refine returns s.received rest rfl rfl ?_ ?_ ?_ <;>
          simp only [stack, List.map_cons, List.sum_cons, Frame.load, Frame.places, control] <;>
          omega
  | recv received =>
      simp only [frameStep] at taken
      split at taken <;> cases taken
      · refine returns received rest rfl rfl ?_ ?_ ?_ <;>
          simp [stack, Frame.load, Frame.places, control]
      · rename_i queue
        left
        simp only [Rank.work, Rank.load, Rank.places, sentWork, Option.elim_none, add_zero,
          Prod.Lex.toLex_lt_toLex, stack, queue, List.map_cons, List.sum_cons, Frame.load,
          Frame.places]
        omega
  | parse src tail =>
      cases tail with
      | nil =>
          cases taken
          refine returns s.received (.recv true :: rest) rfl rfl ?_ ?_ ?_ <;>
            simp [stack, Frame.load, Frame.places, control]
      | cons m tail =>
          cases taken
          have less := (b.start src m.payload).2
          left
          simp only [Rank.work, Rank.load, Rank.places, sentWork, Option.elim_none, add_zero,
            Prod.Lex.toLex_lt_toLex, stack, List.map_cons, List.sum_cons, List.length_cons,
            Frame.load, Ctx.load, Frame.places, Budget.calls_cons]
          omega
  | idle =>
      cases taken
      refine returns s.received (.flushAll 0 :: .recv false :: .idleTest :: rest) rfl rfl ?_ ?_ ?_
        <;> simp only [stack, List.map_cons, List.sum_cons, Frame.load, Frame.places, control]
        <;> omega
  | idleTest =>
      simp only [frameStep] at taken
      split at taken <;> cases taken
      · rename_i again
        refine returns s.received (.idle :: rest) rfl rfl ?_ ?_ ?_ <;>
          simp [stack, Frame.load, Frame.places, control, again]
      · rename_i last
        refine returns s.received rest rfl rfl ?_ ?_ ?_ <;>
          simp [stack, Frame.load, Frame.places, control, last]

/-- **Every receive spends**: the work in the receive queue and in the stream together
decreases. -/
theorem Receive.work {src : Fin n} {stream stream' : List (Packet n P)}
    (receive : Receive cfg prog r src s stream t stream') :
    t.work b + (stream'.map (Packet.work b)).sum < s.work b + (stream.map (Packet.work b)).sum := by
  -- a message becomes an entry of the receive queue, or nothing
  have entry : ∀ packet entries listener, t = { s with
        listener := listener
        receiveQueue := s.receiveQueue ++ entries } →
      (toLex ((entries.map fun entry => b.calls entry.1).sum,
          (entries.map fun entry => entry.1.length + 1).sum) : ℕ ×ₗ ℕ) < Packet.work b packet →
      t.work b < s.work b + Packet.work b packet := by
    rintro packet entries listener rfl less
    refine lt_of_eq_of_lt ?_ (add_lt_add_right less _)
    simp only [Rank.work, Rank.load, Rank.places, ← toLex_add, Prod.mk_add_mk, List.map_append,
      List.sum_append, add_assoc]
  have head : ∀ packet, stream = packet :: stream' → t.work b < s.work b + Packet.work b packet →
      t.work b + (stream'.map (Packet.work b)).sum
        < s.work b + (stream.map (Packet.work b)).sum := by
    rintro packet rfl less
    rw [List.map_cons, List.sum_cons, ← add_assoc]
    exact add_lt_add_left less _
  have none : ∀ packet, (toLex (0, 0) : ℕ ×ₗ ℕ) < Packet.work b packet := by
    intro packet
    cases packet with
    | announce size => simp [Packet.work, Prod.Lex.toLex_lt_toLex]
    | buffer msgs | large m =>
        simp only [Packet.work, Prod.Lex.toLex_lt_toLex]
        omega
  cases receive with
  | announced any first fits =>
      exact head _ first (entry _ [] _ (by rw [List.append_nil]) (none _))
  | stop any first data own =>
      exact head _ first (entry _ [] _ (by rw [List.append_nil]) (none _))
  | @buffer msgs _ any first fits other =>
      refine head _ first (entry _ [(msgs, src)] _ rfl ?_)
      simp [Packet.work, Prod.Lex.toLex_lt_toLex]
  | @stray m _ any first fits other =>
      refine head _ first (entry _ [([m], src)] _ rfl ?_)
      simp [Packet.work, Prod.Lex.toLex_lt_toLex]
  | @large size m _ awaits taken announced =>
      obtain ⟨before, after, rfl, rfl⟩ := takeLarge_spec taken
      have less := entry (.large m) [([m], src)] .any rfl
        (by simp [Packet.work, Prod.Lex.toLex_lt_toLex])
      simp only [List.map_append, List.map_cons, List.sum_append, List.sum_cons]
      calc _ < _ := add_lt_add_left less _
        _ = _ := by abel

end Steps

/-! ## Every schedule ends -/

/-- **The work in a state**: that of all ranks and that of all messages in the network. -/
def Sys.work (b : Budget prog) (c : Sys n P σ V C) : ℕ ×ₗ ℕ :=
  ∑ r, (c.rank r).work b + ∑ src, ∑ dest, ((c.net src dest).map (Packet.work b)).sum

/-- **The cost of a state**: its work, and then the control of the stacks of all ranks. -/
def Sys.cost (b : Budget prog) (c : Sys n P σ V C) : (ℕ ×ₗ ℕ) ×ₗ ℕ :=
  toLex (c.work b, ∑ r, control n (c.rank r).received (c.rank r).stack)

/-- A packet that is handed to MPI adds its work to that in the network. -/
theorem send_work (b : Budget prog) (net : Fin n → Fin n → List (Packet n P)) (r : Fin n)
    (sent : Option (Fin n × Packet n P)) :
    ∑ src, ∑ dest, ((Sys.send net r sent src dest).map (Packet.work b)).sum
      = ∑ src, ∑ dest, ((net src dest).map (Packet.work b)).sum + sentWork b sent := by
  cases sent with
  | none => simp [Sys.send, sentWork]
  | some out =>
      obtain ⟨dest, packet⟩ := out
      have moved := sum_sum_update_add (fun stream => (stream.map (Packet.work b)).sum) net r dest
        (net r dest ++ [packet])
      simp only [List.map_append, List.sum_append, List.map_cons, List.map_nil, List.sum_cons,
        List.sum_nil, add_zero] at moved
      rw [add_left_comm, add_comm, add_left_cancel_iff] at moved
      exact moved

/-- The work in a state after one main thread has moved, in terms of the work of its rank before
and after. -/
theorem Sys.work_main (b : Budget prog) (r : Fin n) (t : Rank n P σ V C)
    (sent : Option (Fin n × Packet n P)) :
    Sys.work b { rank := Function.update c.rank r t, net := Sys.send c.net r sent }
        + (c.rank r).work b = c.work b + (t.work b + sentWork b sent) := by
  have ranks := sum_update_add (Rank.work b) c.rank r t
  rw [Sys.work, send_work, add_right_comm, ranks, Sys.work]
  abel

/-- The work in a state after one listener has received, in terms of the work of its rank and
its stream before and after. -/
theorem Sys.work_listen (b : Budget prog) (r src : Fin n) (t : Rank n P σ V C)
    (stream : List (Packet n P)) :
    Sys.work b {
          rank := Function.update c.rank r t
          net := Function.update c.net src (Function.update (c.net src) r stream) }
        + ((c.rank r).work b + ((c.net src r).map (Packet.work b)).sum)
      = c.work b + (t.work b + (stream.map (Packet.work b)).sum) := by
  have ranks := sum_update_add (Rank.work b) c.rank r t
  have net := sum_sum_update_add (fun stream => (stream.map (Packet.work b)).sum) c.net src r stream
  rw [Sys.work, add_add_add_comm, ranks, net, add_add_add_comm, Sys.work]

theorem Sys.cost_lt_of_work {b : Budget prog} (less : d.work b < c.work b) : d.cost b < c.cost b :=
  Prod.Lex.toLex_lt_toLex.mpr (.inl less)

/-- **A step above the main programs**: of a listener, or of a main thread in an activation. -/
def Sys.Inner (cfg : Config) (prog : Program n P σ V C) (c d : Sys n P σ V C) : Prop :=
  ∃ a, Sys.step cfg prog c a = some d ∧ ∀ r flag, a = .main r flag → (c.rank r).stack ≠ []

/-- **A step above the main programs makes the state cheaper.** -/
theorem Sys.Inner.cost (b : Budget prog) (h : (comm cfg prog mem main).Reachable c)
    (inner : Sys.Inner cfg prog c d) : d.cost b < c.cost b := by
  obtain ⟨a, taken, above⟩ := inner
  cases a with
  | main r flag =>
      obtain ⟨⟨t, sent⟩, moved, rfl⟩ := Option.map_eq_some_iff.mp taken
      have work := Sys.work_main (c := c) b r t sent
      rcases mainStep_work (fun ctx k => b.inHandler_of_running h) (above r flag rfl) moved with
        less | ⟨rfl, turns⟩
      · refine Sys.cost_lt_of_work (lt_of_add_lt_add_right (a := (c.rank r).work b) ?_)
        rw [work]
        exact add_lt_add_right less _
      · have controls := sum_update_add (fun s : Rank n P σ V C => control n s.received s.stack)
          c.rank r t
        have less := turns.control
        refine Prod.Lex.toLex_lt_toLex.mpr (.inr ⟨?_, ?_⟩)
        · refine add_right_cancel (b := (c.rank r).work b) ?_
          rw [work, turns.work]
          exact congrArg _ (add_zero _)
        · show ∑ i, control n (Function.update c.rank r t i).received
            (Function.update c.rank r t i).stack < _
          omega
  | listen r src =>
      obtain ⟨⟨t, stream⟩, received, rfl⟩ := Option.map_eq_some_iff.mp taken
      refine Sys.cost_lt_of_work (lt_of_add_lt_add_right (a := (c.rank r).work b
        + ((c.net src r).map (Packet.work b)).sum) ?_)
      rw [Sys.work_listen]
      exact add_lt_add_right (Receive.of_listenStep received).work _

/-! ## Where they end -/

theorem Sys.Inner.sameTop (inner : Sys.Inner cfg prog c d) (r : Fin n) :
    (c.rank r).SameTop (d.rank r) := by
  obtain ⟨a, taken, above⟩ := inner
  rcases Sys.step_cases taken with
    ⟨i, flag, t, sent, rfl, move, rfl⟩ | ⟨i, src, t, stream, -, receive, rfl⟩
  · by_cases hr : r = i
    · subst hr
      simpa using move.sameTop (above r flag rfl)
    · simpa [hr] using ⟨rfl, rfl, rfl, rfl, rfl⟩
  · obtain ⟨listener, queue, eq⟩ := receive.frame r
    simp only [eq]
    exact ⟨rfl, rfl, rfl, rfl, rfl⟩

/-- **A quiet state**: nothing runs above the main programs, nothing is in the network, and all
listeners are at their any-source receive. -/
structure Sys.Quiet (c : Sys n P σ V C) : Prop where
  stack : ∀ r, (c.rank r).stack = []
  net : ∀ r i, c.net r i = []
  listener : ∀ r, (c.rank r).listener = .any

theorem Moves.inner (moves : Moves cfg prog c) : ∃ d, Sys.Inner cfg prog c d := by
  obtain ⟨a, d, taken, above⟩ := moves
  exact ⟨d, a, taken, above⟩

theorem quiet_of_ended (plain : prog.Plain) (room : 8 ≤ cfg.bufferCapacity)
    (h : (comm cfg prog mem main).Reachable c) (ended : ∀ d, ¬ Sys.Inner cfg prog c d) :
    c.Quiet := by
  have untruncated : c.Untruncated cfg := fun _ _ _ _ => room
  have still : ¬ Moves cfg prog c := fun moves => moves.inner.elim ended
  refine ⟨fun r => ?_, fun r i => ?_, fun r => ?_⟩
  · by_contra busy
    exact still (moves_of_busy plain h untruncated busy)
  · by_contra waiting
    exact still (moves_of_stream plain h untruncated waiting)
  · cases awaits : (c.rank r).listener with
    | any => rfl
    | stopped => exact absurd awaits ((open_of_reachable plain h).listener r)
    | large src size => exact absurd (moves_of_awaited h awaits) still

/-- In a quiet state, the calls that are not finished are in send buffers and receive queues. -/
theorem Sys.Quiet.pending (quiet : c.Quiet) : c.pending = c.buffered + c.queued := by
  simp [Sys.pending, Sys.unfinished, Sys.executing, Sys.inNetwork, Sys.stream, Sys.unparsed,
    Sys.handed, Rank.executing, Rank.unparsed, Rank.handed, quiet.stack, quiet.net]

/-- The runs of steps above the main programs: of activations and of listeners. -/
def Sys.InnerRun (cfg : Config) (prog : Program n P σ V C) :
    Sys n P σ V C → Sys n P σ V C → Prop :=
  Relation.ReflTransGen (Sys.Inner cfg prog)

theorem Sys.InnerRun.leads (run : Sys.InnerRun cfg prog c d) :
    (comm cfg prog mem main).Leads c d :=
  Relation.ReflTransGen.mono (fun _ _ ⟨a, taken, _⟩ => ⟨a, taken⟩) _ _ run

theorem Sys.InnerRun.sameTop (run : Sys.InnerRun cfg prog c d) (r : Fin n) :
    (c.rank r).SameTop (d.rank r) := by
  induction run with
  | refl => exact ⟨rfl, rfl, rfl, rfl, rfl⟩
  | tail _ inner ih => exact ih.trans (inner.sameTop r)

/-- **The steps above the main programs settle**, whatever the schedule. -/
structure Settles (cfg : Config) (prog : Program n P σ V C) (c : Sys n P σ V C) : Prop where
  /-- No schedule of them goes on for ever. -/
  ends : ∀ run : ℕ → Sys n P σ V C, run 0 = c →
    ∃ i, ¬ Sys.Inner cfg prog (run i) (run (i + 1))
  /-- At the end of a schedule, the state is quiet, and the main programs and collectives are
  where they were. -/
  quiet : ∀ d, Sys.InnerRun cfg prog c d → (∀ x, ¬ Sys.Inner cfg prog d x) →
    d.Quiet ∧ d.pending = d.buffered + d.queued ∧ ∀ r, (c.rank r).SameTop (d.rank r)

/-- **Handlers with a budget come to an end**, whatever the order in which the main threads and the
listeners move, and they leave nothing on its way. -/
theorem settles (b : Budget prog) (alive : ∀ k mem k', prog.next k mem ≠ .kill k')
    (room : 8 ≤ cfg.bufferCapacity) (h : (comm cfg prog mem main).Reachable c) :
    Settles cfg prog c := by
  constructor
  · rintro run rfl
    by_contra goes
    simp only [not_exists, not_not] at goes
    have reached : ∀ i, (comm cfg prog mem main).Reachable (run i) := by
      intro i
      induction i with
      | zero => exact h
      | succ i ih =>
          obtain ⟨a, taken, -⟩ := goes i
          exact ih.step taken
    obtain ⟨i, dear⟩ := WellFounded.not_rel_apply_succ (r := (· < ·)) fun i => (run i).cost b
    exact dear ((goes i).cost b (reached i))
  · intro d run ended
    have quiet := quiet_of_ended (b.plain alive) room (h.leads run.leads) ended
    exact ⟨quiet, quiet.pending, run.sameTop⟩

/-! ## A program with a budget -/

/-- Straight-line code: `some (dest, k)` calls `dest`, whose handler calls back, and so on `k`
times; `none` is a barrier. -/
def echo (n : ℕ) : Program n ℕ Unit Unit (List (Option (Fin n × ℕ))) where
  next code _ :=
    match code with
    | [] => .ret ()
    | some (dest, k) :: rest => .async dest k rest
    | none :: rest => .barrier rest
  handler src k := match k with
    | 0 => []
    | k + 1 => [some (src, k)]
  packedSize _ := 12
  offset_le _ := by decide
  combine _ := ()

/-- The budget of `echo`: a call that is to go back and forth `k` times pays for all the calls
back. -/
def echoBudget (n : ℕ) : Budget (echo n) where
  inHandler code := none ∉ code
  work code := (code.map fun call => call.elim 0 fun call => 2 * call.2 + 2).sum
  weight k := 2 * k + 1
  start src k := by
    cases k with
    | zero => simp [echo]
    | succ k =>
        simp [echo]
        omega
  next code mem calls := by
    match code with
    | [] => trivial
    | some (dest, k) :: rest =>
        simp only [List.mem_cons, reduceCtorEq, false_or] at calls
        simp [echo, Cmd.Within, calls]
        omega
    | none :: rest => simp at calls

/-- The state of a run in which rank 0 has started a call that goes back and forth three times. -/
def echoing : Sys 2 ℕ Unit Unit (List (Option (Fin 2 × ℕ))) :=
  (comm ⟨16, true⟩ (echo 2) (fun _ => ()) ![[some (1, 3), none], [none]]).drive (fun _ _ => True)
    (comm ⟨16, true⟩ (echo 2) (fun _ => ()) ![[some (1, 3), none], [none]]).init
    (mains 0 10 ++ [.listen 1 0] ++ mains 1 4)

theorem settles_echoing :
    (echoing.rank 1).stack.length = 4 ∧ Settles ⟨16, true⟩ (echo 2) echoing := by
  have alive : ∀ k mem k', (echo 2).next k mem ≠ .kill k' := by
    rintro (_ | ⟨_ | _, _⟩) mem k' <;> simp [echo]
  exact ⟨by decide +kernel,
    settles (echoBudget 2) alive (by decide) (Machine.ReachableBy.init.drive _)⟩

end YGM
