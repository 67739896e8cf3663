import YGM.Comm.Routing

/-!
# No call is lost, duplicated or misdelivered

A call that has left its `async` is in exactly one place until its handler has
returned: in a send buffer, in the network, in a receive queue, in the unparsed
tail of an open buffer, or executing.  `Move.balance` is the step lemma — a move
changes what has been issued by what it changes in these places — and
`Sys.conservation` the run lemma.

The counters follow: `m_send_count` counts the remote calls of a rank from the
first line of `async` on, `m_recv_count` the remote calls whose handler has
returned, so the two sums differ by the remote calls still unfinished
(`Sys.sum_localCount`).
-/

namespace YGM

open scoped BigOperators

variable {n : ℕ} {P σ V C : Type}

/-- The calls that a packet carries; an announcement carries none. -/
def Packet.rpcs : Packet n P → List (Rpc n P)
  | .buffer msgs => msgs
  | .announce _ => []
  | .large m => [m]

/-- The calls that a step of the main thread hands to MPI. -/
def sentRpcs (sent : Option (Fin n × Packet n P)) : Multiset (Rpc n P) :=
  sent.elim 0 fun out => (out.2.rpcs : Multiset (Rpc n P))

/-! ## The places of one rank -/

namespace Rank

variable (s : Rank n P σ V C)

/-- The calls whose handler is running on the rank, at whatever depth of the stack. -/
def executing : Multiset (Rpc n P) :=
  (s.stack.flatMap Frame.executing : List (Rpc n P))

/-- The calls in the unparsed tails of the buffers that the rank's `receive_queue_process`
activations have open. -/
def unparsed : Multiset (Rpc n P) :=
  (s.stack.flatMap Frame.unparsed : List (Rpc n P))

/-- The calls that an `async` of the rank has counted and packed and neither stored nor sent
yet. -/
def handed : Multiset (Rpc n P) :=
  (s.stack.flatMap Frame.handed : List (Rpc n P))

/-- The calls in the send buffers of the rank. -/
def buffered : Multiset (Rpc n P) :=
  ∑ dest, (s.sendBuffers dest : Multiset (Rpc n P))

/-- The calls in the receive queue of the rank. -/
def queued : Multiset (Rpc n P) :=
  (s.receiveQueue.flatMap Prod.fst : List (Rpc n P))

/-- The calls whose handler has returned on the rank. -/
def done : Multiset (Rpc n P) :=
  (s.executed.map Exec.rpc : List (Rpc n P))

/-- The calls that have left their `async`, are not finished, and are held by the rank itself
and not by the network. -/
def held : Multiset (Rpc n P) :=
  s.executing + s.unparsed + s.buffered + s.queued

end Rank

/-- Code that goes on at another code point keeps what the activations carry, for every reading
`f` of an activation that does not depend on the code point of a handler. -/
theorem Running.flatMap_resume {α : Type} {s : Rank n P σ V C} {ctx : Option (Ctx n P)}
    {rest : List (Frame n P C)} {k : C} (run : Running s ctx rest k)
    (f : Frame n P C → List α) (hf : ∀ ctx k k', f (.user ctx k) = f (.user ctx k'))
    (k' : C) : (s.resume ctx rest k').stack.flatMap f = s.stack.flatMap f := by
  cases run with
  | main pc stack => simp [Rank.resume, stack]
  | @handler ctx k rest stack => simp [Rank.resume, stack, hf ctx k' k]

section Resume

variable {s : Rank n P σ V C} {ctx : Option (Ctx n P)} {rest : List (Frame n P C)} {k : C}

theorem Running.flatMap_executing (run : Running s ctx rest k) (k' : C) :
    (s.resume ctx rest k').stack.flatMap Frame.executing
      = s.stack.flatMap Frame.executing :=
  run.flatMap_resume _ (fun _ _ _ => rfl) k'

theorem Running.flatMap_unparsed (run : Running s ctx rest k) (k' : C) :
    (s.resume ctx rest k').stack.flatMap Frame.unparsed
      = s.stack.flatMap Frame.unparsed :=
  run.flatMap_resume _ (fun ctx _ _ => by cases ctx <;> rfl) k'

theorem Running.flatMap_handed (run : Running s ctx rest k) (k' : C) :
    (s.resume ctx rest k').stack.flatMap Frame.handed = s.stack.flatMap Frame.handed :=
  run.flatMap_resume _ (fun _ _ _ => rfl) k'

end Resume

variable {cfg : Config} {prog : Program n P σ V C} {r : Fin n} {w : View n V}

/-- The activations with which an `async` to another rank goes on carry nothing but the packed
call, which is counted as handed. -/
theorem AsyncPath.places {s : Rank n P σ V C} {m : Rpc n P}
    {frames : List (Frame n P C)} (path : AsyncPath cfg prog s m frames) :
    frames.flatMap Frame.executing = [] ∧ frames.flatMap Frame.unparsed = [] ∧
      frames.flatMap Frame.handed = [m] := by
  cases path <;> simp [Frame.executing, Frame.unparsed, Frame.handed]

theorem flatMap_silent {α : Type} {frames : List (Frame n P C)}
    {f : Frame n P C → List α} (h : ∀ frame ∈ frames, f frame = []) :
    frames.flatMap f = [] :=
  List.flatMap_eq_nil_iff.mpr h

/-- When one send buffer is replaced, the calls in the send buffers of the rank change by what
that buffer held and holds now. -/
theorem buffered_update (s : Rank n P σ V C) (dest : Fin n) (msgs : List (Rpc n P)) :
    ∑ d, (Function.update s.sendBuffers dest msgs d : Multiset (Rpc n P))
        + (s.sendBuffers dest : Multiset (Rpc n P))
      = s.buffered + (msgs : Multiset (Rpc n P)) :=
  sum_update_add (fun msgs : List (Rpc n P) => (msgs : Multiset (Rpc n P)))
    s.sendBuffers dest msgs

/-- **Balance of a move.**  What a move adds to the calls issued is what it adds to
those finished, held by the rank or sent. -/
theorem Move.balance {s t : Rank n P σ V C} {sent : Option (Fin n × Packet n P)}
    (move : Move cfg prog r w s t sent) :
    (s.issued : Multiset (Rpc n P)) + (t.done + t.held + sentRpcs sent)
      = (t.issued : Multiset (Rpc n P)) + (s.done + s.held) := by
  cases move with
  | @retSelf m k rest mem stack cmd =>
      simp only [Rank.finish, Rank.done, Rank.held, Rank.executing, Rank.unparsed,
        Rank.buffered, Rank.queued, stack, sentRpcs, List.flatMap_cons, Frame.executing,
        Frame.unparsed, Ctx.rpc, List.map_append, List.map_cons, List.map_nil,
        ← Multiset.coe_add, Option.elim_none, List.nil_append]
      abel
  | @retRemote src m tail k rest mem stack cmd =>
      simp only [Rank.finish, Rank.done, Rank.held, Rank.executing, Rank.unparsed,
        Rank.buffered, Rank.queued, stack, sentRpcs, List.flatMap_cons, Frame.executing,
        Frame.unparsed, Ctx.rpc, List.map_append, List.map_cons, List.map_nil,
        ← Multiset.coe_add, Option.elim_none, List.nil_append]
      abel
  | @update ctx rest k k' mem run cmd =>
      have same : (({ s with mem := mem }).resume ctx rest k').stack
          = (s.resume ctx rest k').stack := by cases ctx <;> rfl
      simp only [Rank.done, Rank.held, Rank.executing, Rank.unparsed, Rank.buffered,
        Rank.queued, sentRpcs, same, run.flatMap_executing, run.flatMap_unparsed,
        Rank.resume_sendBuffers, Rank.resume_receiveQueue, Rank.resume_issued,
        Rank.resume_executed, Option.elim_none]
      abel
  | @asyncSelf ctx rest k k' payload m run cmd call =>
      have same : (({ s with issued := s.issued ++ [m] }).resume ctx rest k').stack
          = (s.resume ctx rest k').stack := by cases ctx <;> rfl
      simp only [Rank.call, Rank.done, Rank.held, Rank.executing, Rank.unparsed,
        Rank.buffered, Rank.queued, sentRpcs, same, List.flatMap_append, List.flatMap_cons,
        List.flatMap_nil, Frame.executing, Frame.unparsed, Ctx.rpc,
        run.flatMap_executing, run.flatMap_unparsed, Rank.resume_sendBuffers,
        Rank.resume_receiveQueue, Rank.resume_issued, Rank.resume_executed,
        ← Multiset.coe_add, Option.elim_none, List.nil_append, List.append_nil]
      abel
  | @asyncRemote ctx rest k k' dest payload m frames run cmd call remote path =>
      obtain ⟨executing, unparsed, -⟩ := path.places
      have same : (({ s with
            sendCount := s.sendCount + 1
            localBytesSent := s.localBytesSent + prog.packedSize payload }).resume
              ctx rest k').stack
          = (s.resume ctx rest k').stack := by cases ctx <;> rfl
      simp only [Rank.call, Rank.done, Rank.held, Rank.executing, Rank.unparsed,
        Rank.buffered, Rank.queued, sentRpcs, same, List.flatMap_append, executing,
        unparsed, run.flatMap_executing, run.flatMap_unparsed, Rank.resume_sendBuffers,
        Rank.resume_receiveQueue, Rank.resume_issued, Rank.resume_executed,
        Option.elim_none, List.nil_append]
      abel
  | @callFlush ctx rest k k' frame run cmd =>
      have silent : frame.executing = [] ∧ frame.unparsed = [] := by
        rcases cmd with ⟨dest, -, rfl⟩ | ⟨-, rfl⟩ <;> exact ⟨rfl, rfl⟩
      simp only [Rank.call, Rank.done, Rank.held, Rank.executing, Rank.unparsed,
        Rank.buffered, Rank.queued, sentRpcs, List.flatMap_append, List.flatMap_cons,
        List.flatMap_nil, silent.1, silent.2, run.flatMap_executing,
        run.flatMap_unparsed, Rank.resume_sendBuffers, Rank.resume_receiveQueue,
        Rank.resume_issued, Rank.resume_executed, Option.elim_none, List.nil_append]
      abel
  | @silent frame frames rest received stack old new sends done =>
      have executing := flatMap_silent fun f hf => (new f hf).executing
      have unparsed := flatMap_silent fun f hf => (new f hf).unparsed
      simp only [Rank.done, Rank.held, Rank.executing, Rank.unparsed, Rank.buffered,
        Rank.queued, stack, sentRpcs, List.flatMap_append, List.flatMap_cons, executing,
        unparsed, old.executing, old.unparsed, Option.elim_none, List.nil_append]
      abel
  | @store m rest stack =>
      have moved := buffered_update s m.dest (s.sendBuffers m.dest ++ [m])
      rw [← Multiset.coe_add, add_left_comm, add_comm, add_left_cancel_iff] at moved
      simp only [Rank.done, Rank.held, Rank.executing, Rank.unparsed, Rank.buffered,
        Rank.queued, stack, sentRpcs, List.flatMap_cons, Frame.executing, Frame.unparsed,
        Option.elim_none, List.nil_append, ← Multiset.coe_add] at moved ⊢
      rw [moved]
      abel
  | @announce m rest stack =>
      simp only [Rank.done, Rank.held, Rank.executing, Rank.unparsed, Rank.buffered,
        Rank.queued, stack, sentRpcs, List.flatMap_cons, Frame.executing, Frame.unparsed,
        Packet.rpcs, Option.elim_some, Multiset.coe_nil, List.nil_append]
      abel
  | @large m rest stack =>
      simp only [Rank.done, Rank.held, Rank.executing, Rank.unparsed, Rank.buffered,
        Rank.queued, stack, sentRpcs, List.flatMap_cons, Frame.executing, Frame.unparsed,
        Packet.rpcs, Option.elim_some, ← Multiset.coe_add, List.nil_append]
      abel
  | @flush dest rest stack other nonempty =>
      have moved := buffered_update s dest []
      simp only [Rank.done, Rank.held, Rank.executing, Rank.unparsed, Rank.queued, stack,
        sentRpcs, List.flatMap_cons, Frame.executing, Frame.unparsed, Packet.rpcs,
        Option.elim_some, List.nil_append]
      rw [Multiset.coe_nil, add_zero] at moved
      rw [← moved]
      simp only [Rank.buffered]
      abel
  | @pop received msgs src queue rest stack head =>
      simp only [Rank.done, Rank.held, Rank.executing, Rank.unparsed, Rank.buffered,
        Rank.queued, stack, head, sentRpcs, List.flatMap_cons, Frame.executing,
        Frame.unparsed, ← Multiset.coe_add, Option.elim_none, List.nil_append]
      abel
  | @parsed src rest stack =>
      simp only [Rank.done, Rank.held, Rank.executing, Rank.unparsed, Rank.buffered,
        Rank.queued, stack, sentRpcs, List.flatMap_cons, Frame.executing,
        Frame.unparsed, Option.elim_none, List.nil_append]
      abel
  | @parse src m tail rest stack =>
      simp only [Rank.done, Rank.held, Rank.executing, Rank.unparsed, Rank.buffered,
        Rank.queued, stack, sentRpcs, List.flatMap_cons, Frame.executing,
        Frame.unparsed, Ctx.rpc, ← Multiset.coe_add, ← Multiset.cons_coe,
        ← Multiset.singleton_add, Multiset.coe_nil, Option.elim_none, add_zero, zero_add]
      abel
  | @barrier k pc stack cmd =>
      simp only [Rank.done, Rank.held, Rank.executing, Rank.unparsed, Rank.buffered,
        Rank.queued, stack, sentRpcs, List.flatMap_cons, List.flatMap_nil,
        Frame.executing, Frame.unparsed, Option.elim_none, List.nil_append]
      abel
  | @pending first pc stack =>
      simp only [Rank.done, Rank.held, Rank.executing, Rank.unparsed, Rank.buffered,
        Rank.queued, stack, sentRpcs, List.flatMap_cons, List.flatMap_nil,
        Frame.executing, Frame.unparsed, Option.elim_none, List.nil_append]
      abel
  | @retry sum pc stack result nonzero =>
      simp only [Rank.done, Rank.held, Rank.executing, Rank.unparsed, Rank.buffered,
        Rank.queued, stack, sentRpcs, List.flatMap_cons, List.flatMap_nil,
        Frame.executing, Frame.unparsed, Option.elim_none, List.nil_append]
      abel
  | kill pc stack cmd =>
      simp only [Rank.done, Rank.held, Rank.executing, Rank.unparsed, Rank.buffered,
        Rank.queued, sentRpcs, Packet.rpcs, Multiset.coe_nil, Option.elim_some]
      abel
  | _ =>
      simp only [Rank.done, Rank.held, Rank.executing, Rank.unparsed, Rank.buffered,
        Rank.queued, sentRpcs, Option.elim_none]
      abel

/-- **Balance of a receive.**  What leaves the stream enters the receive queue. -/
theorem Receive.balance {src : Fin n} {s t : Rank n P σ V C}
    {stream stream' : List (Packet n P)}
    (receive : Receive cfg prog r src s stream t stream')
    (net : ∀ packet ∈ stream, packet.Routed src r) :
    t.issued = s.issued ∧ t.done = s.done ∧
      t.held + ((stream'.flatMap Packet.rpcs : List (Rpc n P)) : Multiset (Rpc n P))
        = s.held + ((stream.flatMap Packet.rpcs : List (Rpc n P)) : Multiset (Rpc n P)) := by
  refine ⟨by cases receive <;> rfl, by cases receive <;> rfl, ?_⟩
  cases receive with
  | @announced size stream' listener head fits =>
      subst head
      simp only [Rank.held, Rank.executing, Rank.unparsed, Rank.buffered, Rank.queued,
        List.flatMap_cons, Packet.rpcs, List.nil_append]
  | @stop packet stream' listener head data own =>
      -- only the empty kill message comes from the own rank
      have empty : packet.rpcs = [] := by
        subst head own
        have routed := net packet (by simp)
        cases packet with
        | buffer msgs =>
            by_contra nonempty
            exact routed.2 nonempty rfl
        | announce size => rfl
        | large m => exact absurd rfl routed.2
      subst head
      simp only [Rank.held, Rank.executing, Rank.unparsed, Rank.buffered, Rank.queued,
        List.flatMap_cons, empty, List.nil_append]
  | @buffer msgs stream' listener head fits other =>
      subst head
      simp only [Rank.held, Rank.executing, Rank.unparsed, Rank.buffered, Rank.queued,
        List.flatMap_append, List.flatMap_cons, List.flatMap_nil, Packet.rpcs,
        List.append_nil, ← Multiset.coe_add]
      abel
  | @stray m stream' listener head fits other =>
      subst head
      simp only [Rank.held, Rank.executing, Rank.unparsed, Rank.buffered, Rank.queued,
        List.flatMap_append, List.flatMap_cons, List.flatMap_nil, Packet.rpcs,
        List.append_nil, ← Multiset.coe_add]
      abel
  | @large size m stream' listener taken announced =>
      obtain ⟨before, after, rfl, rfl⟩ := takeLarge_spec taken
      simp only [Rank.held, Rank.executing, Rank.unparsed, Rank.buffered, Rank.queued,
        List.flatMap_append, List.flatMap_cons, List.flatMap_nil, Packet.rpcs,
        List.append_nil, ← Multiset.coe_add]
      abel

/-! ## The places of the system -/

namespace Sys

variable (c : Sys n P σ V C)

/-- The calls of all ranks that have left their `async`. -/
def issued : Multiset (Rpc n P) :=
  ∑ r, ((c.rank r).issued : Multiset (Rpc n P))

/-- The calls of all ranks whose handler has returned. -/
def executed : Multiset (Rpc n P) :=
  ∑ r, (c.rank r).done

/-- The calls whose handler is running, on any rank. -/
def executing : Multiset (Rpc n P) :=
  ∑ r, (c.rank r).executing

/-- The calls in the send buffers of all ranks. -/
def buffered : Multiset (Rpc n P) :=
  ∑ r, (c.rank r).buffered

/-- The calls in the stream from `src` to `dest`. -/
def stream (src dest : Fin n) : Multiset (Rpc n P) :=
  ((c.net src dest).flatMap Packet.rpcs : List (Rpc n P))

/-- The calls in the streams between all pairs of ranks. -/
def inNetwork : Multiset (Rpc n P) :=
  ∑ src, ∑ dest, c.stream src dest

/-- The calls in the receive queues of all ranks. -/
def queued : Multiset (Rpc n P) :=
  ∑ r, (c.rank r).queued

/-- The calls in the unparsed tails of the buffers open on any rank. -/
def unparsed : Multiset (Rpc n P) :=
  ∑ r, (c.rank r).unparsed

/-- The calls of all ranks that have been counted by an `async` which still has to store or send
them. -/
def handed : Multiset (Rpc n P) :=
  ∑ r, (c.rank r).handed

/-- The calls that have left their `async` and whose handler has not returned, wherever they
are. -/
def unfinished : Multiset (Rpc n P) :=
  c.executing + c.buffered + c.inNetwork + c.queued + c.unparsed

/-- The unfinished calls are those that the ranks hold themselves and those in the network. -/
theorem unfinished_eq : c.unfinished = ∑ r, (c.rank r).held + c.inNetwork := by
  simp only [unfinished, executing, buffered, queued, unparsed, Rank.held,
    Finset.sum_add_distrib]
  abel

variable {c}

/-- When one stream is replaced, the calls in the network change by what that stream held and
holds now. -/
theorem inNetwork_update (net : Fin n → Fin n → List (Packet n P)) (src dest : Fin n)
    (new : List (Packet n P)) :
    ∑ s, ∑ d, (((Function.update net src (Function.update (net src) dest new) s d).flatMap
          Packet.rpcs : List (Rpc n P)) : Multiset (Rpc n P))
        + (((net src dest).flatMap Packet.rpcs : List (Rpc n P)) : Multiset (Rpc n P))
      = ∑ s, ∑ d, (((net s d).flatMap Packet.rpcs : List (Rpc n P)) : Multiset (Rpc n P))
        + ((new.flatMap Packet.rpcs : List (Rpc n P)) : Multiset (Rpc n P)) := by
  have rows := sum_update_add
    (fun row : Fin n → List (Packet n P) =>
      ∑ d, (((row d).flatMap Packet.rpcs : List (Rpc n P)) : Multiset (Rpc n P)))
    net src (Function.update (net src) dest new)
  have row := sum_update_add
    (fun stream : List (Packet n P) =>
      ((stream.flatMap Packet.rpcs : List (Rpc n P)) : Multiset (Rpc n P)))
    (net src) dest new
  refine add_right_cancel (b := ∑ d, (((net src d).flatMap Packet.rpcs :
    List (Rpc n P)) : Multiset (Rpc n P))) ?_
  rw [add_right_comm, rows, add_assoc, row, ← add_assoc, add_right_comm]

/-- A packet that is handed to MPI adds its calls, and no others, to those in the network. -/
theorem inNetwork_send (net : Fin n → Fin n → List (Packet n P)) (src : Fin n)
    (sent : Option (Fin n × Packet n P)) :
    ∑ s, ∑ d, (((send net src sent s d).flatMap Packet.rpcs : List (Rpc n P)) :
          Multiset (Rpc n P))
      = ∑ s, ∑ d, (((net s d).flatMap Packet.rpcs : List (Rpc n P)) :
          Multiset (Rpc n P)) + sentRpcs sent := by
  cases sent with
  | none => simp [send, sentRpcs]
  | some out =>
      obtain ⟨dest, packet⟩ := out
      have moved := inNetwork_update net src dest (net src dest ++ [packet])
      simp only [List.flatMap_append, List.flatMap_cons, List.flatMap_nil, List.append_nil,
        ← Multiset.coe_add] at moved
      rw [add_left_comm, add_comm, add_left_cancel_iff] at moved
      exact moved

variable {mem : Fin n → σ} {main : Fin n → C}

/-- **Conservation.**  In every reachable state the calls issued so far are those
executed together with those in one of the places an unfinished call can be. -/
theorem conservation {c : Sys n P σ V C} (h : (comm cfg prog mem main).Reachable c) :
    c.issued = c.executed + c.unfinished := by
  classical
  refine h.invariant (I := fun c => c.issued = c.executed + c.unfinished) ?_ ?_
  · simp [comm, issued, executed, unfinished, executing, buffered, inNetwork, stream,
      queued, unparsed, Rank.init, Rank.done, Rank.executing, Rank.unparsed,
      Rank.buffered, Rank.queued]
  · intro c a d before inv taken
    have routed := routed_of_reachable before
    rw [unfinished_eq] at inv ⊢
    simp only [issued, executed, inNetwork, stream] at inv ⊢
    rcases Sys.step_cases taken with
      ⟨r, flag, t, sent, -, move, rfl⟩ | ⟨r, src, t, stream, -, receive, rfl⟩
    · have balance := move.balance
      have issuedSum := sum_update_add
        (fun s : Rank n P σ V C => (s.issued : Multiset (Rpc n P))) c.rank r t
      have doneSum := sum_update_add
        (fun s : Rank n P σ V C => s.done) c.rank r t
      have heldSum := sum_update_add
        (fun s : Rank n P σ V C => s.held) c.rank r t
      rw [inNetwork_send]
      refine Multiset.ext.mpr fun m => ?_
      replace balance := congrArg (Multiset.count m) balance
      replace issuedSum := congrArg (Multiset.count m) issuedSum
      replace doneSum := congrArg (Multiset.count m) doneSum
      replace heldSum := congrArg (Multiset.count m) heldSum
      replace inv := congrArg (Multiset.count m) inv
      simp only [Multiset.count_add] at *
      omega
    · obtain ⟨sameIssued, sameDone, balance⟩ := receive.balance (routed.net src r)
      have moved := inNetwork_update c.net src r stream
      have heldSum := sum_update_add
        (fun s : Rank n P σ V C => s.held) c.rank r t
      rw [sum_update_eq (fun s : Rank n P σ V C => (s.issued : Multiset (Rpc n P)))
          c.rank r (congrArg _ sameIssued),
        sum_update_eq (fun s : Rank n P σ V C => s.done) c.rank r sameDone]
      refine Multiset.ext.mpr fun m => ?_
      replace balance := congrArg (Multiset.count m) balance
      replace moved := congrArg (Multiset.count m) moved
      replace heldSum := congrArg (Multiset.count m) heldSum
      replace inv := congrArg (Multiset.count m) inv
      simp only [Multiset.count_add] at *
      omega

end Sys

/-! ## What a move starts and what it finishes -/

/-- The calls that the rank has started: the issued ones, and those in the hands of the `async`
that issues them.  The remote ones among them are counted by `m_send_count`. -/
def Rank.started (s : Rank n P σ V C) : Multiset (Rpc n P) :=
  (s.issued : Multiset (Rpc n P)) + s.handed

/-- `m` is a call that code running on rank `r` at `s` can start: the main program
passes on its own epoch, a handler that of the call it serves. -/
inductive CanStart (r : Fin n) (s : Rank n P σ V C) (m : Rpc n P) : Prop
  | main (src : m.src = r) (cut : m.cut = s.cuts) (epoch : m.epoch = s.epoch)
      (pc : s.pc = .user) (stack : s.stack = [])
  | handler {cause : Rpc n P} (src : m.src = r) (cut : m.cut = s.cuts)
      (running : cause ∈ s.executing) (epoch : m.epoch = cause.epoch)

theorem CanStart.src {s : Rank n P σ V C} {m : Rpc n P} (h : CanStart r s m) :
    m.src = r := by
  cases h <;> assumption

theorem CanStart.cut {s : Rank n P σ V C} {m : Rpc n P} (h : CanStart r s m) :
    m.cut = s.cuts := by
  cases h <;> assumption

theorem Running.canStart {s : Rank n P σ V C} {ctx : Option (Ctx n P)}
    {rest : List (Frame n P C)} {k : C} (run : Running s ctx rest k) {m : Rpc n P}
    (src : m.src = r) (cut : m.cut = s.cuts) (epoch : m.epoch = s.issueEpoch ctx) :
    CanStart r s m := by
  cases run with
  | main pc stack => exact .main src cut epoch pc stack
  | @handler ctx k rest stack =>
      have running : ctx.rpc ∈ s.executing := by
        simp [Rank.executing, stack, Frame.executing]
      exact .handler src cut running epoch

/-- The user code running on rank `r` in the state `s` is about to call `m`; the history fields
of `m` are those that `async` gives it. -/
def Calls (prog : Program n P σ V C) (r : Fin n) (s : Rank n P σ V C) (m : Rpc n P) : Prop :=
  ∃ ctx rest k k', Running s ctx rest k ∧
    prog.next k s.mem = .async m.dest m.payload k' ∧
    m.src = r ∧ m.cut = s.cuts ∧ m.epoch = s.issueEpoch ctx

theorem Calls.canStart {s : Rank n P σ V C} {m : Rpc n P} (h : Calls prog r s m) :
    CanStart r s m := by
  obtain ⟨ctx, rest, k, k', run, -, src, cut, epoch⟩ := h
  exact run.canStart src cut epoch

/-- A call of the own rank is issued in the same step in which user code makes it. -/
theorem Running.started_self {s : Rank n P σ V C} {ctx : Option (Ctx n P)}
    {rest : List (Frame n P C)} {k : C} (run : Running s ctx rest k) {m : Rpc n P} (k' h : C) :
    ((({ s with issued := s.issued ++ [m] }).resume ctx rest k').call
        [.user (.self m) h, .peek]).started = s.started + {m} := by
  have same : (({ s with issued := s.issued ++ [m] }).resume ctx rest k').stack
      = (s.resume ctx rest k').stack := by cases ctx <;> rfl
  simp only [Rank.started, Rank.handed, Rank.call, same, List.flatMap_append,
    List.flatMap_cons, List.flatMap_nil, Frame.handed, run.flatMap_handed,
    Rank.resume_issued, ← Multiset.coe_add, List.nil_append, List.append_nil,
    Multiset.coe_singleton]
  abel

/-- A call of another rank is in the hands of its `async` after the step in which user code
makes it. -/
theorem Running.started_remote {s : Rank n P σ V C} {ctx : Option (Ctx n P)}
    {rest : List (Frame n P C)} {k : C} (run : Running s ctx rest k) {m : Rpc n P} (k' : C)
    {frames : List (Frame n P C)} (path : AsyncPath cfg prog s m frames) (count bytes : ℤ) :
    ((({ s with sendCount := count, localBytesSent := bytes }).resume ctx rest k').call
        frames).started = s.started + {m} := by
  obtain ⟨-, -, handed⟩ := path.places
  have same : (({ s with sendCount := count, localBytesSent := bytes }).resume ctx rest k').stack
      = (s.resume ctx rest k').stack := by cases ctx <;> rfl
  simp only [Rank.started, Rank.handed, Rank.call, same, List.flatMap_append, handed,
    run.flatMap_handed, Rank.resume_issued, ← Multiset.coe_add, Multiset.coe_singleton]
  abel

/-- **A move starts at most one call**, which `m_send_count` counts if it is
remote. -/
theorem Move.starts {s t : Rank n P σ V C} {sent : Option (Fin n × Packet n P)}
    (move : Move cfg prog r w s t sent) :
    ∃ new : List (Rpc n P), t.started = s.started + (new : Multiset (Rpc n P)) ∧
      t.sendCount = s.sendCount + (new.countP fun m => decide m.Remote : ℕ) ∧
      ∀ m ∈ new, Calls prog r s m := by
  cases move with
  | @asyncSelf ctx rest k k' payload m run cmd call =>
      refine ⟨[m], run.started_self k' _, ?_, ?_⟩
      · subst call
        simp [Rank.call, Rpc.Remote]
      · subst call
        simpa using ⟨ctx, rest, k, k', run, cmd, rfl, rfl, rfl⟩
  | @asyncRemote ctx rest k k' dest payload m frames run cmd call remote path =>
      refine ⟨[m], run.started_remote k' path _ _, ?_, ?_⟩
      · subst call
        simp [Rank.call, Rpc.Remote, remote.symm]
      · subst call
        simpa using ⟨ctx, rest, k, k', run, cmd, rfl, rfl, rfl⟩
  | @store m rest stack =>
      refine ⟨[], ?_, by simp, by simp⟩
      simp only [Rank.started, Rank.handed, stack, List.flatMap_cons, Frame.handed,
        ← Multiset.coe_add, Multiset.coe_nil]
      abel
  | @large m rest stack =>
      refine ⟨[], ?_, by simp, by simp⟩
      simp only [Rank.started, Rank.handed, stack, List.flatMap_cons, Frame.handed,
        ← Multiset.coe_add, Multiset.coe_nil]
      abel
  | @update ctx rest k k' mem run cmd =>
      have same : (({ s with mem := mem }).resume ctx rest k').stack
          = (s.resume ctx rest k').stack := by cases ctx <;> rfl
      refine ⟨[], ?_, by simp, by simp⟩
      simp [Rank.started, Rank.handed, same, run.flatMap_handed]
  | @callFlush ctx rest k k' frame run cmd =>
      have silent : frame.handed = [] := by
        rcases cmd with ⟨dest, -, rfl⟩ | ⟨-, rfl⟩ <;> rfl
      refine ⟨[], ?_, by simp [Rank.call], by simp⟩
      simp [Rank.started, Rank.handed, Rank.call, silent, run.flatMap_handed]
  | @silent frame frames rest received stack old new sends done =>
      refine ⟨[], ?_, by simp, by simp⟩
      simp [Rank.started, Rank.handed, stack, old.handed,
        flatMap_silent fun f hf => (new f hf).handed]
  | _ =>
      refine ⟨[], ?_, by simp [Rank.finish], by simp⟩
      simp [Rank.started, Rank.handed, Rank.finish, Frame.handed, *]

/-- **A move finishes at most one call**, which `m_recv_count` counts if it is
remote. -/
theorem Move.finishes {s t : Rank n P σ V C} {sent : Option (Fin n × Packet n P)}
    (move : Move cfg prog r w s t sent) (routed : s.Routed r) :
    ∃ new : List (Exec n P), t.executed = s.executed ++ new ∧
      t.recvCount = s.recvCount + (new.countP fun e => decide e.rpc.Remote : ℕ) ∧
      ∀ e ∈ new, e.epoch = s.epoch ∧ e.cut = s.cuts ∧ e.rpc ∈ s.executing := by
  cases move with
  | @retSelf m k rest mem stack cmd =>
      have top := routed.stack
      rw [stack, List.forall_mem_cons] at top
      obtain ⟨src, dest⟩ := top.1 m (by simp)
      refine ⟨[⟨r, m, s.epoch, s.cuts⟩], rfl, ?_, ?_⟩
      · simp [Rank.finish, Rpc.Remote, src, dest]
      · simp [Rank.executing, stack, Frame.executing, Ctx.rpc]
  | @retRemote src m tail k rest mem stack cmd =>
      have top := routed.stack
      rw [stack, List.forall_mem_cons] at top
      obtain ⟨⟨other, between⟩, -⟩ := top
      obtain ⟨hsrc, hdest⟩ := between m (by simp)
      refine ⟨[⟨src, m, s.epoch, s.cuts⟩], rfl, ?_, ?_⟩
      · simp [Rank.finish, Rpc.Remote, hsrc, hdest, other]
      · simp [Rank.executing, stack, Frame.executing, Ctx.rpc]
  | _ => exact ⟨[], by simp [Rank.call], by simp [Rank.call], by simp⟩

/-- A move of a main thread appends to the list of issued calls and takes nothing back. -/
theorem Move.issued {s t : Rank n P σ V C} {sent : Option (Fin n × Packet n P)}
    (move : Move cfg prog r w s t sent) : s.issued <+: t.issued := by
  cases move with
  | asyncSelf run cmd call =>
      subst call
      simp [Rank.call]
  | asyncRemote run cmd call =>
      subst call
      simp [Rank.call]
  | _ => simp [Rank.call, Rank.finish]

/-- A receive starts and finishes no call: it changes only the listener and the receive queue of
its rank. -/
theorem Receive.quiet {src : Fin n} {s t : Rank n P σ V C}
    {stream stream' : List (Packet n P)}
    (receive : Receive cfg prog r src s stream t stream') :
    t = { s with listener := t.listener, receiveQueue := t.receiveQueue } := by
  cases receive <;> rfl

/-- **The frame of a receive**: it leaves every rank as it is, except for the listener and the
receive queue of one of them. -/
theorem Receive.frame {ranks : Fin n → Rank n P σ V C} {src : Fin n} {t : Rank n P σ V C}
    {stream stream' : List (Packet n P)}
    (receive : Receive cfg prog r src (ranks r) stream t stream') (i : Fin n) :
    ∃ listener queue, Function.update ranks r t i
      = { ranks i with listener := listener, receiveQueue := queue } := by
  by_cases hi : i = r
  · subst hi
    exact ⟨t.listener, t.receiveQueue, by simpa using receive.quiet⟩
  · exact ⟨(ranks i).listener, (ranks i).receiveQueue, by simp [hi]⟩

/-- No step of the system takes back a call that has been issued. -/
theorem Sys.step_issued {c d : Sys n P σ V C} {a : Action n}
    (taken : Sys.step cfg prog c a = some d) (r : Fin n) :
    (c.rank r).issued <+: (d.rank r).issued := by
  rcases Sys.step_cases taken with
    ⟨i, flag, t, sent, -, move, rfl⟩ | ⟨i, src, t, stream, -, receive, rfl⟩
  · by_cases hi : r = i
    · subst hi
      simpa using move.issued
    · simp [hi]
  · obtain ⟨listener, queue, eq⟩ := receive.frame r
    simp [eq]

theorem Sys.mem_issued_step {c d : Sys n P σ V C} {a : Action n}
    (taken : Sys.step cfg prog c a = some d) {m : Rpc n P} (issued : m ∈ c.issued) :
    m ∈ d.issued := by
  obtain ⟨r, -, hr⟩ := Multiset.mem_sum.mp issued
  exact Multiset.mem_sum.mpr ⟨r, Finset.mem_univ r, (Sys.step_issued taken r).subset hr⟩

end YGM
