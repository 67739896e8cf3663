import YGM.Comm.Conservation
import YGM.Comm.Script

/-!
# Exactly-once delivery

`Sys.conservation` balances all calls; here the counters `barrier` samples are
tied to it, and the pieces are put together as the delivery guarantee of the
communicator (`exactly_once_delivery`).
-/

namespace YGM

open scoped BigOperators

variable {n : ℕ} {P σ V C : Type}
variable {cfg : Config} {prog : Program n P σ V C} {mem : Fin n → σ} {main : Fin n → C}

/-! ## The counters -/

/-- **The two counters of a rank are exact**: they count the remote calls it has started, and
the remote calls whose handler has returned on it. -/
structure Rank.Counted (s : Rank n P σ V C) : Prop where
  send : s.sendCount = (s.started.countP Rpc.Remote : ℕ)
  recv : s.recvCount = (s.done.countP Rpc.Remote : ℕ)

theorem Move.counted {r : Fin n} {w : View n V} {s t : Rank n P σ V C}
    {sent : Option (Fin n × Packet n P)} (move : Move cfg prog r w s t sent)
    (routed : s.Routed r) (h : s.Counted) : t.Counted := by
  obtain ⟨started, hstarted, hsend, -⟩ := move.starts
  obtain ⟨finished, hfinished, hrecv, -⟩ := move.finishes routed
  refine ⟨?_, ?_⟩
  · rw [hstarted, hsend, h.send, Multiset.countP_add, Multiset.coe_countP, Nat.cast_add]
  · rw [hrecv, h.recv]
    simp [Rank.done, hfinished, List.countP_map, Function.comp_def]

namespace Sys

theorem counted_of_reachable {c : Sys n P σ V C}
    (h : (comm cfg prog mem main).Reachable c) (r : Fin n) : (c.rank r).Counted := by
  refine h.invariant (I := fun c => ∀ r, (c.rank r).Counted) ?_ ?_ r
  · intro r
    exact ⟨by simp [comm, Rank.init, Rank.started, Rank.handed],
      by simp [comm, Rank.init, Rank.done]⟩
  · intro c a d before inv taken i
    have routed := routed_of_reachable before
    rcases Sys.step_cases taken with
      ⟨r, flag, t, sent, -, move, rfl⟩ | ⟨r, src, t, stream, -, receive, rfl⟩
    · by_cases hi : i = r
      · subst hi
        simpa using move.counted (routed.rank i) (inv i)
      · simpa [hi] using inv i
    · obtain ⟨listener, queue, eq⟩ := receive.frame i
      simp only [eq]
      exact ⟨(inv i).send, (inv i).recv⟩

/-- **The samples of `barrier` add up to the unfinished remote calls**, including those still in
the hands of their `async`. -/
theorem sum_localCount {c : Sys n P σ V C}
    (h : (comm cfg prog mem main).Reachable c) :
    ∑ r, (c.rank r).localCount = ((c.unfinished + c.handed).countP Rpc.Remote : ℕ) := by
  have send : ∑ r, (c.rank r).sendCount
      = ((c.issued + c.handed).countP Rpc.Remote : ℕ) := by
    have total : c.issued + c.handed = ∑ r, (c.rank r).started := by
      simp only [issued, handed, Rank.started, Finset.sum_add_distrib]
    rw [total, ← Multiset.coe_countPAddMonoidHom, map_sum, Nat.cast_sum]
    exact Finset.sum_congr rfl fun r _ => (counted_of_reachable h r).send
  have recv : ∑ r, (c.rank r).recvCount = (c.executed.countP Rpc.Remote : ℕ) := by
    rw [executed, ← Multiset.coe_countPAddMonoidHom, map_sum, Nat.cast_sum]
    exact Finset.sum_congr rfl fun r _ => (counted_of_reachable h r).recv
  have balance : (c.issued + c.handed).countP Rpc.Remote
      = c.executed.countP Rpc.Remote + (c.unfinished + c.handed).countP Rpc.Remote := by
    rw [conservation h, add_assoc, Multiset.countP_add]
  simp only [Rank.localCount, Finset.sum_sub_distrib, send, recv, balance]
  omega

/-! ## Origin and place of a call -/

/-- A call that some rank has issued was issued by the rank that it names as its source. -/
theorem mem_issued_src {c : Sys n P σ V C} (h : (comm cfg prog mem main).Reachable c)
    {m : Rpc n P} (issued : m ∈ c.issued) : m ∈ (c.rank m.src).issued := by
  obtain ⟨r, -, hr⟩ := Multiset.mem_sum.mp issued
  have src := (routed_of_reachable h).rank r |>.issued m hr
  rw [src]
  exact hr

theorem mem_issued_of_executing {c : Sys n P σ V C}
    (h : (comm cfg prog mem main).Reachable c) {m : Rpc n P} {r : Fin n}
    (running : m ∈ (c.rank r).executing) : m ∈ c.issued := by
  rw [conservation h, unfinished]
  have : m ∈ c.executing := Multiset.mem_sum.mpr ⟨r, Finset.mem_univ r, running⟩
  simp [this]

theorem mem_issued_of_executed {c : Sys n P σ V C}
    (h : (comm cfg prog mem main).Reachable c) {e : Exec n P} {r : Fin n}
    (finished : e ∈ (c.rank r).executed) : e.rpc ∈ c.issued := by
  rw [conservation h]
  have : e.rpc ∈ c.executed :=
    Multiset.mem_sum.mpr ⟨r, Finset.mem_univ r, List.mem_map_of_mem finished⟩
  simp [this]

/-- Only calls from one rank to another are in a send buffer, in the network, in a receive queue
or in the unparsed tail of an open buffer. -/
theorem remote_of_in_transit {c : Sys n P σ V C}
    (h : (comm cfg prog mem main).Reachable c) :
    ∀ m ∈ c.buffered + c.inNetwork + c.queued + c.unparsed, m.Remote := by
  have routed := routed_of_reachable h
  intro m hm
  rw [Multiset.mem_add, Multiset.mem_add, Multiset.mem_add] at hm
  rcases hm with ((hm | hm) | hm) | hm
  · obtain ⟨r, -, hr⟩ := Multiset.mem_sum.mp hm
    obtain ⟨dest, -, hdest⟩ := Multiset.mem_sum.mp hr
    have addresses := (routed.rank r).buffers dest m hdest
    intro self
    have own : dest = r := by rw [← addresses.2, ← self, addresses.1]
    rw [own, (routed.rank r).own] at hdest
    simp at hdest
  · obtain ⟨src, -, hsrc⟩ := Multiset.mem_sum.mp hm
    obtain ⟨dest, -, hdest⟩ := Multiset.mem_sum.mp hsrc
    obtain ⟨packet, inStream, inPacket⟩ := List.mem_flatMap.mp (Multiset.mem_coe.mp hdest)
    have addresses := routed.net src dest packet inStream
    cases packet with
    | buffer msgs =>
        obtain ⟨hs, hd⟩ := addresses.1 m inPacket
        rw [Rpc.Remote, hs, hd]
        exact addresses.2 (List.ne_nil_of_mem inPacket)
    | announce size => cases inPacket
    | large m' =>
        obtain ⟨hs, hd⟩ := addresses.1 m inPacket
        rw [Rpc.Remote, hs, hd]
        exact addresses.2
  · obtain ⟨r, -, hr⟩ := Multiset.mem_sum.mp hm
    obtain ⟨entry, inQueue, inEntry⟩ := List.mem_flatMap.mp (Multiset.mem_coe.mp hr)
    obtain ⟨other, between⟩ := (routed.rank r).queue entry inQueue
    obtain ⟨hs, hd⟩ := between m inEntry
    rw [Rpc.Remote, hs, hd]
    exact other
  · obtain ⟨r, -, hr⟩ := Multiset.mem_sum.mp hm
    obtain ⟨frame, inStack, inFrame⟩ := List.mem_flatMap.mp (Multiset.mem_coe.mp hr)
    have addresses := (routed.rank r).stack frame inStack
    cases frame with
    | user ctx k =>
        cases ctx with
        | self m' => cases inFrame
        | remote src m' tail =>
            obtain ⟨hs, hd⟩ := addresses.2 m (List.mem_cons_of_mem _ inFrame)
            rw [Rpc.Remote, hs, hd]
            exact addresses.1
    | parse src tail =>
        obtain ⟨hs, hd⟩ := addresses.2 m inFrame
        rw [Rpc.Remote, hs, hd]
        exact addresses.1
    | _ => cases inFrame

end Sys

/-! ## Calls to the own rank -/

/-- When user code is running, the next step of the main thread is the next command of that
code. -/
theorem Running.mainStep {r : Fin n} {w : View n V} {s : Rank n P σ V C}
    {ctx : Option (Ctx n P)} {rest : List (Frame n P C)} {k : C}
    (run : Running s ctx rest k) :
    mainStep cfg prog r w s = userStep cfg prog r s ctx rest (prog.next k s.mem) := by
  cases run with
  | main pc stack => simp [YGM.mainStep, topStep, pc, stack]
  | handler stack => simp [YGM.mainStep, frameStep, stack]

/-- **A call to the own rank starts at once**: the same step enters its handler and
leaves both counters alone. -/
theorem Sys.step_asyncSelf {c : Sys n P σ V C} {r : Fin n} {ctx : Option (Ctx n P)}
    {rest : List (Frame n P C)} {k k' : C} {payload : P}
    (run : Running (c.rank r) ctx rest k)
    (cmd : prog.next k (c.rank r).mem = .async r payload k') (flag : Bool) :
    ∃ d m, Sys.step cfg prog c (.main r flag) = some d ∧
      m.src = r ∧ m.dest = r ∧ m.payload = payload ∧
      (d.rank r).stack = .user (.self m) (prog.handler r payload) :: .peek ::
        ((c.rank r).resume ctx rest k').stack ∧
      (d.rank r).sendCount = (c.rank r).sendCount ∧
      (d.rank r).recvCount = (c.rank r).recvCount := by
  let resumed := (c.rank r).resume ctx rest k'
  refine ⟨⟨Function.update c.rank r (async cfg prog r resumed ctx r payload), c.net⟩,
    ⟨r, r, payload, resumed.issueEpoch ctx, resumed.cuts⟩, ?_, rfl, rfl, rfl, ?_⟩
  · simp only [Sys.step, run.mainStep, cmd, userStep, Option.map_some]
    rfl
  · simp [async, Rank.call, resumed]

/-- **A call to the own rank ends on the rank where it started**, and its return does not touch
the counters either. -/
theorem Sys.step_retSelf {c : Sys n P σ V C} {r : Fin n} {m : Rpc n P} {k : C}
    {rest : List (Frame n P C)} {left : σ}
    (stack : (c.rank r).stack = .user (.self m) k :: rest)
    (cmd : prog.next k (c.rank r).mem = .ret left) (flag : Bool) :
    ∃ d, Sys.step cfg prog c (.main r flag) = some d ∧ (d.rank r).stack = rest ∧
      (d.rank r).done = (c.rank r).done + {m} ∧
      (d.rank r).sendCount = (c.rank r).sendCount ∧
      (d.rank r).recvCount = (c.rank r).recvCount := by
  let returned := { c.rank r with mem := left, stack := rest }.finish r m
  refine ⟨⟨Function.update c.rank r returned, c.net⟩, ?_, ?_⟩
  · simp only [Sys.step, (Running.handler stack).mainStep, cmd, userStep, Option.map_some]
    rfl
  · simp only [returned, Rank.finish, Rank.done, Function.update_self, List.map_append,
      List.map_cons, List.map_nil, ← Multiset.coe_add]
    exact ⟨trivial, rfl, trivial, trivial⟩

/-! ## The delivery guarantee -/

/-- **The delivery guarantee, as a property of one state**: where each call is, where it was
executed, and what the counters say. -/
structure ExactlyOnce (cfg : Config) (prog : Program n P σ V C) (c : Sys n P σ V C) :
    Prop where
  /-- A remote call issued is in exactly one of six places. -/
  issued : c.issued.filter Rpc.Remote =
    c.executed.filter Rpc.Remote + c.executing.filter Rpc.Remote
      + c.buffered + c.inNetwork + c.queued + c.unparsed
  /-- An executed call was executed at its destination, with the issuing rank as `from`. -/
  executed : ∀ r, ∀ e ∈ (c.rank r).executed,
    e.rpc.dest = r ∧ e.rpc ∈ (c.rank e.src).issued
  /-- A call that is still executing runs on the rank it is addressed to, with the issuing rank
  as `from`. -/
  executing : ∀ r src m tail k, Frame.user (.remote src m tail) k ∈ (c.rank r).stack →
    m.dest = r ∧ m ∈ (c.rank src).issued
  /-- `m_send_count - m_recv_count`, over all ranks, counts the remote calls not
  finished, the one an `async` is still handing over included. -/
  counters : ∑ r, ((c.rank r).sendCount - (c.rank r).recvCount)
    = ((c.unfinished + c.handed).countP Rpc.Remote : ℕ)
  /-- A call to the own rank is executing or executed from its issue on. -/
  own : c.issued.filter (fun m => ¬ m.Remote) =
    c.executed.filter (fun m => ¬ m.Remote) + c.executing.filter (fun m => ¬ m.Remote)
  /-- A call to the own rank starts its handler in the step that issues it, and leaves both
  counters as they are. -/
  ownStart : ∀ r ctx rest k payload k', Running (c.rank r) ctx rest k →
    prog.next k (c.rank r).mem = .async r payload k' → ∀ flag,
    ∃ d m, Sys.step cfg prog c (.main r flag) = some d ∧
      m.src = r ∧ m.dest = r ∧ m.payload = payload ∧
      (d.rank r).stack = .user (.self m) (prog.handler r payload) :: .peek ::
        ((c.rank r).resume ctx rest k').stack ∧
      (d.rank r).sendCount = (c.rank r).sendCount ∧
      (d.rank r).recvCount = (c.rank r).recvCount
  /-- The return of a call to the own rank changes neither counter. -/
  ownReturn : ∀ r m k rest left, (c.rank r).stack = .user (.self m) k :: rest →
    prog.next k (c.rank r).mem = .ret left → ∀ flag,
    ∃ d, Sys.step cfg prog c (.main r flag) = some d ∧ (d.rank r).stack = rest ∧
      (d.rank r).done = (c.rank r).done + {m} ∧
      (d.rank r).sendCount = (c.rank r).sendCount ∧
      (d.rank r).recvCount = (c.rank r).recvCount

/-- **Exactly-once delivery**: in every reachable state of every program, under any interleaving
of the ranks' threads, every issued call is at one of the six places on its way or executed, and
it is executed on its destination, once, with its issuer as `from`. -/
theorem exactly_once_delivery {c : Sys n P σ V C}
    (h : (comm cfg prog mem main).Reachable c) : ExactlyOnce cfg prog c := by
  have routed := Sys.routed_of_reachable h
  have transit := Sys.remote_of_in_transit h
  have split : c.issued = c.executed + c.executing
      + (c.buffered + c.inNetwork + c.queued + c.unparsed) := by
    rw [Sys.conservation h, Sys.unfinished]
    simp only [add_assoc]
  refine ⟨?_, ?_, ?_, Sys.sum_localCount h, ?_, ?_, ?_⟩
  · rw [split, Multiset.filter_add, Multiset.filter_add, Multiset.filter_eq_self.mpr transit]
    simp only [add_assoc]
  · intro r e he
    obtain ⟨hsrc, hdest⟩ := (routed.rank r).executed e he
    refine ⟨hdest, ?_⟩
    rw [hsrc]
    exact Sys.mem_issued_src h (Sys.mem_issued_of_executed h he)
  · intro r src m tail k hk
    obtain ⟨-, between⟩ := (routed.rank r).stack _ hk
    obtain ⟨hsrc, hdest⟩ := between m (by simp)
    refine ⟨hdest, ?_⟩
    rw [← hsrc]
    refine Sys.mem_issued_src h (Sys.mem_issued_of_executing (r := r) h ?_)
    exact List.mem_flatMap.mpr ⟨_, hk, by simp [Frame.executing, Ctx.rpc]⟩
  · rw [split, Multiset.filter_add, Multiset.filter_add,
      Multiset.filter_eq_nil.mpr fun m hm => not_not_intro (transit m hm), add_zero]
  · intro r ctx rest k payload k' run cmd flag
    exact Sys.step_asyncSelf run cmd flag
  · intro r m k rest left stack cmd flag
    exact Sys.step_retSelf stack cmd flag

/-- Two ranks with room for one small call each: rank 0 calls itself and rank 1,
whose handler calls back. -/
def pingMain : Fin 2 → List (Act 2)
  | 0 => [.async 0 0 [], .async 1 4 [.async 0 4 []], .asyncFlushAll, .barrier]
  | 1 => [.asyncFlushAll, .async 0 8 [], .barrier]

/-- The state of a two-rank run that has stopped with the handler on rank 1 half done. -/
def pingState : Sys 2 (ℕ × List (Act 2)) Unit Unit (List (Act 2)) :=
  (scriptComm ⟨16, false⟩ pingMain).drive (fun _ _ => True)
    (scriptComm ⟨16, false⟩ pingMain).init
    (mains 0 15 ++ [.listen 1 0] ++ mains 1 14)

theorem pingState_reachable : (scriptComm ⟨16, false⟩ pingMain).Reachable pingState :=
  Machine.ReachableBy.init.drive _

/-- The delivery guarantee in `pingState`, where one call is executing. -/
theorem exactly_once_delivery_ping :
    (pingState.rank 1).executing.card = 1 ∧ ExactlyOnce ⟨16, false⟩ (script 2) pingState :=
  ⟨by decide +kernel, exactly_once_delivery pingState_reachable⟩

end YGM
