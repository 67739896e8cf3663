import YGM.Comm.Meeting

/-!
# The statistics

`local_bytes_sent` and `local_rpc_calls` are counters of one rank, and `global_bytes_sent` and
`global_rpc_calls` are their sums, added up by a reduction.  A rank counts the bytes of a remote
call when it packs it and the call itself where it has been executed, so at most times the
counters depend on who has come how far.

When `barrier` returns they do not.  A rank that leaves it has executed all remote calls for it
that were issued before the barrier and no others, and has packed all of its own
(`statistics_exact`); so ranks that read their counters there get numbers of the program, not of
the run, although they leave the barrier at different times.

Nobody calls `reset_bytes_sent_counter` or `reset_rpc_call_counter`.
-/

namespace YGM

open scoped BigOperators

variable {n : ℕ} {P σ V C : Type}
variable {cfg : Config} {prog : Program n P σ V C} {mem : Fin n → σ} {main : Fin n → C}

/-! ## The counters -/

/-- The number of bytes into which the remote calls among `calls` are packed. -/
def remoteBytes (prog : Program n P σ V C) (calls : Multiset (Rpc n P)) : ℤ :=
  ((calls.filter Rpc.Remote).map fun m => (prog.packedSize m.payload : ℤ)).sum

@[simp] theorem remoteBytes_add (calls calls' : Multiset (Rpc n P)) :
    remoteBytes prog (calls + calls') = remoteBytes prog calls + remoteBytes prog calls' := by
  simp [remoteBytes]

theorem remoteBytes_eq_zero {calls : Multiset (Rpc n P)} (none : calls.countP Rpc.Remote = 0) :
    remoteBytes prog calls = 0 := by
  rw [Multiset.countP_eq_card_filter, Multiset.card_eq_zero] at none
  simp [remoteBytes, none]

theorem remoteBytes_sum (calls : Fin n → Multiset (Rpc n P)) :
    remoteBytes prog (∑ r, calls r) = ∑ r, remoteBytes prog (calls r) :=
  map_sum (⟨⟨remoteBytes prog, rfl⟩, remoteBytes_add⟩ : Multiset (Rpc n P) →+ ℤ) calls
    Finset.univ

/-- **The statistics of a rank**: they count the bytes of the remote calls it has started, and
the calls it has received. -/
structure Rank.Tallied (prog : Program n P σ V C) (s : Rank n P σ V C) : Prop where
  bytes : s.localBytesSent = remoteBytes prog s.started
  calls : s.localRpcCalls = s.recvCount

theorem Move.tallied {r : Fin n} {w : View n V} {s t : Rank n P σ V C}
    {sent : Option (Fin n × Packet n P)} (move : Move cfg prog r w s t sent)
    (h : s.Tallied prog) : t.Tallied prog := by
  obtain ⟨new, started, count, -⟩ := move.starts
  -- a move that counts no remote call packs none
  have quiet : t.sendCount = s.sendCount → t.localBytesSent = s.localBytesSent →
      t.localBytesSent = remoteBytes prog t.started := by
    intro same bytes
    have none : (new : Multiset (Rpc n P)).countP Rpc.Remote = 0 := by
      rw [Multiset.coe_countP]
      omega
    rw [bytes, started, remoteBytes_add, remoteBytes_eq_zero none, h.bytes, add_zero]
  cases move with
  | @asyncRemote ctx rest k k' dest payload m frames run cmd call remote path =>
      refine ⟨?_, by simpa [Rank.call] using h.calls⟩
      have far : m.Remote := by
        subst call
        exact remote.symm
      have size : m.payload = payload := by rw [call]
      rw [run.started_remote k' path, remoteBytes_add, ← h.bytes]
      simp [Rank.call, remoteBytes, Multiset.filter_singleton, far, size]
  | retRemote stack cmd =>
      refine ⟨quiet rfl rfl, ?_⟩
      show _ + 1 = _ + 1
      rw [h.calls]
  | update run cmd | asyncSelf run cmd call | callFlush run cmd =>
      exact ⟨quiet (by simp [Rank.call]) (by simp [Rank.call]),
        by simpa [Rank.call] using h.calls⟩
  | _ => exact ⟨quiet rfl rfl, h.calls⟩

namespace Sys

theorem tallied_of_reachable {c : Sys n P σ V C} (h : (comm cfg prog mem main).Reachable c)
    (r : Fin n) : (c.rank r).Tallied prog := by
  refine h.invariant (I := fun c => ∀ r, (c.rank r).Tallied prog) ?_ ?_ r
  · intro r
    exact ⟨by simp [comm, Rank.init, remoteBytes, Rank.started, Rank.handed], rfl⟩
  · intro c a d _ inv taken i
    rcases Sys.step_cases taken with
      ⟨r, flag, t, sent, -, move, rfl⟩ | ⟨r, src, t, stream, -, receive, rfl⟩
    · by_cases hi : i = r
      · subst hi
        simpa using move.tallied (inv i)
      · simpa [hi] using inv i
    · obtain ⟨listener, queue, eq⟩ := receive.frame i
      simp only [eq]
      exact ⟨(inv i).bytes, (inv i).calls⟩

/-- **The calls that a rank has started** are of the epoch of the rank or of an earlier one. -/
theorem started_epoch_le {c : Sys n P σ V C} (h : (comm cfg prog mem main).Reachable c)
    (r : Fin n) : ∀ m ∈ (c.rank r).started, m.epoch ≤ (c.rank r).epoch := by
  refine h.invariant
    (I := fun c => ∀ r, ∀ m ∈ (c.rank r).started, m.epoch ≤ (c.rank r).epoch) ?_ ?_ r
  · simp [comm, Rank.init, Rank.started, Rank.handed]
  · intro c a d before inv taken i m hm
    rcases Sys.step_cases taken with
      ⟨r, flag, t, sent, -, move, rfl⟩ | ⟨r, src, t, stream, -, receive, rfl⟩
    · by_cases hi : i = r
      · subst hi
        obtain ⟨new, started, -, calls⟩ := move.starts
        simp only [Function.update_self] at hm ⊢
        refine le_trans ?_ move.epoch_le
        rw [started, Multiset.mem_add] at hm
        rcases hm with old | fresh
        · exact inv i m old
        · cases (calls m fresh).canStart with
          | main src cut epoch pc stack => exact epoch.le
          | handler src cut running epoch =>
              have current := (epochs_of_reachable before).current _ (executing_pending running)
              have here := epoch_eq_round before (not_second_of_executing before running)
              rw [epoch, current, here]
      · simpa [hi] using inv i m (by simpa [hi] using hm)
    · obtain ⟨listener, queue, eq⟩ := receive.frame i
      simp only [eq] at hm ⊢
      exact inv i m hm

/-- The calls issued in the system whose source is `r` are those that rank `r` has issued. -/
theorem issued_filter_src {c : Sys n P σ V C} (h : (comm cfg prog mem main).Reachable c)
    (r : Fin n) : c.issued.filter (fun m => m.src = r) = ((c.rank r).issued : Multiset _) := by
  have src : ∀ i, ∀ m ∈ (c.rank i).issued, m.src = i :=
    fun i => ((routed_of_reachable h).rank i).issued
  rw [issued, filter_sum, Finset.sum_eq_single r]
  · exact Multiset.filter_eq_self.mpr (src r)
  · intro i _ other
    exact Multiset.filter_eq_nil.mpr fun m hm here => other ((src i m hm).symm.trans here)
  · simp

/-- The calls executed in the system whose destination is `r` are those that rank `r` has
executed. -/
theorem executed_filter_dest {c : Sys n P σ V C} (h : (comm cfg prog mem main).Reachable c)
    (r : Fin n) : c.executed.filter (fun m => m.dest = r) = (c.rank r).done := by
  have dest : ∀ i, ∀ m ∈ (c.rank i).done, m.dest = i := by
    intro i m hm
    obtain ⟨x, hx, rfl⟩ := List.mem_map.mp (Multiset.mem_coe.mp hm)
    exact (((routed_of_reachable h).rank i).executed x hx).2
  rw [executed, filter_sum, Finset.sum_eq_single r]
  · exact Multiset.filter_eq_self.mpr (dest r)
  · intro i _ other
    exact Multiset.filter_eq_nil.mpr fun m hm here => other ((dest i m hm).symm.trans here)
  · simp

end Sys

/-! ## Behind a barrier -/

/-- **`barrier` has just returned** on rank `r`, and the main program of `r` is in epoch `e`. -/
structure Left (cfg : Config) (prog : Program n P σ V C) (mem : Fin n → σ) (main : Fin n → C)
    (r : Fin n) (d : Sys n P σ V C) (e : ℕ) : Prop where
  returns : ∃ c flag, (comm cfg prog mem main).Reachable c ∧
    (c.rank r).pc.waiting = some .second ∧ Sys.step cfg prog c (.main r flag) = some d
  user : (d.rank r).pc = .user
  epoch : (d.rank r).epoch = e

/-- **The counters of the ranks are exact** for the calls in `calls`: they count these calls and
no others. -/
structure Accounted (prog : Program n P σ V C) (calls : Multiset (Rpc n P))
    (s : Fin n → Rank n P σ V C) : Prop where
  /-- The counter `local_bytes_sent` is the number of bytes to which the rank has packed its
  remote calls. -/
  localBytesSent : ∀ r,
    (s r).localBytesSent = remoteBytes prog (calls.filter fun m => m.src = r)
  /-- The counter `local_rpc_calls` is the number of remote calls that the rank has executed. -/
  localRpcCalls : ∀ r,
    (s r).localRpcCalls = ((calls.filter fun m => m.dest = r).countP Rpc.Remote : ℕ)
  /-- The sum `global_bytes_sent` is the number of bytes of all remote calls. -/
  globalBytesSent : ∑ r, (s r).localBytesSent = remoteBytes prog calls
  /-- The sum `global_rpc_calls` is the number of all remote calls. -/
  globalRpcCalls : ∑ r, (s r).localRpcCalls = (calls.countP Rpc.Remote : ℕ)

/-- The sums of the counters follow from the counters of the ranks, as each call has one source
and one destination. -/
theorem Accounted.of_ranks {calls : Multiset (Rpc n P)} {s : Fin n → Rank n P σ V C}
    (bytes : ∀ r, (s r).localBytesSent = remoteBytes prog (calls.filter fun m => m.src = r))
    (rpcs : ∀ r,
      (s r).localRpcCalls = ((calls.filter fun m => m.dest = r).countP Rpc.Remote : ℕ)) :
    Accounted prog calls s := by
  refine ⟨bytes, rpcs, ?_, ?_⟩
  · rw [Finset.sum_congr rfl fun r _ => bytes r, ← remoteBytes_sum, sum_filter_eq Rpc.src calls]
  · rw [Finset.sum_congr rfl fun r _ => rpcs r, ← Nat.cast_sum]
    congr 1
    conv_rhs => rw [← sum_filter_eq Rpc.dest calls]
    rw [← Multiset.coe_countPAddMonoidHom, map_sum]

namespace Left

variable {d : Sys n P σ V C} {r : Fin n} {e : ℕ}

theorem reachable (left : Left cfg prog mem main r d e) : (comm cfg prog mem main).Reachable d := by
  obtain ⟨c, flag, h, -, taken⟩ := left.returns
  exact h.step (a := .main r flag) taken

/-- All calls that a rank has started or executed when it leaves a barrier are of the epochs
before. -/
theorem before (left : Left cfg prog mem main r d e) :
    (d.rank r).stack = [] ∧ (∀ m ∈ (d.rank r).started, m.epoch < e) ∧
      ∀ m ∈ (d.rank r).done, m.epoch < e := by
  obtain ⟨c, flag, h, inside, taken⟩ := left.returns
  obtain ⟨first, second, pc⟩ := Pc.waiting_second inside
  have idle := ((Sys.sampled_of_reachable h r).second first second pc).1
  have user := left.user
  have epoch := left.epoch
  rcases Sys.step_cases taken with
    ⟨i, flag', t, sent, action, move, rfl⟩ | ⟨i, src, t, stream, action, -⟩
  · cases action
    simp only [Function.update_self] at user epoch ⊢
    obtain rfl := move.returns inside idle user
    refine ⟨idle, fun m hm => ?_, fun m hm => ?_⟩
    · have own := Sys.started_epoch_le h r m hm
      simp only at epoch
      omega
    · obtain ⟨x, hx, rfl⟩ := List.mem_map.mp (Multiset.mem_coe.mp hm)
      obtain ⟨own, le⟩ := (Sys.epochs_of_reachable h).executed r x hx
      simp only at epoch
      omega
  · cases action

/-- When a rank leaves a barrier, no call of the epochs before is pending on any rank. -/
theorem quiescent (left : Left cfg prog mem main r d e) : Quiescent d e := by
  refine .of_pending left.reachable fun m hm => ?_
  rw [← left.epoch]
  exact Sys.epoch_le_of_pending left.reachable r hm

end Left

/-- **The statistics are exact behind a barrier.**  Let the ranks leave the barrier into epoch
`e`, rank `r` at `d r`, and let `x` be any state of the run after that.  Then the counters the
ranks have there are those of the calls of the epochs before `e`, whatever has been issued,
sent or executed since: each rank counts the bytes of its own remote calls and the remote calls
for it, and the global counters all bytes and all calls. -/
theorem statistics_exact {e : ℕ} {d : Fin n → Sys n P σ V C} {x : Sys n P σ V C}
    (left : ∀ r, Left cfg prog mem main r (d r) e)
    (leads : ∀ r, (comm cfg prog mem main).Leads (d r) x) :
    Accounted prog (x.issued.filter fun m => m.epoch < e) fun r => (d r).rank r := by
  have settled : ∀ r, x.issued.filter (fun m => m.epoch < e)
      = (d r).issued.filter (fun m => m.epoch < e) := by
    intro r
    refine Sys.issued_before (left r).reachable ?_ (leads r)
    rw [← (left r).epoch]
    exact Sys.epoch_le_round (left r).reachable r
  refine .of_ranks (fun r => ?_) fun r => ?_
  · obtain ⟨idle, own, -⟩ := (left r).before
    have all : (((d r).rank r).issued : Multiset _) = ((d r).rank r).started := by
      simp [Rank.started, Rank.handed, idle]
    rw [(Sys.tallied_of_reachable (left r).reachable r).bytes, settled r, Multiset.filter_comm,
      Sys.issued_filter_src (left r).reachable r, all, Multiset.filter_eq_self.mpr own]
  · obtain ⟨-, -, own⟩ := (left r).before
    rw [(Sys.tallied_of_reachable (left r).reachable r).calls,
      (Sys.counted_of_reachable (left r).reachable r).recv, settled r, (left r).quiescent.once,
      Multiset.filter_comm, Sys.executed_filter_dest (left r).reachable r,
      Multiset.filter_eq_self.mpr own]

theorem Left.of_step {c : Sys n P σ V C} {r : Fin n} {e : ℕ}
    (h : (comm cfg prog mem main).Reachable c)
    (run : ((Sys.step cfg prog c (.main r true)).map fun d =>
      ((d.rank r).pc.isUser, (d.rank r).epoch)) = some (true, e))
    (inside : (c.rank r).pc.waiting = some .second) :
    Left cfg prog mem main r ((Sys.step cfg prog c (.main r true)).getD c) e ∧
      (comm cfg prog mem main).Leads c ((Sys.step cfg prog c (.main r true)).getD c) := by
  obtain ⟨d, taken, facts⟩ := Option.map_eq_some_iff.mp run
  obtain ⟨user, epoch⟩ := Prod.mk.inj facts
  rw [taken, Option.getD_some]
  exact ⟨⟨⟨c, true, h, inside, taken⟩, Pc.eq_user user, epoch⟩,
    .single ⟨.main r true, taken⟩⟩

/-- The state of the run of `pingMain` in which rank 1 has just left its barrier. -/
def pingFirst : Sys 2 (ℕ × List (Act 2)) Unit Unit (List (Act 2)) :=
  (Sys.step ⟨16, false⟩ (script 2) pingLeaving (.main 1 true)).getD pingLeaving

/-- The state of the run of `pingMain` in which rank 0, after rank 1, has just left its barrier. -/
def pingSecond : Sys 2 (ℕ × List (Act 2)) Unit Unit (List (Act 2)) :=
  (Sys.step ⟨16, false⟩ (script 2) pingFirst (.main 0 true)).getD pingFirst

/-- The states of the run of `pingMain` in which the two ranks leave their barrier, by rank. -/
def pingLeft : Fin 2 → Sys 2 (ℕ × List (Act 2)) Unit Unit (List (Act 2))
  | 0 => pingSecond
  | 1 => pingFirst

/-- Of the four calls of `pingMain` two are remote calls for rank 0 and one is for rank 1. -/
theorem statistics_exact_ping :
    Accounted (script 2) (pingSecond.issued.filter fun m => m.epoch < 1)
        (fun r => (pingLeft r).rank r) ∧
      (pingSecond.rank 0).localRpcCalls = 2 ∧ (pingFirst.rank 1).localRpcCalls = 1 := by
  have reached : (scriptComm ⟨16, false⟩ pingMain).Reachable pingLeaving :=
    Machine.ReachableBy.init.drive _
  obtain ⟨first, -⟩ :
      Left ⟨16, false⟩ (script 2) (fun _ => ()) pingMain 1 pingFirst 1 ∧ _ :=
    Left.of_step reached (by decide +kernel) (by decide +kernel)
  obtain ⟨second, last⟩ :
      Left ⟨16, false⟩ (script 2) (fun _ => ()) pingMain 0 pingSecond 1 ∧
        (scriptComm ⟨16, false⟩ pingMain).Leads pingFirst pingSecond :=
    Left.of_step first.reachable (by decide +kernel) (by decide +kernel)
  have left : ∀ r, Left ⟨16, false⟩ (script 2) (fun _ => ()) pingMain r (pingLeft r) 1 :=
    Fin.forall_fin_two.mpr ⟨second, first⟩
  have leads : ∀ r, (scriptComm ⟨16, false⟩ pingMain).Leads (pingLeft r) pingSecond :=
    Fin.forall_fin_two.mpr ⟨.refl, last⟩
  exact ⟨statistics_exact left leads, by decide +kernel, by decide +kernel⟩

end YGM
