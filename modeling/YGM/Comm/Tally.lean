import YGM.Comm.Calm
import YGM.Comm.Statistics
import YGM.Comm.Termination

/-!
# Calls that count

The ranks of `tally` call each other, as often as they like, wait in `barrier`, and look at the
counters that the calls have incremented.  In every fair run all of them get to the end, and each
counter is then the number of calls for its rank (`tally_exact`): this is what `test_comm.cpp`
asserts.

Nothing is left to assume of the run but that it is fair.  `tally` has no reduction, so the rest
of its state is one of `comm` (`unreduced_of_reachable`); its handlers call nobody, so no
assertion fails; and a main program is about to make the calls it has not made, or has made all of
them and has come to its barrier (`Rank.Counts`).
-/

namespace YGM

open scoped BigOperators

variable {n : ℕ} {P σ V C τ : Type}

/-! ## Programs without reductions -/

section Unreduced

variable [NeZero n] {cfg : Config} {prog : Program n P σ V C} {ops : Reductions V τ}
variable {mem : Fin n → σ} {main : Fin n → C} {x : Joint n P σ V C τ}

/-- **A state of a run without reductions**: no rank is in one or has contributed to one, and
the rest is a state of `comm`. -/
structure Joint.Unreduced (cfg : Config) (prog : Program n P σ V C) (ops : Reductions V τ)
    (mem : Fin n → σ) (main : Fin n → C) (x : Joint n P σ V C τ) : Prop where
  sys : (comm cfg (ops.program prog) mem main).Reachable x.sys
  outside : ∀ r k, (x.sys.rank r).pc ≠ .reduce k
  posts : ∀ r, (x.sys.rank r).otherPosts = []
  stage : ∀ r, (x.tree.node r).stage.isThrown = false

theorem unreduced_of_reachable [Inhabited V]
    (none : ∀ k mem value k', prog.next k mem ≠ .allReduce value k')
    (h : (joint cfg prog ops mem main).Reachable x) : x.Unreduced cfg prog ops mem main := by
  refine h.invariant (I := Joint.Unreduced cfg prog ops mem main)
    ⟨.init, fun r k => by simp [joint, comm, Rank.init], fun _ => rfl, fun _ => rfl⟩ ?_
  intro x a y _ inv taken
  rcases Joint.step_cases taken with ⟨r, src, rfl, moved, tree, -⟩ |
    ⟨r, flag, rfl, -, moved, tree, -⟩ | ⟨r, flag, k, -, -, pc, -⟩
  · have same : ∀ i, (y.sys.rank i).pc = (x.sys.rank i).pc ∧
        (y.sys.rank i).otherPosts = (x.sys.rank i).otherPosts := by
      intro i
      rcases Sys.step_cases moved with ⟨_, _, _, _, h, -⟩ | ⟨j, _, t, stream, -, receive, next⟩
      · cases h
      · rw [next]
        obtain ⟨listener, queue, eq⟩ := receive.frame i
        simp [eq]
    refine ⟨inv.sys.step (a := .listen r src) moved, fun i k => ?_, fun i => ?_, fun i => ?_⟩
    · rw [(same i).1]
      exact inv.outside i k
    · rw [(same i).2]
      exact inv.posts i
    · rw [tree]
      exact inv.stage i
  · have same : ∀ i, (∀ k, (y.sys.rank i).pc ≠ .reduce k) ∧ (y.sys.rank i).otherPosts = [] := by
      intro i
      rcases Sys.step_cases moved with ⟨j, _, t, sent, -, move, next⟩ | ⟨_, _, _, _, h, -⟩
      · rw [next]
        by_cases hi : i = j
        · subst hi
          simp only [Function.update_self]
          rcases move.reductions fun k pc => absurd pc (inv.outside i k) with
            ⟨-, after, posts⟩ | ⟨value, k, -, -, cmd, -⟩ | ⟨value, k, pc, -⟩
          · exact ⟨after, by rw [posts, inv.posts i]⟩
          · exact absurd cmd (none _ _ value k)
          · exact absurd pc (inv.outside i k)
        · simpa [hi] using ⟨inv.outside i, inv.posts i⟩
      · cases h
    refine ⟨inv.sys.step (a := .main r flag) moved, fun i => (same i).1, fun i => (same i).2,
      fun i => ?_⟩
    rw [tree]
    by_cases hi : i = r
    · subst hi
      simp [Reduce.Node.begin, Reduce.Stage.isThrown]
    · simp only [Function.update_of_ne hi]
      exact inv.stage i
  · exact absurd pc (inv.outside r k)

/-- In a run without reductions, the main programs have entered nothing but barriers. -/
theorem Joint.Unreduced.history (unreduced : x.Unreduced cfg prog ops mem main)
    (recorded : x.Recorded ops) (r : Fin n) :
    x.history r = List.replicate (x.sys.rank r).entered .barrier := by
  have barriers : ∀ item ∈ x.history r, item = .barrier := by
    intro item known
    cases item with
    | barrier => rfl
    | allReduce op =>
        have posted : op ∈ (x.history r).filterMap Collective.op :=
          List.mem_filterMap.mpr ⟨_, known, rfl⟩
        simp [recorded.reductions r, unreduced.posts r] at posted
  refine List.eq_replicate_iff.mpr ⟨?_, barriers⟩
  rw [← recorded.barriers r, eq_comm, List.countP_eq_length]
  intro item known
  rw [barriers item known]
  rfl

end Unreduced

/-! ## The calls of a main program -/

/-- **The place of a main program of `tally`** that had the calls `dests` to make. -/
inductive Rank.Counts (dests : List (Fin n)) (s : Rank n P σ V (Tally n)) : Prop
  /-- The rank is making its calls, and has the calls to `rest` before it. -/
  | calls (rest : List (Fin n)) (code : s.code = .calls rest) (user : s.pc = .user)
      (epoch : s.epoch = 0) (early : ∀ m ∈ s.started, m.epoch = 0)
      (sent : s.started.map Rpc.dest + rest = dests)
  /-- The main program has made all its calls and has come to its barrier. -/
  | check (code : s.code = .check) (entered : s.entered = 1)
      (early : ∀ m ∈ s.started, m.epoch = 0) (sent : s.started.map Rpc.dest = dests)

section Moves

variable {cfg : Config} {dests : List (Fin n)} {r : Fin n}
variable {w : View n Unit} {s t : Rank n Unit ℕ Unit (Tally n)}
variable {sent : Option (Fin n × Packet n Unit)}

theorem Rank.Counts.started (h : s.Counts dests) :
    ∀ m ∈ s.started, m.epoch = 0 := by
  cases h <;> assumption

/-- When the main program of `tally` starts a call, it has come one call further in its list. -/
theorem Rank.Counts.async {dest : Fin n} {rest : List (Fin n)}
    (code : s.code = .calls (dest :: rest)) (h : s.Counts dests) (user : t.pc = .user) (goes : t.code = .calls rest)
    (epoch : t.epoch = s.epoch) {m : Rpc n Unit} (started : t.started = s.started + {m})
    (to_ : m.dest = dest) (now : m.epoch = s.epoch) : t.Counts dests := by
  cases h with
  | calls rest' code' user' epoch' early sent =>
      obtain rfl : rest' = dest :: rest := by simpa [code] using code'.symm
      refine .calls rest goes user (by rw [epoch, epoch']) ?_ ?_
      · rw [started]
        intro m' known
        rcases Multiset.mem_add.mp known with old | new
        · exact early m' old
        · rw [Multiset.mem_singleton.mp new, now, epoch']
      · rw [← sent, started, Multiset.map_add, Multiset.map_singleton, to_, add_assoc,
          Multiset.singleton_add, Multiset.cons_coe]
  | check code' => simp [code] at code'

/-- The next command of a main program of `tally` is its next call, its barrier, or its end. -/
theorem Rank.Counts.commands (h : s.Counts dests) :
    (∃ dest rest, s.code = .calls (dest :: rest) ∧
      (tally n).next s.code s.mem = .async dest () (.calls rest)) ∨
    (s.code = .calls [] ∧ (tally n).next s.code s.mem = .barrier .check) ∨
    s.code = .check ∧ (tally n).next s.code s.mem = .ret s.mem := by
  cases h with
  | calls rest code =>
      cases rest with
      | nil => exact .inr (.inl ⟨code, by rw [code]; rfl⟩)
      | cons dest rest => exact .inl ⟨dest, rest, code, by rw [code]; rfl⟩
  | check code => exact .inr (.inr ⟨code, by rw [code]; rfl⟩)

theorem Rank.Counts.of_async (h : s.Counts dests) {dest : Fin n} {payload : Unit} {k : Tally n}
    (cmd : (tally n).next s.code s.mem = .async dest payload k) :
    ∃ rest, s.code = .calls (dest :: rest) ∧ k = .calls rest := by
  rcases h.commands with ⟨dest', rest, code, next⟩ | ⟨-, next⟩ | ⟨-, next⟩ <;>
    rw [next] at cmd <;> cases cmd
  exact ⟨rest, code, rfl⟩

/-- A main program of `tally` that is not in user code has come to its barrier, and stays at
that place as long as its code, its barriers and its calls do not change. -/
theorem Rank.Counts.goes (h : s.Counts dests) (inside : s.pc ≠ .user) (code : t.code = s.code)
    (entered : t.entered = s.entered) (started : t.started = s.started) : t.Counts dests := by
  cases h with
  | calls rest _ user => exact absurd user inside
  | check here one early sent =>
      exact .check (by rw [code, here]) (by rw [entered, one]) (by rwa [started])
        (by rwa [started])

/-- A move of an activation leaves the main program of `tally` at its place, since handlers
issue no calls. -/
theorem Move.counts_of_busy (move : Move cfg (tally n) r w s t sent)
    (handlers : ∀ ctx k, .user ctx k ∈ s.stack → k = .count) (busy : s.stack ≠ [])
    (h : s.Counts dests) : t.Counts dests := by
  have top := move.sameTop busy
  have started : t.started = s.started := by
    obtain ⟨new, started, -, calls⟩ := move.starts
    suffices none : new = [] by rw [started, none, Multiset.coe_nil, add_zero]
    refine List.eq_nil_iff_forall_not_mem.mpr fun m known => ?_
    obtain ⟨ctx, rest, k, k', run, cmd, -⟩ := calls m known
    cases run with
    | main _ idle => exact busy idle
    | handler stack =>
        obtain rfl := handlers _ k (by rw [stack]; exact List.mem_cons_self)
        simp [tally] at cmd
  cases h with
  | calls rest code user epoch early sent =>
      exact .calls rest (by rw [top.code, code]) (by rw [top.pc, user]) (by rw [top.epoch, epoch])
        (by rwa [started]) (by rwa [started])
  | check code entered early sent =>
      refine .check (by rw [top.code, code]) ?_ (by rwa [started]) (by rwa [started])
      rw [← entered, Rank.entered, Rank.entered, top.pc, top.epoch]

/-- A move of the main program of `tally` keeps the account of its calls, or brings it to its
barrier. -/
theorem Move.counts_of_idle (move : Move cfg (tally n) r w s t sent) (idle : s.stack = [])
    (outside : ∀ k, s.pc ≠ .reduce k) (h : s.Counts dests) : t.Counts dests := by
  cases move with
  | @asyncSelf ctx rest k k' payload m run cmd call =>
      cases run with
      | handler busy => simp [idle] at busy
      | main user =>
          have running : Running s none [] s.code := .main user idle
          obtain ⟨rest, code, rfl⟩ := h.of_async cmd
          refine h.async code user rfl rfl (running.started_self _ _) (by rw [call]) ?_
          rw [call]
          rfl
  | @asyncRemote ctx rest k k' dest payload m frames run cmd call remote path =>
      cases run with
      | handler busy => simp [idle] at busy
      | main user =>
          have running : Running s none [] s.code := .main user idle
          obtain ⟨rest, code, rfl⟩ := h.of_async cmd
          refine h.async code user rfl rfl (running.started_remote _ path _ _) (by rw [call]) ?_
          rw [call]
          rfl
  | @barrier k user _ cmd =>
      rcases h.commands with ⟨dest, more, code, next⟩ | ⟨code, next⟩ | ⟨-, next⟩ <;>
        rw [next] at cmd <;> cases cmd
      cases h with
      | calls rest code' _ epoch early sent =>
          obtain rfl : rest = [] := by simpa [code] using code'.symm
          refine .check rfl ?_ ?_ ?_
          · simp [Rank.entered, epoch, Pc.inBarrier]
          · simpa [Rank.started, Rank.handed, idle, Frame.handed] using early
          · simpa [Rank.started, Rank.handed, idle, Frame.handed] using sent
      | check code' => simp [code] at code'
  | @update ctx rest k k' mem run cmd =>
      cases run with
      | handler busy => simp [idle] at busy
      | main user =>
          rcases h.commands with ⟨dest, more, -, next⟩ | ⟨-, next⟩ | ⟨-, next⟩ <;>
            rw [next] at cmd <;> cases cmd
  | @callFlush ctx rest k k' frame run cmd =>
      cases run with
      | handler busy => simp [idle] at busy
      | main user =>
          rcases h.commands with ⟨dest, more, -, next⟩ | ⟨-, next⟩ | ⟨-, next⟩ <;>
            simp [next] at cmd
  | reduce _ _ cmd | kill _ _ cmd =>
      rcases h.commands with ⟨dest, more, -, next⟩ | ⟨-, next⟩ | ⟨-, next⟩ <;>
        rw [next] at cmd <;> cases cmd
  | reduced pc => exact absurd pc (outside _)
  | joined pc =>
      exact h.goes (by simp [pc]) rfl (by simp [Rank.entered, pc, Pc.inBarrier]) rfl
  | sample pc | confirm pc | leave pc | throw pc =>
      exact h.goes (by simp [pc]) rfl (by simp [Rank.entered, pc, Pc.inBarrier]) rfl
  | pending pc =>
      refine h.goes (by simp [pc]) rfl (by simp [Rank.entered, pc, Pc.inBarrier]) ?_
      simp [Rank.started, Rank.handed, idle, Frame.handed]
  | retry pc =>
      have inside : s.pc ≠ .user ∧ s.pc.inBarrier = true := by
        rcases pc with ⟨first, pc⟩ | ⟨first, second, pc⟩ <;> simp [pc, Pc.inBarrier]
      refine h.goes inside.1 rfl ?_ ?_
      · rw [Rank.entered, Rank.entered, inside.2]
        rfl
      · simp [Rank.started, Rank.handed, idle, Frame.handed]
  | _ => simp [*] at idle

end Moves

section Runs

variable {cfg : Config} {dests : Fin n → List (Fin n)} {c : Sys n Unit ℕ Unit (Tally n)}

theorem tally_unreduced (k : Tally n) (mem : ℕ) (value : Unit) (k' : Unit → Tally n) :
    (tally n).next k mem ≠ .allReduce value k' := by
  rcases k with (_ | ⟨dest, rest⟩) | _ | _ <;> simp [tally]

theorem counts_of_reachable
    (h : (comm cfg (tally n) (fun _ => 0) fun r => .calls (dests r)).Reachable c) (r : Fin n) :
    (c.rank r).Counts (dests r) := by
  refine h.invariant (I := fun c => ∀ r, (c.rank r).Counts (dests r)) ?_ ?_ r
  · intro r
    refine .calls (dests r) rfl rfl rfl ?_ ?_ <;> simp [comm, Rank.init, Rank.started, Rank.handed]
  · intro c a d before inv taken i
    rcases Sys.step_cases taken with
      ⟨r, flag, t, sent, -, move, rfl⟩ | ⟨r, src, t, stream, -, receive, rfl⟩
    · by_cases hi : i = r
      · subst hi
        simp only [Function.update_self]
        by_cases idle : (c.rank i).stack = []
        · refine move.counts_of_idle idle (fun k pc => ?_) (inv i)
          obtain ⟨-, value, -, cmd⟩ := (inTurn_of_reachable before).entered i k pc
          exact tally_unreduced _ _ value k cmd
        · have outlined := (tally_calm n).outline.of_reachable
            (fun _ _ serves => by cases serves) before
          exact move.counts_of_busy
            (fun ctx k known => (outlined i).1.stack ctx k known ctx.rpc rfl) idle (inv i)
      · simpa [hi] using inv i
    · obtain ⟨listener, queue, eq⟩ := receive.frame i
      simp only [eq]
      cases inv i with
      | calls rest code user epoch early sent => exact .calls rest code user epoch early sent
      | check code entered early sent => exact .check code entered early sent

/-- A main program of `tally` that is finished has left its barrier. -/
theorem tally_finished
    (h : (comm cfg (tally n) (fun _ => 0) fun r => .calls (dests r)).Reachable c) {r : Fin n}
    (finished : (c.rank r).Finished (tally n)) :
    (c.rank r).code = .check ∧ (c.rank r).epoch = 1 := by
  obtain ⟨-, user, mem, cmd⟩ := finished
  cases counts_of_reachable h r with
  | calls rest code =>
      rw [code] at cmd
      cases rest <;> cases cmd
  | check code entered => exact ⟨code, by simpa [Rank.entered, user, Pc.inBarrier] using entered⟩

/-- The counter of a rank is the number of calls that have been executed there. -/
theorem tally_memory
    (h : (comm cfg (tally n) (fun _ => 0) fun r => .calls (dests r)).Reachable c) (r : Fin n) :
    (c.rank r).mem = (c.rank r).executed.length := by
  have keeps : (tally_calm n).outline.Memory fun _ done counter => counter = done.length := by
    refine ⟨fun r done counter cause k mem' k' _ _ cmd => ?_,
      fun r done counter m k mem' e same known _ cmd _ _ => ?_⟩
    · rcases k with (_ | ⟨dest, rest⟩) | _ | _ <;> simp [tally] at cmd
    · obtain rfl : k = .count := known m rfl
      obtain rfl : counter + 1 = mem' := by simpa [tally] using cmd
      simp [same]
  exact Outline.memory keeps (fun _ _ serves => by cases serves) (fun _ => rfl) h r

/-- **Behind the barrier** the counter of a rank is the number of calls that all ranks together
had for it. -/
theorem tally_checked
    (h : (comm cfg (tally n) (fun _ => 0) fun r => .calls (dests r)).Reachable c)
    (checked : ∀ r, (c.rank r).code = .check ∧ (c.rank r).epoch = 1) (r : Fin n) :
    (c.rank r).mem = ∑ s, (dests s).count r := by
  have counts := counts_of_reachable h
  have made : ∀ s, (c.rank s).started.map Rpc.dest = dests s := by
    intro s
    cases counts s with
    | calls rest code => simp [(checked s).1] at code
    | check _ _ _ sent => exact sent
  -- what is pending would be of this epoch, and all calls are of the one before
  have finished : c.pending = 0 := by
    refine Multiset.eq_zero_of_forall_notMem fun m pending => ?_
    have late := Sys.epoch_le_of_pending h r pending
    have started : m ∈ ∑ s, (c.rank s).started := by
      rw [Sys.started_eq h]
      exact Multiset.mem_add.mpr (.inr pending)
    obtain ⟨s, -, known⟩ := Multiset.mem_sum.mp started
    have early := (counts s).started m known
    rw [(checked r).2] at late
    omega
  have executed : c.executed = ∑ s, (c.rank s).started := by
    rw [Sys.started_eq h, finished, add_zero]
  calc (c.rank r).mem
      = Multiset.card (c.rank r).done := by simp [tally_memory h r, Rank.done]
    _ = (c.executed.map Rpc.dest).count r := by
        rw [← Sys.executed_filter_dest h r, Multiset.count_map]
        simp only [eq_comm]
    _ = ∑ s, (((c.rank s).started.map Rpc.dest).count r) := by
        rw [executed, ← Multiset.coe_mapAddMonoidHom, map_sum, Multiset.count_sum']
    _ = ∑ s, (dests s).count r := by simp [made]

end Runs

/-! ## All runs -/

/-- The budget of `tally`: its handlers issue no calls and do nothing but count. -/
def tallyBudget (n : ℕ) : Budget (tally n) where
  inHandler code := code = .count
  work _ := 0
  weight _ := 1
  start _ _ := ⟨rfl, Nat.one_pos⟩
  next := by
    rintro code mem rfl
    trivial

def tallyPace (n : ℕ) : Pace (tally n) ℕ where
  left
    | .calls dests => dests.length
    | .check | .count => 0
  next := by
    rintro ((_ | ⟨dest, dests⟩) | _ | _) mem
    · trivial
    · exact Nat.lt_succ_self _
    · trivial
    · trivial

section Runs

variable [NeZero n] {cfg : Config} {ops : Reductions Unit τ} {dests : Fin n → List (Fin n)}
variable {x : Joint n Unit ℕ Unit (Tally n) τ}

-- a reduction has nothing to return, so `ops.program (tally n)` is `tally n`

/-- No assertion fails in any run of `tally` where the buffer capacity is at least eight. -/
theorem tally_unthrown (room : 8 ≤ cfg.bufferCapacity)
    (h : (joint cfg (tally n) ops (fun _ => 0) fun r => .calls (dests r)).Reachable x) :
    x.Unthrown cfg := by
  have unreduced := unreduced_of_reachable tally_unreduced h
  have unbroken := (Sys.agreed_of_reachable ((tally_calm n).reachableBy unreduced.sys)).1
  refine ⟨fun r => ⟨?_, unreduced.stage r⟩, fun _ _ _ _ => room⟩
  cases pc : (x.sys.rank r).pc with
  | thrown a b => exact absurd pc (unbroken r a b)
  | _ => rfl

/-- All main programs of `tally` follow the plan of one barrier. -/
theorem tally_follows
    (h : (joint cfg (tally n) ops (fun _ => 0) fun r => .calls (dests r)).Reachable x) :
    x.Follows (tally n) [.barrier] := by
  have unreduced := unreduced_of_reachable tally_unreduced h
  intro r
  rw [unreduced.history (recorded_of_reachable h) r]
  cases counts_of_reachable unreduced.sys r with
  | calls rest code user epoch =>
      have entered : (x.sys.rank r).entered = 0 := by simp [Rank.entered, user, epoch, Pc.inBarrier]
      rw [entered]
      refine ⟨List.nil_prefix, ?_⟩
      rintro ⟨-, -, mem, cmd⟩
      rw [code] at cmd
      cases rest <;> cases cmd
  | check code entered =>
      rw [entered]
      exact ⟨List.prefix_rfl, fun _ => rfl⟩

/-- **The counters are exact.**  In every fair run no assertion ever fails, all ranks come to the
end of their programs, and from then on the counter of each is the number of calls that all ranks
had for it, whatever the interleaving, the size of the send buffers and the way MPI sends.  The
counter is a natural number here, where the test has a `size_t`. -/
theorem tally_exact (room : 8 ≤ cfg.bufferCapacity)
    {ρ : (joint cfg (tally n) ops (fun _ => 0) fun r => .calls (dests r)).Run}
    (fair : Fair Joint.sys ρ) :
    (∀ j, (ρ.state j).Unthrown cfg) ∧
      ∃ i, ∀ j ≥ i, ∀ r, ((ρ.state j).sys.rank r).Finished (tally n) ∧
        ((ρ.state j).sys.rank r).mem = ∑ s, (dests s).count r := by
  have alive : ∀ k mem k', (tally n).next k mem ≠ .kill k' := by
    rintro ((_ | ⟨dest, rest⟩) | _ | _) mem k' <;> simp [tally]
  have plain := (tallyBudget n).plain alive
  have orderly : Orderly ρ [.barrier] :=
    ⟨fun i a label y taken => tally_unthrown room ((ρ.reachable i).step taken),
      fun i => tally_follows (ρ.reachable i)⟩
  obtain ⟨i, settled⟩ := exists_settled (tallyPace n) plain orderly
  obtain ⟨k, ended⟩ := settled.exists_finished orderly fair (tallyBudget n) plain room
  refine ⟨orderly.unthrown, k, fun j later => ?_⟩
  have finished := fun r => orderly.finished (ended r) later
  have reached := (unreduced_of_reachable tally_unreduced (ρ.reachable j)).sys
  have checked := fun r => tally_finished reached (finished r)
  exact fun r => ⟨finished r, tally_checked reached checked r⟩

end Runs

/-! ## A run -/

/-- The reductions of a program that makes none. -/
def unused : Reductions Unit Unit where
  op _ := ()
  merge _ _ _ := ()
  pack _ _ := []
  unpack _ _ := ()
  op_merge _ _ _ := rfl
  unpack_pack _ := rfl

/-- The run in which both ranks call each other and themselves, and every call to another rank
is a large message. -/
def tallyRun : (joint ⟨8, true⟩ (tally 2) unused (fun _ => 0) fun _ => .calls [0, 1]).Run :=
  Machine.play _ (List.replicate 60 [.main 0 true, .main 1 true, .listen 0 1, .listen 1 0]).flatten

theorem tally_exact_all : Fair Joint.sys tallyRun ∧
    (∀ j, (tallyRun.state j).Unthrown ⟨8, true⟩) ∧
      ∃ i, ∀ j ≥ i, ∀ r, ((tallyRun.state j).sys.rank r).Finished (tally 2) ∧
        ((tallyRun.state j).sys.rank r).mem = ∑ _ : Fin 2, [(0 : Fin 2), 1].count r := by
  have fair : Fair Joint.sys tallyRun := by
    refine fair_play Joint.sys fun a => ?_
    cases a with
    | main r flag =>
        revert r flag
        decide +kernel
    | listen r src =>
        revert r src
        decide +kernel
  exact ⟨fair, tally_exact (by decide) fair⟩

end YGM
