import YGM.Comm.Delivery

/-!
# Quiescence at `barrier`

A rank in `barrier` is a party of the double check of `YGM.Library.DoubleCheck`
(`Move.party`), so all ranks are in step on `m_comm_barrier`
(`Sys.aligned_of_reachable`).  A rank that has taken its second sample stands still
until the reduction completes (`Rank.Sampled`), so when the last rank takes its
second sample the samples are the counters of one state: their sum is the number of
remote calls pending in that state, and a zero sum says that nothing is pending at
all.

From then on the calls issued by the code of an earlier epoch are finished, on every
rank and in every continuation, although the ranks leave the barrier at different
times: every pending call belongs to the current round (`Epochs.current`).  A rank
leaves a barrier only into the current round, which is the quiescence the barrier
promises (`barrier_quiescence`).
-/

namespace YGM

open scoped BigOperators

variable {n : ℕ} {P σ V C : Type}
variable {cfg : Config} {prog : Program n P σ V C} {mem : Fin n → σ} {main : Fin n → C}

/-! ## A rank as a party -/

/-- The reduction on `m_comm_barrier` for which a rank is waiting.  A rank whose `barrier` has
thrown never gets past its second reduction. -/
def Pc.waiting : Pc V C → Option Kind
  | .test _ => some .first
  | .second _ _ | .thrown _ _ => some .second
  | _ => none

/-- The main program is running user code and is not in a collective call. -/
def Pc.isUser : Pc V C → Bool
  | .user => true
  | _ => false

/-- The main program is inside `barrier`, also if `barrier` has thrown. -/
def Pc.inBarrier : Pc V C → Bool
  | .sample | .test _ | .second .. | .thrown .. => true
  | _ => false

theorem Pc.eq_user {pc : Pc V C} (h : pc.isUser = true) : pc = .user := by
  cases pc <;> first | rfl | cases h

theorem Pc.waiting_second {pc : Pc V C} (h : pc.waiting = some .second) :
    ∃ a b, pc = .second a b ∨ pc = .thrown a b := by
  cases pc with
  | second a b => exact ⟨a, b, .inl rfl⟩
  | thrown a b => exact ⟨a, b, .inr rfl⟩
  | _ => simp [Pc.waiting] at h

/-- **A rank as a party of the double check**: its posts on `m_comm_barrier`, the kind of
reduction it is waiting for, and its epoch as the number of rounds. -/
def Rank.party (s : Rank n P σ V C) : Party ℤ where
  posts := s.barrierPosts
  waiting := s.pc.waiting
  rounds := s.epoch

@[simp] theorem Rank.party_posts (s : Rank n P σ V C) : s.party.posts = s.barrierPosts :=
  rfl

@[simp] theorem Rank.party_waiting (s : Rank n P σ V C) :
    s.party.waiting = s.pc.waiting :=
  rfl

@[simp] theorem Rank.party_rounds (s : Rank n P σ V C) : s.party.rounds = s.epoch :=
  rfl

/-- **A move is a step of the party**: whatever the main thread does is a post, the sight of a
result, or nothing to the double check. -/
theorem Move.party {r : Fin n} {w : View n V} {s t : Rank n P σ V C}
    {sent : Option (Fin n × Packet n P)} (move : Move cfg prog r w s t sent) :
    s.party.Step w.allCount t.party := by
  cases move with
  | sample pc stack =>
      have free : s.party.waiting = none := by simp [pc, Pc.waiting]
      exact .sample _ free
  | confirm pc stack zero =>
      have waits : s.party.waiting = some .first := by simp [pc, Pc.waiting]
      exact .confirm _ waits zero
  | retry pc stack seen nonzero =>
      have waits : s.party.waiting ≠ none := by
        rcases pc with ⟨first, pc⟩ | ⟨first, second, pc⟩ <;> simp [pc, Pc.waiting]
      exact .retry waits seen nonzero
  | leave pc stack zero agree =>
      have waits : s.party.waiting = some .second := by simp [pc, Pc.waiting]
      exact .close waits zero
  | @update ctx rest k k' mem run cmd =>
      have same : (({ s with mem := mem }).resume ctx rest k').party = s.party := by
        cases ctx <;> rfl
      rw [same]
      exact .stay
  | @asyncSelf ctx rest k k' payload m run cmd call =>
      have same : ((({ s with issued := s.issued ++ [m] }).resume ctx rest k').call
          [.user (.self m) (prog.handler r payload), .peek]).party = s.party := by
        cases ctx <;> rfl
      rw [same]
      exact .stay
  | @asyncRemote ctx rest k k' dest payload m frames run cmd call remote path =>
      have same : ((({ s with
          sendCount := s.sendCount + 1
          localBytesSent := s.localBytesSent + prog.packedSize payload }).resume
            ctx rest k').call frames).party = s.party := by
        cases ctx <;> rfl
      rw [same]
      exact .stay
  | @callFlush ctx rest k k' frame run cmd =>
      have same : ((s.resume ctx rest k').call [frame]).party = s.party := by
        cases ctx <;> rfl
      rw [same]
      exact .stay
  | barrier pc stack cmd | reduce pc stack cmd | reduced pc stack cmd
  | kill pc stack cmd | joined pc stack cmd | pending pc stack
  | throw pc stack zero differ =>
      have same : s.party = { s.party with waiting := s.pc.waiting } := rfl
      rw [pc] at same
      rw [same]
      exact .stay
  | _ => exact .stay

/-- The epoch of a rank never decreases in a move. -/
theorem Move.epoch_le {r : Fin n} {w : View n V} {s t : Rank n P σ V C}
    {sent : Option (Fin n × Packet n P)} (move : Move cfg prog r w s t sent) :
    s.epoch ≤ t.epoch := by
  have step := move.party
  rw [← Rank.party_rounds s, ← Rank.party_rounds t]
  generalize s.party = p, t.party = q at step
  cases step <;> simp

theorem Receive.party {r src : Fin n} {s t : Rank n P σ V C}
    {stream stream' : List (Packet n P)}
    (receive : Receive cfg prog r src s stream t stream') : t.party = s.party := by
  rw [receive.quiet]
  rfl

/-! ## Samples -/

/-- **The samples that `barrier` remembers.** The first sample is the last value posted until
the second is; after the second the rank stands still. -/
structure Rank.Sampled (s : Rank n P σ V C) : Prop where
  first : ∀ a, s.pc = .test a → ∃ before, s.barrierPosts = before ++ [(.first, a)]
  second : ∀ a b, s.pc = .second a b ∨ s.pc = .thrown a b →
    s.stack = [] ∧ b = s.localCount ∧
      ∃ before, s.barrierPosts = before ++ [(.first, a), (.second, b)]

/-- A rank that has an activation on its stack is not waiting for its second reduction. -/
theorem Rank.Sampled.not_second {s : Rank n P σ V C} (h : s.Sampled)
    (busy : s.stack ≠ []) : s.pc.waiting ≠ some .second := by
  intro waits
  obtain ⟨a, b, pc⟩ := Pc.waiting_second waits
  exact busy (h.second a b pc).1

theorem Running.not_second {s : Rank n P σ V C} {ctx : Option (Ctx n P)}
    {rest : List (Frame n P C)} {k : C} (run : Running s ctx rest k) (h : s.Sampled)
    {a b : ℤ} : ¬ (s.pc = .second a b ∨ s.pc = .thrown a b) := by
  intro pc
  cases run with
  | main user stack => simp [user] at pc
  | handler stack => simp [(h.second a b pc).1] at stack

theorem Running.sampled {s t : Rank n P σ V C} {ctx : Option (Ctx n P)}
    {rest : List (Frame n P C)} {k : C} (run : Running s ctx rest k) (h : s.Sampled)
    (pc : t.pc = s.pc) (posts : t.barrierPosts = s.barrierPosts) : t.Sampled := by
  refine ⟨fun a ha => ?_, fun a b hab => ?_⟩
  · rw [posts]
    exact h.first a (pc ▸ ha)
  · rw [pc] at hab
    exact absurd hab (run.not_second h)

theorem Move.sampled {r : Fin n} {w : View n V} {s t : Rank n P σ V C}
    {sent : Option (Fin n × Packet n P)} (move : Move cfg prog r w s t sent)
    (h : s.Sampled) : t.Sampled := by
  cases move with
  | update run cmd => exact run.sampled h (by simp) (by simp)
  | asyncSelf run cmd call => exact run.sampled h (by simp [Rank.call]) (by simp [Rank.call])
  | asyncRemote run cmd call remote path =>
      exact run.sampled h (by simp [Rank.call]) (by simp [Rank.call])
  | callFlush run cmd => exact run.sampled h (by simp [Rank.call]) (by simp [Rank.call])
  | sample pc stack =>
      refine ⟨fun a pc' => ?_, by simp⟩
      cases pc'
      exact ⟨_, rfl⟩
  | confirm pc stack zero =>
      refine ⟨by simp, fun a b pc' => ?_⟩
      rcases pc' with pc' | pc'
      · cases pc'
        obtain ⟨before, posts⟩ := h.first _ pc
        exact ⟨stack, rfl, before, by simp [posts]⟩
      · cases pc'
  | throw pc stack zero differ =>
      refine ⟨by simp, fun a b pc' => ?_⟩
      rcases pc' with pc' | pc'
      · cases pc'
      · cases pc'
        exact h.second _ _ (.inl pc)
  | pending pc stack =>
      refine ⟨fun a pc' => ?_, by simp⟩
      cases pc'
      exact h.first _ pc
  | barrier | reduce | reduced | kill | joined | retry | leave =>
      exact ⟨by simp, by simp⟩
  | _ =>
      -- an activation moves, so the rank is not waiting for its second reduction
      exact ⟨fun a pc => h.first a pc, fun a b pc => absurd (h.second a b pc).1 (by simp [*])⟩

/-! ## The ranks in step -/

namespace Sys

/-- The ranks of the system as the parties of the double check. -/
def party (c : Sys n P σ V C) (r : Fin n) : Party ℤ :=
  (c.rank r).party

/-- The number of rounds of `barrier` that are complete, so the epoch of the ranks that have
left the last of them. -/
noncomputable def round (c : Sys n P σ V C) : ℕ :=
  currentRound fun r => (c.party r).posts

theorem party_update (c : Sys n P σ V C) (r : Fin n) (t : Rank n P σ V C)
    (net : Fin n → Fin n → List (Packet n P)) :
    (⟨Function.update c.rank r t, net⟩ : Sys n P σ V C).party
      = Function.update c.party r t.party :=
  Function.comp_update Rank.party c.rank r t

theorem party_receive (c : Sys n P σ V C) {r src : Fin n} {t : Rank n P σ V C}
    {stream : List (Packet n P)} (net : Fin n → Fin n → List (Packet n P))
    (receive : Receive cfg prog r src (c.rank r) (c.net src r) t stream) :
    (⟨Function.update c.rank r t, net⟩ : Sys n P σ V C).party = c.party := by
  rw [party_update, receive.party]
  exact Function.update_eq_self r c.party

theorem sampled_of_reachable {c : Sys n P σ V C}
    (h : (comm cfg prog mem main).Reachable c) (r : Fin n) : (c.rank r).Sampled := by
  refine h.invariant (I := fun c => ∀ r, (c.rank r).Sampled) ?_ ?_ r
  · intro r
    exact ⟨by simp [comm, Rank.init], by simp [comm, Rank.init]⟩
  · intro c a d _ inv taken i
    rcases Sys.step_cases taken with
      ⟨r, flag, t, sent, -, move, rfl⟩ | ⟨r, src, t, stream, -, receive, rfl⟩
    · by_cases hi : i = r
      · subst hi
        simpa using move.sampled (inv i)
      · simpa [hi] using inv i
    · obtain ⟨listener, queue, eq⟩ := receive.frame i
      simp only [eq]
      exact ⟨(inv i).first, (inv i).second⟩

/-- **The ranks run the double check in step**: in every reachable state they are aligned
parties. -/
theorem aligned_of_reachable {c : Sys n P σ V C}
    (h : (comm cfg prog mem main).Reachable c) : Aligned c.party := by
  refine h.invariant (I := fun c => Aligned c.party) ?_ ?_
  · exact ⟨by simp [party, comm, Rank.init, Party.handled],
      by simp [party, comm, Rank.init], by simp [party, comm, Rank.init, Pc.waiting],
      by simp [party, comm, Rank.init, Party.handled, closed],
      by simp [party, comm, Rank.init, kindAt]⟩
  · intro c a d _ inv taken
    rcases Sys.step_cases taken with
      ⟨r, flag, t, sent, -, move, rfl⟩ | ⟨r, src, t, stream, -, receive, rfl⟩
    · rw [party_update]
      exact inv.step move.party
    · rwa [party_receive c _ receive]

/-- A rank that is not waiting for a second sum is in the current round: its epoch is the number
of complete rounds. -/
theorem epoch_eq_round {c : Sys n P σ V C} (h : (comm cfg prog mem main).Reachable c)
    {r : Fin n} (free : (c.rank r).pc.waiting ≠ some .second) :
    (c.rank r).epoch = c.round :=
  (aligned_of_reachable h).rounds_eq (i := r) free

theorem epoch_le_round {c : Sys n P σ V C} (h : (comm cfg prog mem main).Reachable c)
    (r : Fin n) : (c.rank r).epoch ≤ c.round :=
  (aligned_of_reachable h).rounds_le r

theorem not_second_of_executing {c : Sys n P σ V C}
    (h : (comm cfg prog mem main).Reachable c) {r : Fin n} {m : Rpc n P}
    (running : m ∈ (c.rank r).executing) :
    (c.rank r).pc.waiting ≠ some .second := by
  refine (sampled_of_reachable h r).not_second ?_
  intro stack
  simp [Rank.executing, stack] at running

/-! ## Pending calls -/

/-- The calls started by any rank and not finished, wherever they are. -/
def pending (c : Sys n P σ V C) : Multiset (Rpc n P) :=
  c.unfinished + c.handed

theorem executing_pending {c : Sys n P σ V C} {r : Fin n} {m : Rpc n P}
    (running : m ∈ (c.rank r).executing) : m ∈ c.pending := by
  have : m ∈ c.executing := Multiset.mem_sum.mpr ⟨r, Finset.mem_univ r, running⟩
  simp [pending, unfinished, this]

theorem unparsed_pending {c : Sys n P σ V C} {r : Fin n} {m : Rpc n P}
    (received : m ∈ (c.rank r).unparsed) : m ∈ c.pending := by
  have : m ∈ c.unparsed := Multiset.mem_sum.mpr ⟨r, Finset.mem_univ r, received⟩
  simp [pending, unfinished, this]

/-- **All calls started are either executed or pending**, and none is both. -/
theorem started_eq {c : Sys n P σ V C} (h : (comm cfg prog mem main).Reachable c) :
    ∑ r, (c.rank r).started = c.executed + c.pending := by
  have total : ∑ r, (c.rank r).started = c.issued + c.handed := by
    simp only [issued, handed, Rank.started, Finset.sum_add_distrib]
  rw [total, conservation h, pending, add_assoc]

/-- **A call that is pending after a step** was pending before the step or is started by it. -/
theorem pending_step {c d : Sys n P σ V C} {a : Action n}
    (before : (comm cfg prog mem main).Reachable c)
    (taken : Sys.step cfg prog c a = some d) {m : Rpc n P} (hm : m ∈ d.pending) :
    m ∈ c.pending ∨ ∃ r, CanStart r (c.rank r) m := by
  have old := started_eq before
  have new := started_eq (before.step taken)
  rcases Sys.step_cases taken with
    ⟨r, flag, t, sent, -, move, rfl⟩ | ⟨r, src, t, stream, -, receive, rfl⟩
  · obtain ⟨starts, hstarts, -, can⟩ := move.starts
    obtain ⟨finished, hfinished, -, -⟩ := move.finishes ((routed_of_reachable before).rank r)
    have hdone : t.done = (c.rank r).done + (finished.map Exec.rpc : List (Rpc n P)) := by
      simp [Rank.done, hfinished]
    have startedSum := sum_update_add (fun s : Rank n P σ V C => s.started) c.rank r t
    have doneSum := sum_update_add (fun s : Rank n P σ V C => s.done) c.rank r t
    by_cases hnew : m ∈ starts
    · exact .inr ⟨r, (can m hnew).canStart⟩
    · left
      classical
      rw [hstarts] at startedSum
      rw [hdone] at doneSum
      simp only [executed] at old new
      replace old := congrArg (Multiset.count m) old
      replace new := congrArg (Multiset.count m) new
      replace startedSum := congrArg (Multiset.count m) startedSum
      replace doneSum := congrArg (Multiset.count m) doneSum
      have none := Multiset.count_eq_zero_of_notMem (s := (starts : Multiset (Rpc n P))) hnew
      rw [← Multiset.count_pos] at hm ⊢
      simp only [Multiset.count_add] at old new startedSum doneSum
      omega
  · left
    have sameStarted : t.started = (c.rank r).started := by
      rw [receive.quiet]
      rfl
    have sameDone : t.done = (c.rank r).done := by
      rw [receive.quiet]
      rfl
    simp only [executed] at old new
    rw [sum_update_eq (fun s : Rank n P σ V C => s.started) c.rank r sameStarted,
      sum_update_eq (fun s : Rank n P σ V C => s.done) c.rank r sameDone, old] at new
    rwa [add_left_cancel new]

/-- **No call is pending** when all main threads have an empty stack and the counters of all
ranks add up to zero. -/
theorem pending_eq_zero {c : Sys n P σ V C} (h : (comm cfg prog mem main).Reachable c)
    (still : ∀ r, (c.rank r).stack = []) (zero : ∑ r, (c.rank r).localCount = 0) :
    c.pending = 0 := by
  have executing : c.executing = 0 := by simp [Sys.executing, Rank.executing, still]
  have handed : c.handed = 0 := by simp [Sys.handed, Rank.handed, still]
  have remote : ∀ m ∈ c.pending, m.Remote := by
    intro m hm
    refine remote_of_in_transit h m ?_
    simpa [pending, unfinished, executing, handed] using hm
  rw [sum_localCount h, Nat.cast_eq_zero] at zero
  refine Multiset.eq_zero_of_forall_notMem fun m hm => ?_
  exact Multiset.countP_eq_zero.mp zero m hm (remote m hm)

/-! ## Rounds and epochs -/

/-- **Calls and rounds.**  Every pending call belongs to the current round, and a call
is executed in the epoch it belongs to. -/
structure Epochs (c : Sys n P σ V C) : Prop where
  current : ∀ m ∈ c.pending, m.epoch = c.round
  executed : ∀ r, ∀ e ∈ (c.rank r).executed,
    e.epoch = e.rpc.epoch ∧ e.epoch ≤ (c.rank r).epoch

/-- **Every rank stands at the end of one round**: both samples are taken and posted,
and both sums are zero. -/
structure Unanimous (c : Sys n P σ V C) (first second : Fin n → ℤ) : Prop where
  pc : ∀ r, (c.rank r).pc = .second (first r) (second r) ∨
    (c.rank r).pc = .thrown (first r) (second r)
  firstSum : ∑ r, first r = 0
  secondSum : ∑ r, second r = 0
  cuts : ∀ r i, (c.rank r).cuts = (c.rank i).cuts

/-- Ranks that all wait for one second sum of zero have seen one first sum before it, which is
zero as well, and have sampled equally often. -/
theorem Unanimous.of_waiting {c : Sys n P σ V C}
    (h : (comm cfg prog mem main).Reachable c) {value : Fin n → ℤ}
    (zero : ∑ r, value r = 0)
    (all : ∀ r, (c.party r).waiting = some .second ∧
      (c.party r).posts.getLast? = some (.second, value r) ∧
      (c.party r).posts.length = depth fun r => (c.party r).posts) :
    ∃ first, c.Unanimous first value := by
  have aligned := aligned_of_reachable h
  have taken : ∀ r, ∃ a, ((c.rank r).pc = .second a (value r) ∨
      (c.rank r).pc = .thrown a (value r)) ∧
      ∃ before, (c.rank r).barrierPosts = before ++ [(.first, a), (.second, value r)] := by
    intro r
    obtain ⟨waits, last, -⟩ := all r
    obtain ⟨a, b, pc⟩ := Pc.waiting_second waits
    obtain ⟨-, -, before, posts⟩ := (sampled_of_reachable h r).second a b pc
    change (c.rank r).barrierPosts.getLast? = _ at last
    rw [posts] at last
    simp only [List.getLast?_append, List.getLast?_cons_cons, List.getLast?_singleton,
      Option.some_or, Option.some.injEq, Prod.mk.injEq, true_and] at last
    subst last
    exact ⟨a, pc, before, posts⟩
  choose first pc before posts using taken
  refine ⟨first, pc, ?_, zero, fun r i => ?_⟩
  · rcases isEmpty_or_nonempty (Fin n) with empty | ⟨⟨r⟩⟩
    · exact Finset.sum_of_isEmpty _
    -- the collective before the last one is the first sum of this round
    have confirmed : kindAt (fun r => (c.party r).posts) ((before r).length + 1) = .second := by
      rw [← aligned.kindAt_handled (all r).1]
      have length := aligned.length_of_waiting (i := r) (by simp [(all r).1])
      change (c.rank r).barrierPosts.length = _ at length
      rw [posts r] at length
      simp only [List.length_append, List.length_cons, List.length_nil] at length
      exact congrArg _ (by omega)
    rw [← total_of_kindAt_second confirmed]
    refine Finset.sum_congr rfl fun i _ => ?_
    have same : (before r).length = (before i).length := by
      have hr := (all r).2.2
      have hi := (all i).2.2
      change (c.rank r).barrierPosts.length = _ at hr
      change (c.rank i).barrierPosts.length = _ at hi
      rw [posts r] at hr
      rw [posts i] at hi
      simp only [List.length_append, List.length_cons, List.length_nil] at hr hi
      omega
    change first i = (((c.rank i).barrierPosts[(before r).length]?).map Prod.snd).getD 0
    rw [posts i, same]
    simp
  · have count : ∀ r, (c.rank r).cuts
        = ((c.party r).posts.map Prod.fst).countP fun kind => decide (kind = .first) := by
      intro r
      rw [List.countP_map]
      rfl
    rw [count, count, aligned.kinds, aligned.kinds, (all r).2.2, (all i).2.2]

/-- At the end of a round no call is pending on any rank. -/
theorem Unanimous.pending_eq_zero {c : Sys n P σ V C} {first second : Fin n → ℤ}
    (u : c.Unanimous first second) (h : (comm cfg prog mem main).Reachable c) :
    c.pending = 0 := by
  have still := fun r => (sampled_of_reachable h r).second _ _ (u.pc r)
  refine Sys.pending_eq_zero h (fun r => (still r).1) ?_
  rw [← u.secondSum]
  exact Finset.sum_congr rfl fun r _ => (still r).2.1.symm

/-- **A step that completes a round** is the last second sample of that round; every other step
leaves the number of rounds as it is. -/
theorem round_step {c d : Sys n P σ V C} {a : Action n}
    (before : (comm cfg prog mem main).Reachable c)
    (taken : Sys.step cfg prog c a = some d) :
    d.round = c.round ∨
      d.round = c.round + 1 ∧ (∀ r, (d.rank r).epoch = c.round) ∧
        ∃ first second, d.Unanimous first second := by
  have after := before.step taken
  rcases Sys.step_cases taken with
    ⟨r, flag, t, sent, -, move, rfl⟩ | ⟨r, src, t, stream, -, receive, rfl⟩
  · rcases (aligned_of_reachable before).rounds_step move.party with
      same | ⟨next, value, zero, all⟩
    · left
      rw [← party_update c r t (send c.net r sent)] at same
      exact same
    · right
      rw [← party_update c r t (send c.net r sent)] at next all
      obtain ⟨first, unanimous⟩ := Unanimous.of_waiting after zero
        fun i => ⟨(all i).1, (all i).2.1, (all i).2.2.1⟩
      exact ⟨next, fun i => (all i).2.2.2, first, value, unanimous⟩
  · left
    unfold round
    rw [party_receive c _ receive]

theorem epochs_of_reachable {c : Sys n P σ V C}
    (h : (comm cfg prog mem main).Reachable c) : c.Epochs := by
  refine h.invariant (I := Epochs) ?_ ?_
  · refine ⟨?_, by simp [comm, Rank.init]⟩
    simp [comm, pending, unfinished, executing, buffered, inNetwork, stream, queued,
      unparsed, handed, Rank.init, Rank.executing, Rank.unparsed, Rank.handed,
      Rank.buffered, Rank.queued]
  · intro c a d before inv taken
    refine ⟨fun m hm => ?_, fun i e he => ?_⟩
    · rcases round_step before taken with same | ⟨-, -, first, second, unanimous⟩
      · rw [same]
        rcases pending_step before taken hm with old | ⟨r, can⟩
        · exact inv.current m old
        · cases can with
          | main src cut epoch pc stack =>
              rw [epoch]
              exact epoch_eq_round before (by simp [pc, Pc.waiting])
          | handler src cut running epoch =>
              rw [epoch]
              exact inv.current _ (executing_pending running)
      · rw [unanimous.pending_eq_zero (before.step taken)] at hm
        simp at hm
    · rcases Sys.step_cases taken with
        ⟨r, flag, t, sent, -, move, rfl⟩ | ⟨r, src, t, stream, -, receive, rfl⟩
      · by_cases hi : i = r
        · subst hi
          simp only [Function.update_self] at he ⊢
          obtain ⟨finished, hfinished, -, spec⟩ :=
            move.finishes ((routed_of_reachable before).rank i)
          have mono := move.epoch_le
          rw [hfinished, List.mem_append] at he
          rcases he with he | he
          · obtain ⟨own, le⟩ := inv.executed i e he
            exact ⟨own, le.trans mono⟩
          · obtain ⟨epoch, -, running⟩ := spec e he
            have current := inv.current _ (executing_pending running)
            have here := epoch_eq_round before (not_second_of_executing before running)
            exact ⟨by rw [epoch, here, current], by rw [epoch]; exact mono⟩
        · simpa [hi] using inv.executed i e (by simpa [hi] using he)
      · obtain ⟨listener, queue, eq⟩ := receive.frame i
        simp only [eq] at he ⊢
        exact inv.executed i e he

/-- A call of an epoch that some rank has left is not pending. -/
theorem epoch_le_of_pending {c : Sys n P σ V C}
    (h : (comm cfg prog mem main).Reachable c) (r : Fin n) {m : Rpc n P}
    (hm : m ∈ c.pending) : (c.rank r).epoch ≤ m.epoch := by
  rw [(epochs_of_reachable h).current m hm]
  exact epoch_le_round h r

end Sys

/-! ## The barrier promise -/

/-- **Everything issued before epoch `e` is finished**: it has been executed, once and
at its destination, and is in none of the places an unfinished call can be. -/
structure Quiescent (c : Sys n P σ V C) (e : ℕ) : Prop where
  once : c.issued.filter (fun m => m.epoch < e) = c.executed.filter (fun m => m.epoch < e)
  place : ∀ m ∈ c.issued, m.epoch < e →
    ∃ x ∈ (c.rank m.dest).executed, x.rpc = m ∧ x.src = m.src
  handed : ∀ m ∈ c.handed, e ≤ m.epoch
  executing : ∀ m ∈ c.executing, e ≤ m.epoch
  buffered : ∀ m ∈ c.buffered, e ≤ m.epoch
  inNetwork : ∀ m ∈ c.inNetwork, e ≤ m.epoch
  queued : ∀ m ∈ c.queued, e ≤ m.epoch
  unparsed : ∀ m ∈ c.unparsed, e ≤ m.epoch

theorem Quiescent.of_pending {c : Sys n P σ V C}
    (h : (comm cfg prog mem main).Reachable c) {e : ℕ}
    (late : ∀ m ∈ c.pending, e ≤ m.epoch) : Quiescent c e := by
  have once : c.issued.filter (fun m => m.epoch < e)
      = c.executed.filter (fun m => m.epoch < e) := by
    rw [Sys.conservation h, Multiset.filter_add, add_eq_left]
    refine Multiset.filter_eq_nil.mpr fun m hm => not_lt.mpr (late m ?_)
    exact Multiset.mem_add.mpr (.inl hm)
  refine ⟨once, fun m hm early => ?_, ?_, ?_, ?_, ?_, ?_, ?_⟩
  · have done : m ∈ c.executed := by
      refine Multiset.mem_of_mem_filter (p := fun m => m.epoch < e) ?_
      rw [← once]
      exact Multiset.mem_filter.mpr ⟨hm, early⟩
    obtain ⟨r, -, hr⟩ := Multiset.mem_sum.mp done
    obtain ⟨x, hx, rfl⟩ := List.mem_map.mp (Multiset.mem_coe.mp hr)
    obtain ⟨src, dest⟩ := ((Sys.routed_of_reachable h).rank r).executed x hx
    rw [dest]
    exact ⟨x, hx, rfl, src⟩
  all_goals
    intro m hm
    refine late m ?_
    simp only [Sys.pending, Sys.unfinished, Multiset.mem_add]
    tauto

/-- The calls that a step adds to those executed were pending before the step. -/
theorem Sys.executed_step {c d : Sys n P σ V C} {a : Action n}
    (h : (comm cfg prog mem main).Reachable c) (taken : Sys.step cfg prog c a = some d) :
    ∃ new : Multiset (Rpc n P), d.executed = c.executed + new ∧ ∀ m ∈ new, m ∈ c.pending := by
  rcases Sys.step_cases taken with
    ⟨r, flag, t, sent, -, move, rfl⟩ | ⟨r, src, t, stream, -, receive, rfl⟩
  · obtain ⟨new, executed, -, spec⟩ := move.finishes ((routed_of_reachable h).rank r)
    refine ⟨(new.map Exec.rpc : List (Rpc n P)), ?_, fun m hm => ?_⟩
    · have total := sum_update_add (fun s : Rank n P σ V C => s.done) c.rank r t
      have done : t.done = (c.rank r).done + (new.map Exec.rpc : List (Rpc n P)) := by
        simp [Rank.done, executed]
      rw [done, add_comm (c.rank r).done, ← add_assoc] at total
      exact add_right_cancel total
    · obtain ⟨e, he, rfl⟩ := List.mem_map.mp hm
      exact executing_pending (spec e he).2.2
  · refine ⟨0, ?_, by simp⟩
    rw [add_zero]
    exact sum_update_eq (fun s : Rank n P σ V C => s.done) c.rank r
      (by rw [receive.quiet]; rfl)

/-- **What was issued before an epoch is settled** once its round has begun: no later step
issues a call of an earlier epoch. -/
theorem Sys.issued_before {c d : Sys n P σ V C} {e : ℕ}
    (h : (comm cfg prog mem main).Reachable c) (late : e ≤ c.round)
    (leads : (comm cfg prog mem main).Leads c d) :
    d.issued.filter (fun m => m.epoch < e) = c.issued.filter (fun m => m.epoch < e) := by
  have once : ∀ {b : Sys n P σ V C}, (comm cfg prog mem main).Reachable b → e ≤ b.round →
      b.issued.filter (fun m => m.epoch < e) = b.executed.filter (fun m => m.epoch < e) := by
    intro b reached round
    refine (Quiescent.of_pending reached fun m hm => ?_).once
    rwa [(epochs_of_reachable reached).current m hm]
  suffices same : e ≤ d.round ∧
      d.executed.filter (fun m => m.epoch < e) = c.executed.filter (fun m => m.epoch < e) by
    rw [once h late, once (h.leads leads) same.1, same.2]
  induction leads with
  | refl => exact ⟨late, rfl⟩
  | @tail b d before taken ih =>
      obtain ⟨a, taken⟩ := taken
      change Sys.step cfg prog b a = some d at taken
      obtain ⟨round, same⟩ := ih
      have reached := h.leads before
      obtain ⟨new, executed, pending⟩ := executed_step reached taken
      refine ⟨?_, ?_⟩
      · rcases round_step reached taken with same | ⟨next, -⟩ <;> omega
      · have none : new.filter (fun m => m.epoch < e) = 0 := by
          refine Multiset.filter_eq_nil.mpr fun m hm => not_lt.mpr ?_
          rwa [(epochs_of_reachable reached).current m (pending m hm)]
        rw [executed, Multiset.filter_add, none, add_zero, same]

/-- **Barrier quiescence.**  When `barrier` returns on a rank, every call issued by
main code of any rank before it entered that barrier, or caused by such a call, has
been executed at its destination and is nowhere else.  These are the calls of the
epochs before the one the rank enters. -/
theorem barrier_quiescence {c d : Sys n P σ V C} {r : Fin n} {flag : Bool}
    (h : (comm cfg prog mem main).Reachable c)
    (inside : (c.rank r).pc.waiting = some .second)
    (taken : Sys.step cfg prog c (.main r flag) = some d)
    (returns : (d.rank r).pc = .user) :
    (d.rank r).epoch = (c.rank r).epoch + 1 ∧ Quiescent d (d.rank r).epoch := by
  have after : (comm cfg prog mem main).Reachable d := h.step (a := .main r flag) taken
  refine ⟨?_, .of_pending after fun m => Sys.epoch_le_of_pending after r⟩
  obtain ⟨first, second, pc⟩ := Pc.waiting_second inside
  have stack := ((Sys.sampled_of_reachable h r).second first second pc).1
  rcases pc with pc | pc
  · simp only [Sys.step, mainStep, stack, topStep, pc, Option.map_eq_some_iff] at taken
    obtain ⟨out, hout, rfl⟩ := taken
    simp only [Function.update_self] at returns ⊢
    -- of the three ways on, only one goes back to the main program
    split at hout
    · cases hout
    · split at hout
      · split at hout
        · cases hout
          rfl
        · cases hout
          cases returns
      · cases hout
        cases returns
  · simp [Sys.step, mainStep, stack, topStep, pc] at taken

/-- Three waves of steps of the two ranks of `pingMain`, and the steps of its last
round, up to the return of `barrier` on rank 1. -/
def pingLeaving : Sys 2 (ℕ × List (Act 2)) Unit Unit (List (Act 2)) :=
  (scriptComm ⟨16, false⟩ pingMain).drive (fun _ _ => True)
    (scriptComm ⟨16, false⟩ pingMain).init
    ((List.replicate 3 (mains 0 11 ++ mains 1 13 ++
      [.listen 0 1, .listen 0 1, .listen 1 0, .listen 1 0])).flatten
        ++ mains 0 11 ++ mains 1 3)

/-- The barrier of `pingMain` returns on rank 1 while rank 0 is still inside, and all
four calls are executed. -/
theorem barrier_quiescence_ping :
    ∃ d, Sys.step ⟨16, false⟩ (script 2) pingLeaving (.main 1 true) = some d ∧
      (d.rank 0).epoch = 0 ∧ (d.rank 1).epoch = 1 ∧ d.issued.card = 4 ∧ Quiescent d 1 := by
  have run : ((Sys.step ⟨16, false⟩ (script 2) pingLeaving (.main 1 true)).map fun d =>
      ((d.rank 0).epoch, (d.rank 1).epoch, d.issued.card,
        (pingLeaving.rank 1).pc.waiting, (d.rank 1).pc.isUser))
      = some (0, 1, 4, some .second, true) := by decide +kernel
  obtain ⟨d, taken, facts⟩ := Option.map_eq_some_iff.mp run
  simp only [Prod.mk.injEq] at facts
  obtain ⟨zero, one, issued, inside, user⟩ := facts
  have reached : (scriptComm ⟨16, false⟩ pingMain).Reachable pingLeaving :=
    Machine.ReachableBy.init.drive _
  have leave := barrier_quiescence reached inside taken (Pc.eq_user user)
  exact ⟨d, taken, zero, one, issued, one ▸ leave.2⟩

end YGM
