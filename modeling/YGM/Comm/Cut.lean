import YGM.Comm.Barrier

/-!
# When both samples agree

`barrier` asserts that a rank's two samples are equal once both sums are zero.  The
second samples describe one state (`Sys.Unanimous.pending_eq_zero`); the first ones do
not: a rank goes on executing calls after its first sample, and a call issued after its
issuer's first sample can be executed before its destination takes its own.  Such a
call is received on one side of the cut and sent on the other, and its negative
contribution can hide a call that crosses the cut forwards (`tear`).

## The condition

`consistent` asks of each step that a rank only starts calls issued no later, counted
in first samples, than it has itself got.  Then the first samples are a consistent cut:
their sum counts the calls that cross it (`Sys.sum_first`), a zero sum means that none
does, and whatever a rank executes after its first sample was caused by a call that
crosses (`Causal.causes`).  So nothing happens between the two samples, and the
assertion holds (`barrier_samples_agree`).
-/

namespace YGM

open scoped BigOperators

variable {n : ℕ} {P σ V C : Type}
variable {cfg : Config} {prog : Program n P σ V C} {mem : Fin n → σ} {main : Fin n → C}

/-! ## What a move executes -/

/-- **A move begins at most one call**: its own rank's, which it starts, or the next
of a buffer. -/
theorem Move.begins {r : Fin n} {w : View n V} {s t : Rank n P σ V C}
    {sent : Option (Fin n × Packet n P)} (move : Move cfg prog r w s t sent) :
    ∃ begun : List (Rpc n P),
      t.executing + t.done = s.executing + s.done + (begun : Multiset (Rpc n P)) ∧
      ∀ m ∈ begun, CanStart r s m ∧ m.dest = r ∨
        ∃ src tail rest, s.stack = .parse src (m :: tail) :: rest := by
  cases move with
  | @retSelf m k rest mem stack cmd =>
      refine ⟨[], ?_, by simp⟩
      simp only [Rank.finish, Rank.done, Rank.executing, stack, List.flatMap_cons,
        Frame.executing, Ctx.rpc, List.map_append, List.map_cons, List.map_nil,
        ← Multiset.coe_add, Multiset.coe_nil]
      abel
  | @retRemote src m tail k rest mem stack cmd =>
      refine ⟨[], ?_, by simp⟩
      simp only [Rank.finish, Rank.done, Rank.executing, stack, List.flatMap_cons,
        Frame.executing, Ctx.rpc, List.map_append, List.map_cons, List.map_nil,
        ← Multiset.coe_add, Multiset.coe_nil, List.nil_append]
      abel
  | @asyncSelf ctx rest k k' payload m run cmd call =>
      have same : (({ s with issued := s.issued ++ [m] }).resume ctx rest k').stack
          = (s.resume ctx rest k').stack := by cases ctx <;> rfl
      refine ⟨[m], ?_, ?_⟩
      · simp only [Rank.call, Rank.done, Rank.executing, same, List.flatMap_append,
          List.flatMap_cons, List.flatMap_nil, Frame.executing, Ctx.rpc,
          run.flatMap_executing, Rank.resume_executed, ← Multiset.coe_add,
          List.append_nil]
        abel
      · intro m' hm'
        obtain rfl : m' = m := by simpa using hm'
        exact .inl ⟨run.canStart (by rw [call]) (by rw [call]) (by rw [call]), by rw [call]⟩
  | @parse src m tail rest stack =>
      refine ⟨[m], ?_, ?_⟩
      · simp only [Rank.done, Rank.executing, stack, List.flatMap_cons, Frame.executing,
          Ctx.rpc, ← Multiset.coe_add, List.nil_append]
        abel
      · intro m' hm'
        obtain rfl : m' = m := by simpa using hm'
        exact .inr ⟨src, tail, rest, stack⟩
  | @update ctx rest k k' mem run cmd =>
      have same : (({ s with mem := mem }).resume ctx rest k').stack
          = (s.resume ctx rest k').stack := by cases ctx <;> rfl
      refine ⟨[], ?_, by simp⟩
      simp [Rank.done, Rank.executing, same, run.flatMap_executing]
  | @asyncRemote ctx rest k k' dest payload m frames run cmd call remote path =>
      obtain ⟨executing, -, -⟩ := path.places
      have same : (({ s with
            sendCount := s.sendCount + 1
            localBytesSent := s.localBytesSent + prog.packedSize payload }).resume
              ctx rest k').stack
          = (s.resume ctx rest k').stack := by cases ctx <;> rfl
      refine ⟨[], ?_, by simp⟩
      simp [Rank.call, Rank.done, Rank.executing, same, executing, run.flatMap_executing]
  | @callFlush ctx rest k k' frame run cmd =>
      have silent : frame.executing = [] := by
        rcases cmd with ⟨dest, -, rfl⟩ | ⟨-, rfl⟩ <;> rfl
      refine ⟨[], ?_, by simp⟩
      simp [Rank.call, Rank.done, Rank.executing, silent, run.flatMap_executing]
  | @silent frame frames rest received stack old new sends done =>
      refine ⟨[], ?_, by simp⟩
      simp [Rank.done, Rank.executing, stack, old.executing,
        flatMap_silent fun f hf => (new f hf).executing]
  | _ =>
      refine ⟨[], ?_, by simp⟩
      simp [Rank.done, Rank.executing, Frame.executing, *]

/-- **The effect of a move on the executing calls**: it begins some, which it starts itself or
takes from an open buffer, and it finishes some, which are then recorded with the number of
first samples of their rank. -/
theorem Move.executes {r : Fin n} {w : View n V} {s t : Rank n P σ V C}
    {sent : Option (Fin n × Packet n P)} (move : Move cfg prog r w s t sent)
    (routed : s.Routed r) :
    ∃ (begun : List (Rpc n P)) (finished : List (Exec n P)),
      t.executed = s.executed ++ finished ∧
      t.executing + (finished.map Exec.rpc : List (Rpc n P))
        = s.executing + (begun : Multiset (Rpc n P)) ∧
      (∀ m ∈ begun, CanStart r s m ∧ m.dest = r ∨
        ∃ src tail rest, s.stack = .parse src (m :: tail) :: rest) ∧
      ∀ e ∈ finished, e.cut = s.cuts := by
  obtain ⟨begun, balance, begins⟩ := move.begins
  obtain ⟨finished, hfinished, -, spec⟩ := move.finishes routed
  refine ⟨begun, finished, hfinished, ?_, begins, fun e he => (spec e he).2.1⟩
  have done : t.done = s.done + (finished.map Exec.rpc : List (Rpc n P)) := by
    simp [Rank.done, hfinished]
  refine add_right_cancel (b := s.done) ?_
  calc t.executing + (finished.map Exec.rpc : List (Rpc n P)) + s.done
      = t.executing + t.done := by rw [done]; abel
    _ = s.executing + s.done + (begun : Multiset (Rpc n P)) := balance
    _ = s.executing + (begun : Multiset (Rpc n P)) + s.done := by abel

/-- A call that is executing before a move goes on executing, or it is finished by the move and
recorded with the rank's number of first samples. -/
theorem Move.keeps_executing {r : Fin n} {w : View n V} {s t : Rank n P σ V C}
    {sent : Option (Fin n × Packet n P)} (move : Move cfg prog r w s t sent)
    (routed : s.Routed r) {m : Rpc n P} (running : m ∈ s.executing) :
    m ∈ t.executing ∨ ∃ e ∈ t.executed, e.rpc = m ∧ e.cut = s.cuts := by
  obtain ⟨begun, finished, hfinished, balance, -, spec⟩ := move.executes routed
  have : m ∈ t.executing + (finished.map Exec.rpc : List (Rpc n P)) := by
    rw [balance]
    exact Multiset.mem_add.mpr (.inl running)
  rcases Multiset.mem_add.mp this with hm | hm
  · exact .inl hm
  · obtain ⟨e, he, rfl⟩ := List.mem_map.mp (Multiset.mem_coe.mp hm)
    refine .inr ⟨e, ?_, rfl, spec e he⟩
    rw [hfinished]
    exact List.mem_append_right _ he

/-- A call that is executing after a move was executing before it, or is the rank's own call
made by the move, or is the next call of an open buffer. -/
theorem Move.executing_or {r : Fin n} {w : View n V} {s t : Rank n P σ V C}
    {sent : Option (Fin n × Packet n P)} (move : Move cfg prog r w s t sent)
    (routed : s.Routed r) {m : Rpc n P} (running : m ∈ t.executing) :
    m ∈ s.executing ∨ (CanStart r s m ∧ m.dest = r) ∨
      ∃ src tail rest, s.stack = .parse src (m :: tail) :: rest := by
  obtain ⟨begun, finished, -, balance, begins, -⟩ := move.executes routed
  have : m ∈ s.executing + (begun : Multiset (Rpc n P)) := by
    rw [← balance]
    exact Multiset.mem_add.mpr (.inl running)
  rcases Multiset.mem_add.mp this with hm | hm
  · exact .inl hm
  · exact .inr (begins m (Multiset.mem_coe.mp hm))

/-! ## First samples -/

/-- The first sample that a rank has taken in the round it is in, if it has taken one. -/
def Pc.first : Pc V C → Option ℤ
  | .test a | .second a _ | .thrown a _ => some a
  | _ => none

/-- **How a move treats the first sample**: it keeps it, drops it, or takes it. -/
theorem Move.cuts_cases {r : Fin n} {w : View n V} {s t : Rank n P σ V C}
    {sent : Option (Fin n × Packet n P)} (move : Move cfg prog r w s t sent) :
    (t.cuts = s.cuts ∧ ∀ a, t.pc.first = some a → s.pc.first = some a) ∨
      (s.stack = [] ∧ t = { s with
        pc := .test s.localCount
        barrierPosts := s.barrierPosts ++ [(.first, s.localCount)] }) := by
  cases move with
  | sample pc stack => exact .inr ⟨stack, rfl⟩
  | confirm pc stack zero =>
      left
      refine ⟨by simp [Rank.cuts], fun a ha => ?_⟩
      simpa [pc, Pc.first] using ha
  | update run cmd => exact .inl ⟨by simp [Rank.cuts], by simp⟩
  | asyncSelf run cmd call =>
      exact .inl ⟨by simp [Rank.cuts, Rank.call], by simp [Rank.call]⟩
  | asyncRemote run cmd call remote path =>
      exact .inl ⟨by simp [Rank.cuts, Rank.call], by simp [Rank.call]⟩
  | callFlush run cmd =>
      exact .inl ⟨by simp [Rank.cuts, Rank.call], by simp [Rank.call]⟩
  | pending pc stack =>
      refine .inl ⟨rfl, fun a ha => ?_⟩
      simpa [pc, Pc.first] using ha
  | throw pc stack zero differ =>
      refine .inl ⟨rfl, fun a ha => ?_⟩
      simpa [pc, Pc.first] using ha
  | barrier | reduce | reduced | kill | joined | retry | leave =>
      exact .inl ⟨rfl, by simp [Pc.first]⟩
  | _ => exact .inl ⟨rfl, fun a ha => ha⟩

theorem Move.cuts_le {r : Fin n} {w : View n V} {s t : Rank n P σ V C}
    {sent : Option (Fin n × Packet n P)} (move : Move cfg prog r w s t sent) :
    s.cuts ≤ t.cuts := by
  rcases move.cuts_cases with ⟨same, -⟩ | ⟨-, rfl⟩
  · exact same.ge
  · simp [Rank.cuts]

/-- **The first sample counts** the remote calls that the rank has started before it, less the
remote calls that the rank has finished before it. -/
structure Rank.Cut (s : Rank n P σ V C) : Prop where
  started : ∀ m ∈ s.started, m.cut ≤ s.cuts
  executed : ∀ e ∈ s.executed, e.cut ≤ s.cuts
  own : ∀ m ∈ s.executing, ¬ m.Remote → m.cut = s.cuts
  first : ∀ a, s.pc.first = some a →
    a = (s.started.countP fun m => m.Remote ∧ m.cut < s.cuts : ℕ)
      - (s.executed.countP fun e => decide (e.rpc.Remote ∧ e.cut < s.cuts) : ℕ)

theorem Move.cut {r : Fin n} {w : View n V} {s t : Rank n P σ V C}
    {sent : Option (Fin n × Packet n P)} (move : Move cfg prog r w s t sent)
    (routed : s.Routed r) (counted : s.Counted) (h : s.Cut) : t.Cut := by
  rcases move.cuts_cases with ⟨same, keep⟩ | ⟨stack, rfl⟩
  · obtain ⟨starts, hstarts, -, can⟩ := move.starts
    obtain ⟨begun, finished, hfinished, -, -, spec⟩ := move.executes routed
    refine ⟨?_, ?_, ?_, ?_⟩
    · intro m hm
      rw [same]
      rw [hstarts] at hm
      rcases Multiset.mem_add.mp hm with hm | hm
      · exact h.started m hm
      · exact (can m (Multiset.mem_coe.mp hm)).canStart.cut.le
    · intro e he
      rw [same]
      rw [hfinished] at he
      rcases List.mem_append.mp he with he | he
      · exact h.executed e he
      · exact (spec e he).le
    · intro m hm self
      rw [same]
      rcases move.executing_or routed hm with hm | ⟨can, -⟩ | ⟨src, tail, rest, stack⟩
      · exact h.own m hm self
      · exact can.cut
      · -- what a buffer holds comes from another rank
        have top := routed.stack
        rw [stack, List.forall_mem_cons] at top
        obtain ⟨other, between⟩ := top.1
        obtain ⟨hsrc, hdest⟩ := between m (by simp)
        exact absurd (by rw [Rpc.Remote, hsrc, hdest]; exact other) self
    · -- what is new belongs to this cut or a later one
      intro a ha
      have later : (starts : Multiset (Rpc n P)).countP (fun m => m.Remote ∧ m.cut < s.cuts)
          = 0 := by
        refine Multiset.countP_eq_zero.mpr fun m hm both => ?_
        rw [(can m (Multiset.mem_coe.mp hm)).canStart.cut] at both
        exact lt_irrefl _ both.2
      have later' : finished.countP (fun e => decide (e.rpc.Remote ∧ e.cut < s.cuts)) = 0 := by
        refine List.countP_eq_zero.mpr fun e he both => ?_
        rw [spec e he] at both
        simp at both
      rw [same, hstarts, hfinished, Multiset.countP_add, List.countP_append, later, later',
        Nat.add_zero, Nat.add_zero]
      exact h.first a (keep a ha)
  · have grown : ({ s with
        pc := .test s.localCount
        barrierPosts := s.barrierPosts ++ [(.first, s.localCount)] } :
          Rank n P σ V C).cuts = s.cuts + 1 := by simp [Rank.cuts]
    refine ⟨?_, ?_, ?_, ?_⟩
    · intro m hm
      rw [grown]
      exact (h.started m hm).trans (Nat.le_succ _)
    · intro e he
      rw [grown]
      exact (h.executed e he).trans (Nat.le_succ _)
    · intro m hm
      simp [Rank.executing, stack] at hm
    · -- everything so far belongs to the cuts before
      intro a ha
      obtain rfl : s.localCount = a := by simpa [Pc.first] using ha
      rw [grown]
      change s.sendCount - s.recvCount
        = ((s.started.countP fun m => m.Remote ∧ m.cut < s.cuts + 1 : ℕ) : ℤ)
          - (s.executed.countP fun e => decide (e.rpc.Remote ∧ e.cut < s.cuts + 1) : ℕ)
      rw [counted.send, counted.recv, Rank.done, Multiset.coe_countP, List.countP_map]
      congr 2
      · refine Multiset.countP_congr rfl fun m hm => ?_
        simp [Nat.lt_succ_of_le (h.started m hm)]
      · refine List.countP_congr fun e he => ?_
        simp [Nat.lt_succ_of_le (h.executed e he)]

namespace Sys

theorem cut_of_reachable {c : Sys n P σ V C}
    (h : (comm cfg prog mem main).Reachable c) (r : Fin n) : (c.rank r).Cut := by
  refine h.invariant (I := fun c => ∀ r, (c.rank r).Cut) ?_ ?_ r
  · intro r
    exact ⟨by simp [comm, Rank.init, Rank.started, Rank.handed], by simp [comm, Rank.init],
      by simp [comm, Rank.init, Rank.executing], by simp [comm, Rank.init, Pc.first]⟩
  · intro c a d before inv taken i
    rcases Sys.step_cases taken with
      ⟨r, flag, t, sent, -, move, rfl⟩ | ⟨r, src, t, stream, -, receive, rfl⟩
    · by_cases hi : i = r
      · subst hi
        simpa using move.cut ((routed_of_reachable before).rank i)
          (counted_of_reachable before i) (inv i)
      · simpa [hi] using inv i
    · obtain ⟨listener, queue, eq⟩ := receive.frame i
      simp only [eq]
      exact ⟨(inv i).started, (inv i).executed, (inv i).own, (inv i).first⟩

/-! ## Consistent cuts -/

/-- **The condition on a step**: the next call of a buffer is started only by a rank
that has taken as many first samples as the issuer had when it issued the call. -/
def consistent (c : Sys n P σ V C) : Action n → Bool
  | .main r _ =>
      match (c.rank r).stack with
      | .parse _ (m :: _) :: _ => decide (m.cut ≤ (c.rank r).cuts)
      | _ => true
  | .listen _ _ => true

/-- No rank has run its main program since its `i`-th first sample: those that have taken it are
still in `barrier`, and none has taken a later one. -/
def Waits (c : Sys n P σ V C) (i : ℕ) : Prop :=
  ∀ r, (c.rank r).cuts ≤ i ∧ ((c.rank r).cuts = i → (c.rank r).pc.first ≠ none)

/-- A call issued before the `i`-th first sample of its issuer is executed after that
of its destination. -/
def Crossed (c : Sys n P σ V C) (i : ℕ) : Prop :=
  ∃ r, ∃ m : Rpc n P, m.Remote ∧ m.cut < i ∧ i ≤ (c.rank r).cuts ∧
    (m ∈ (c.rank r).executing ∨ ∃ e ∈ (c.rank r).executed, e.rpc = m ∧ i ≤ e.cut)

/-- **Cause and effect.**  A call is executed no earlier than it is issued, counted in
first samples, and what is issued after a first sample has a cause from before it. -/
structure Causal (c : Sys n P σ V C) : Prop where
  running : ∀ r, ∀ m ∈ (c.rank r).executing, m.cut ≤ (c.rank r).cuts
  executed : ∀ r, ∀ e ∈ (c.rank r).executed, e.rpc.cut ≤ e.cut
  causes : ∀ i, c.Waits i → ∀ r, ∀ m ∈ (c.rank r).started, i ≤ m.cut → c.Crossed i

/-- A call that crosses the `i`-th cut still crosses it after a move: it goes on executing or it
is recorded behind the sample. -/
theorem Crossed.move {c : Sys n P σ V C} {i : ℕ} (h : c.Crossed i) {r : Fin n}
    {w : View n V} {t : Rank n P σ V C} {sent : Option (Fin n × Packet n P)}
    {net : Fin n → Fin n → List (Packet n P)}
    (move : Move cfg prog r w (c.rank r) t sent) (routed : (c.rank r).Routed r) :
    Crossed ⟨Function.update c.rank r t, net⟩ i := by
  obtain ⟨q, m, remote, early, late, place⟩ := h
  by_cases hq : q = r
  · subst hq
    refine ⟨q, m, remote, early, ?_, ?_⟩
    · simpa using late.trans move.cuts_le
    · simp only [Function.update_self]
      rcases place with running | ⟨e, he, rfl, cut⟩
      · rcases move.keeps_executing routed running with running | ⟨e, he, rfl, cut⟩
        · exact .inl running
        · exact .inr ⟨e, he, rfl, cut ▸ late⟩
      · obtain ⟨begun, finished, hfinished, -⟩ := move.executes routed
        refine .inr ⟨e, ?_, rfl, cut⟩
        rw [hfinished]
        exact List.mem_append_left _ he
  · exact ⟨q, m, remote, early, by simpa [hq] using late, by simpa [hq] using place⟩

/-- A rank that has gone on from round `i` never waits in that round again; so a state in which
all wait follows a state in which all waited. -/
theorem Waits.of_move {c : Sys n P σ V C} {i : ℕ} {r : Fin n} {w : View n V}
    {t : Rank n P σ V C} {sent : Option (Fin n × Packet n P)}
    {net : Fin n → Fin n → List (Packet n P)}
    (h : Waits (⟨Function.update c.rank r t, net⟩ : Sys n P σ V C) i)
    (move : Move cfg prog r w (c.rank r) t sent) : c.Waits i := by
  intro q
  obtain ⟨le, waits⟩ := h q
  by_cases hq : q = r
  · subst hq
    simp only [Function.update_self] at le waits
    refine ⟨move.cuts_le.trans le, fun eq => ?_⟩
    rcases move.cuts_cases with ⟨same, keep⟩ | ⟨-, rfl⟩
    · obtain ⟨a, ha⟩ := Option.ne_none_iff_exists'.mp (waits (same.trans eq))
      simp [keep a ha]
    · simp [Rank.cuts] at le eq
      omega
  · simpa [hq] using And.intro le waits

/-- **Causality is kept by consistent steps**: cause and effect hold in every state that a
consistent run reaches. -/
theorem causal_of_reachable {c : Sys n P σ V C}
    (h : (comm cfg prog mem main).ReachableBy (fun c a => consistent c a) c) :
    c.Causal := by
  refine h.invariant (I := Causal) ?_ ?_
  · exact ⟨by simp [comm, Rank.init, Rank.executing], by simp [comm, Rank.init],
      by simp [comm, Rank.init, Rank.started, Rank.handed]⟩
  · intro c a d before inv allowed taken
    have routed := routed_of_reachable before.reachable
    have cut := cut_of_reachable before.reachable
    rcases Sys.step_cases taken with
      ⟨r, flag, t, sent, rfl, move, rfl⟩ | ⟨r, src, t, stream, rfl, receive, rfl⟩
    · refine ⟨fun q m hm => ?_, fun q e he => ?_, fun i waits q m hm late => ?_⟩
      · by_cases hq : q = r
        · subst hq
          simp only [Function.update_self] at hm ⊢
          refine le_trans ?_ move.cuts_le
          rcases move.executing_or (routed.rank q) hm with hm | ⟨can, -⟩ | ⟨src, tail, rest, stack⟩
          · exact inv.running q m hm
          · exact can.cut.le
          · simpa [consistent, stack] using allowed
        · simpa [hq] using inv.running q m (by simpa [hq] using hm)
      · by_cases hq : q = r
        · subst hq
          simp only [Function.update_self] at he
          obtain ⟨finished, hfinished, -, spec⟩ := move.finishes (routed.rank q)
          rw [hfinished] at he
          rcases List.mem_append.mp he with he | he
          · exact inv.executed q e he
          · obtain ⟨-, cut, running⟩ := spec e he
            rw [cut]
            exact inv.running q _ running
        · exact inv.executed q e (by simpa [hq] using he)
      · have waits' := waits.of_move move
        refine Crossed.move ?_ move (routed.rank r)
        by_cases hq : q = r
        · subst hq
          simp only [Function.update_self] at hm
          obtain ⟨starts, hstarts, -, can⟩ := move.starts
          rw [hstarts] at hm
          rcases Multiset.mem_add.mp hm with hm | hm
          · exact inv.causes i waits' q m hm late
          · have here : (c.rank q).cuts = i := by
              refine le_antisymm (waits' q).1 ?_
              rw [← (can m (Multiset.mem_coe.mp hm)).canStart.cut]
              exact late
            cases (can m (Multiset.mem_coe.mp hm)).canStart with
            | main src cut epoch pc stack =>
                exact absurd (by simp [pc, Pc.first]) ((waits' q).2 here)
            | @handler cause src cut' running epoch =>
                -- the cause crosses, or was itself issued after the sample
                by_cases early : cause.cut < i
                · have remote : cause.Remote := by
                    by_contra self
                    have := (cut q).own cause running self
                    omega
                  exact ⟨q, cause, remote, early, here.ge, .inl running⟩
                · refine inv.causes i waits' cause.src cause ?_ (not_lt.mp early)
                  have issued := mem_issued_of_executing before.reachable running
                  exact Multiset.mem_add.mpr
                    (.inl (Multiset.mem_coe.mpr (mem_issued_src before.reachable issued)))
        · exact inv.causes i waits' q m (by simpa [hq] using hm) late
    · have same : ∀ q, (Function.update c.rank r t q).executing = (c.rank q).executing ∧
          (Function.update c.rank r t q).executed = (c.rank q).executed ∧
          (Function.update c.rank r t q).started = (c.rank q).started ∧
          (Function.update c.rank r t q).cuts = (c.rank q).cuts ∧
          (Function.update c.rank r t q).pc = (c.rank q).pc := by
        intro q
        obtain ⟨listener, queue, eq⟩ := receive.frame q
        rw [eq]
        exact ⟨rfl, rfl, rfl, rfl, rfl⟩
      have executing := fun q => (same q).1
      have executed := fun q => (same q).2.1
      have started := fun q => (same q).2.2.1
      have cuts := fun q => (same q).2.2.2.1
      have pc := fun q => (same q).2.2.2.2
      refine ⟨?_, ?_, ?_⟩
      · simpa only [executing, cuts] using inv.running
      · simpa only [executed] using inv.executed
      · simpa only [Waits, Crossed, executing, executed, started, cuts, pc] using inv.causes

/-! ## Equal samples -/

/-- The calls executed by a rank that were issued before a cut are those executed
before it and those that cross it. -/
theorem countP_crossing (executed : List (Exec n P)) (i : ℕ)
    (causal : ∀ e ∈ executed, e.rpc.cut ≤ e.cut) :
    executed.countP (fun e => decide (e.rpc.Remote ∧ e.rpc.cut < i))
      = executed.countP (fun e => decide (e.rpc.Remote ∧ e.cut < i))
        + executed.countP (fun e => decide (e.rpc.Remote ∧ e.rpc.cut < i ∧ i ≤ e.cut)) := by
  induction executed with
  | nil => rfl
  | cons e executed ih =>
      rw [List.forall_mem_cons] at causal
      have before := causal.1
      simp only [List.countP_cons, ih causal.2, decide_eq_true_eq]
      by_cases remote : e.rpc.Remote
      · by_cases finished : e.cut < i
        · simp [remote, finished, before.trans_lt finished, not_le.mpr finished]
          omega
        · simp [remote, finished, not_lt.mp finished]
          omega
      · simp [remote]

/-- **The first samples add up to** the number of calls that cross the cut, each counted where
it was executed. -/
theorem sum_first {c : Sys n P σ V C} (h : (comm cfg prog mem main).Reachable c)
    (causal : c.Causal) {first second : Fin n → ℤ} (u : c.Unanimous first second) {i : ℕ}
    (cuts : ∀ r, (c.rank r).cuts = i) :
    ∑ r, first r = ∑ r, ((c.rank r).executed.countP
      (fun e => decide (e.rpc.Remote ∧ e.rpc.cut < i ∧ i ≤ e.cut)) : ℤ) := by
  have started : ∑ r, ((c.rank r).started.countP (fun m => m.Remote ∧ m.cut < i) : ℤ)
      = ∑ r, ((c.rank r).executed.countP
          (fun e => decide (e.rpc.Remote ∧ e.rpc.cut < i)) : ℤ) := by
    have total := congrArg (Multiset.countP fun m => m.Remote ∧ m.cut < i) (started_eq h)
    rw [u.pending_eq_zero h, add_zero, executed, ← Multiset.coe_countPAddMonoidHom,
      map_sum, map_sum] at total
    rw [← Nat.cast_sum, ← Nat.cast_sum]
    refine congrArg _ (total.trans (Finset.sum_congr rfl fun r _ => ?_))
    rw [Multiset.coe_countPAddMonoidHom, Rank.done, Multiset.coe_countP, List.countP_map]
    rfl
  have sample : ∀ r, first r
      = ((c.rank r).started.countP (fun m => m.Remote ∧ m.cut < i) : ℤ)
        - (c.rank r).executed.countP (fun e => decide (e.rpc.Remote ∧ e.cut < i)) := by
    intro r
    rw [← cuts r]
    refine (cut_of_reachable h r).first (first r) ?_
    rcases u.pc r with pc | pc <;> rw [pc] <;> rfl
  rw [Finset.sum_congr rfl fun r _ => sample r, Finset.sum_sub_distrib, started,
    ← Finset.sum_sub_distrib]
  refine Finset.sum_congr rfl fun r _ => ?_
  have split := countP_crossing (c.rank r).executed i (causal.executed r)
  omega

/-- **Zero sums of a consistent cut come from equal samples**: when the first and the second
samples both add up to zero, each rank's samples are the same. -/
theorem Unanimous.agree {c : Sys n P σ V C} (h : (comm cfg prog mem main).Reachable c)
    (causal : c.Causal) {first second : Fin n → ℤ} (u : c.Unanimous first second)
    (r : Fin n) : first r = second r := by
  set i := (c.rank r).cuts with hi
  have cuts : ∀ q, (c.rank q).cuts = i := fun q => u.cuts q r
  have still := fun q => (sampled_of_reachable h q).second _ _ (u.pc q)
  have pc : ∀ q, (c.rank q).pc.first = some (first q) := by
    intro q
    rcases u.pc q with pc | pc <;> rw [pc] <;> rfl
  -- no executed call crosses the cut
  have none : ∀ q, ∀ e ∈ (c.rank q).executed, e.rpc.Remote → e.rpc.cut < i → e.cut < i := by
    have zero := (sum_first h causal u cuts).symm.trans u.firstSum
    rw [← Nat.cast_sum, Nat.cast_eq_zero, Finset.sum_eq_zero_iff] at zero
    intro q e he remote early
    have count := zero q (Finset.mem_univ q)
    have := List.countP_eq_zero.mp count e he
    simp only [remote, early, true_and, decide_eq_true_eq, not_le] at this
    exact this
  -- so nothing is issued after it
  have early : ∀ q, ∀ m ∈ (c.rank q).started, m.cut < i := by
    intro q m hm
    by_contra late
    have waits : c.Waits i := fun k => ⟨(cuts k).le, fun _ => by simp [pc k]⟩
    obtain ⟨k, m', remote, before, -, place⟩ := causal.causes i waits q m hm (not_lt.mp late)
    rcases place with running | ⟨e, he, rfl, after⟩
    · simp [Rank.executing, (still k).1] at running
    · exact absurd (none k e he remote before) (not_lt.mpr after)
  -- and both samples count everything
  have counted := counted_of_reachable h r
  rw [(still r).2.1, (cut_of_reachable h r).first (first r) (pc r), Rank.localCount,
    counted.send, counted.recv, Rank.done, Multiset.coe_countP, List.countP_map]
  congr 2
  · refine Multiset.countP_congr rfl fun m hm => ?_
    simp [early r m hm, ← hi]
  · refine List.countP_congr fun e he => ?_
    simp only [Function.comp_apply, decide_eq_true_eq, ← hi, and_iff_left_iff_imp]
    intro remote
    refine none r e he remote (early e.rpc.src e.rpc ?_)
    have issued := mem_issued_src h (mem_issued_of_executed h he)
    exact Multiset.mem_add.mpr (.inl (Multiset.mem_coe.mpr issued))

/-- In a round that is complete, the two samples are equal on every rank that has not left the
round. -/
def Agreed (c : Sys n P σ V C) : Prop :=
  ∀ r a b, (c.rank r).pc = .second a b ∨ (c.rank r).pc = .thrown a b →
    (c.rank r).epoch < c.round → a = b

/-- No rank has thrown from the assertion of `barrier`. -/
def Unbroken (c : Sys n P σ V C) : Prop :=
  ∀ r a b, (c.rank r).pc ≠ .thrown a b

theorem Unanimous.agreed {c : Sys n P σ V C} (h : (comm cfg prog mem main).Reachable c)
    (causal : c.Causal) {first second : Fin n → ℤ} (u : c.Unanimous first second) :
    c.Agreed := by
  intro r a b pc _
  have agree := u.agree h causal r
  rcases pc with pc | pc <;> rcases u.pc r with pc' | pc' <;> rw [pc] at pc' <;>
    cases pc' <;> exact agree

end Sys

/-- A rank that is at its second sample was there before the move or came from its first sample,
which it keeps. -/
theorem Move.to_second {r : Fin n} {w : View n V} {s t : Rank n P σ V C}
    {sent : Option (Fin n × Packet n P)} (move : Move cfg prog r w s t sent) {a b : ℤ}
    (pc : t.pc = .second a b) :
    (s.pc = .second a b ∨ s.pc = .test a) ∧ t.epoch = s.epoch := by
  cases move with
  | confirm pc' stack zero =>
      cases pc
      exact ⟨.inr pc', rfl⟩
  | update run cmd => exact ⟨.inl (by simpa using pc), by simp⟩
  | asyncSelf run cmd call =>
      exact ⟨.inl (by simpa [Rank.call] using pc), by simp [Rank.call]⟩
  | asyncRemote run cmd call remote path =>
      exact ⟨.inl (by simpa [Rank.call] using pc), by simp [Rank.call]⟩
  | callFlush run cmd =>
      exact ⟨.inl (by simpa [Rank.call] using pc), by simp [Rank.call]⟩
  | barrier | reduce | reduced | kill | joined | sample | pending | retry | leave | throw =>
      cases pc
  | _ => exact ⟨.inl pc, rfl⟩

/-- A rank throws only when the second sum of its round is zero and its two samples differ. -/
theorem Move.to_thrown {r : Fin n} {w : View n V} {s t : Rank n P σ V C}
    {sent : Option (Fin n × Packet n P)} (move : Move cfg prog r w s t sent) {a b : ℤ}
    (pc : t.pc = .thrown a b) :
    s.pc = .thrown a b ∨ (s.pc = .second a b ∧ w.allCount = some 0 ∧ a ≠ b) := by
  cases move with
  | throw pc' stack zero differ =>
      cases pc
      exact .inr ⟨pc', zero, differ⟩
  | update run cmd => exact .inl (by simpa using pc)
  | asyncSelf run cmd call => exact .inl (by simpa [Rank.call] using pc)
  | asyncRemote run cmd call remote path => exact .inl (by simpa [Rank.call] using pc)
  | callFlush run cmd => exact .inl (by simpa [Rank.call] using pc)
  | barrier | reduce | reduced | kill | joined | sample | pending | confirm | retry
  | leave => cases pc
  | _ => exact .inl pc

namespace Sys

/-- **Consistent runs agree**: no rank throws, and in a round that is complete the
samples of a rank are equal. -/
theorem agreed_of_reachable {c : Sys n P σ V C}
    (h : (comm cfg prog mem main).ReachableBy (fun c a => consistent c a) c) :
    c.Unbroken ∧ c.Agreed := by
  refine h.invariant (I := fun c => c.Unbroken ∧ c.Agreed) ?_ ?_
  · exact ⟨by simp [Unbroken, comm, Rank.init], by simp [Agreed, comm, Rank.init]⟩
  · intro c a d before inv allowed taken
    obtain ⟨unbroken, agreed⟩ := inv
    have after := before.step allowed taken
    have advance := round_step before.reachable taken
    rcases Sys.step_cases taken with
      ⟨r, flag, t, sent, -, move, rfl⟩ | ⟨r, src, t, stream, -, receive, rfl⟩
    · have whole : Unbroken (⟨Function.update c.rank r t, send c.net r sent⟩ :
          Sys n P σ V C) := by
        intro q a b pc
        by_cases hq : q = r
        · subst hq
          simp only [Function.update_self] at pc
          rcases move.to_thrown pc with pc | ⟨pc, zero, differ⟩
          · exact unbroken q a b pc
          · have waits : (c.party q).waiting = some .second := by
              simp [party, pc, Pc.waiting]
            have behind := (aligned_of_reachable before.reachable).rounds_lt waits zero
            exact differ (agreed q a b (.inl pc) behind)
        · exact unbroken q a b (by simpa [hq] using pc)
      refine ⟨whole, ?_⟩
      rcases advance with same | ⟨-, -, first, second, unanimous⟩
      · intro q a b pc behind
        rcases pc with pc | pc
        · rw [same] at behind
          by_cases hq : q = r
          · subst hq
            simp only [Function.update_self] at pc behind
            obtain ⟨from_, epoch⟩ := move.to_second pc
            rw [epoch] at behind
            rcases from_ with pc | pc
            · exact agreed q a b (.inl pc) behind
            · have here := epoch_eq_round before.reachable (r := q) (by simp [pc, Pc.waiting])
              omega
          · simp only [Function.update_of_ne hq] at pc behind
            exact agreed q a b (.inl pc) behind
        · exact absurd pc (whole q a b)
      · exact unanimous.agreed after.reachable (causal_of_reachable after)
    · have same : ∀ q, (Function.update c.rank r t q).pc = (c.rank q).pc ∧
          (Function.update c.rank r t q).epoch = (c.rank q).epoch := by
        intro q
        obtain ⟨listener, queue, eq⟩ := receive.frame q
        simp only [eq, and_self]
      refine ⟨fun q => by simpa only [(same q).1] using unbroken q, fun q => ?_⟩
      have round : round ⟨Function.update c.rank r t,
          Function.update c.net src (Function.update (c.net src) r stream)⟩ = c.round := by
        unfold Sys.round
        rw [party_receive c _ receive]
      simpa only [(same q).1, (same q).2, round] using agreed q

end Sys

/-- **The assertion of `barrier` holds in consistent runs.**  If every step starts
only calls its rank has taken enough first samples for, then no barrier throws, and
whenever both sums of a round are zero the two samples of every rank in it are equal. -/
theorem barrier_samples_agree {c : Sys n P σ V C}
    (h : (comm cfg prog mem main).ReachableBy (fun c a => Sys.consistent c a) c) :
    (∀ r a b, (c.rank r).pc ≠ .thrown a b) ∧
    ∀ r a b, (c.rank r).pc = .second a b → c.allCount r = some 0 → a = b := by
  obtain ⟨unbroken, agreed⟩ := Sys.agreed_of_reachable h
  refine ⟨unbroken, fun r a b pc zero => agreed r a b (.inl pc) ?_⟩
  have waits : (c.party r).waiting = some .second := by simp [Sys.party, pc, Pc.waiting]
  exact (Sys.aligned_of_reachable h.reachable).rounds_lt waits zero

/-- The two samples that a rank holds after its second sample, and whether it has thrown. -/
def Pc.samples : Pc V C → Option (ℤ × ℤ × Bool)
  | .second a b => some (a, b, false)
  | .thrown a b => some (a, b, true)
  | _ => none

theorem Pc.eq_second {pc : Pc V C} {a b : ℤ} (h : pc.samples = some (a, b, false)) :
    pc = .second a b := by
  cases pc <;> simp_all [Pc.samples]

theorem Pc.eq_thrown {pc : Pc V C} {a b : ℤ} (h : pc.samples = some (a, b, true)) :
    pc = .thrown a b := by
  cases pc <;> simp_all [Pc.samples]

/-- A state of a consistent run of `pingMain`, at the second reduction of the last round of
`barrier`. -/
def pingAgreed : Sys 2 (ℕ × List (Act 2)) Unit Unit (List (Act 2)) :=
  (scriptComm ⟨16, false⟩ pingMain).drive (fun c a => Sys.consistent c a)
    (scriptComm ⟨16, false⟩ pingMain).init
    ((List.replicate 3 (mains 0 11 ++ mains 1 13 ++
      [.listen 0 1, .listen 0 1, .listen 1 0, .listen 1 0])).flatten
        ++ mains 0 11 ++ mains 1 3)

/-- In `pingAgreed` both sums are zero, and rank 1, which holds the same sample twice, does not
throw. -/
theorem barrier_samples_agree_ping :
    (pingAgreed.rank 1).pc = .second 1 1 ∧ pingAgreed.allCount 1 = some 0 ∧
      (∀ r a b, (pingAgreed.rank r).pc ≠ .thrown a b) ∧
      ∀ r a b, (pingAgreed.rank r).pc = .second a b → pingAgreed.allCount r = some 0 →
        a = b :=
  ⟨Pc.eq_second (by decide +kernel), by decide +kernel,
    barrier_samples_agree (Machine.ReachableBy.init.drive _)⟩

/-- Rank 0 calls rank 1, whose handler calls back twice.  With eight bytes of buffer
each call travels by itself. -/
def tearMain : Fin 2 → List (Act 2)
  | 0 => [.async 1 0 [.async 0 0 [], .async 0 0 []], .barrier]
  | 1 => [.barrier]

/-- A run of it: rank 1 takes its first sample, 0, before it executes the call; rank 0
executes one of the two answers before its own, which is then 0 as well, and the other
one after it. -/
def tearState : Sys 2 (ℕ × List (Act 2)) Unit Unit (List (Act 2)) :=
  (scriptComm ⟨8, false⟩ tearMain).drive (fun _ _ => True)
    (scriptComm ⟨8, false⟩ tearMain).init
    (mains 1 11 ++ mains 0 6 ++ [.listen 1 0, .listen 1 0] ++ mains 1 26 ++
      [.listen 0 1, .listen 0 1] ++ mains 0 15 ++
      [.listen 0 1, .listen 0 1, .main 0 false] ++ mains 0 14 ++ mains 1 2 ++ mains 0 1)

/-- **The assertion fails.**  In the first round the first samples are 0 and 0, the
second ones -1 and 1; both sums are zero, and `barrier` throws on both ranks. -/
theorem tear_throws :
    (scriptComm ⟨8, false⟩ tearMain).Reachable tearState ∧
      (tearState.rank 0).barrierPosts = [(.first, 0), (.second, -1)] ∧
      (tearState.rank 1).barrierPosts = [(.first, 0), (.second, 1)] ∧
      (tearState.rank 0).pc = .thrown 0 (-1) ∧ (tearState.rank 1).pc = .thrown 0 1 := by
  have posts : (tearState.rank 0).barrierPosts = [(.first, 0), (.second, -1)] ∧
      (tearState.rank 1).barrierPosts = [(.first, 0), (.second, 1)] := by decide +kernel
  have samples : (tearState.rank 0).pc.samples = some (0, -1, true) ∧
      (tearState.rank 1).pc.samples = some (0, 1, true) := by decide +kernel
  exact ⟨Machine.ReachableBy.init.drive _, posts.1, posts.2, Pc.eq_thrown samples.1,
    Pc.eq_thrown samples.2⟩

end YGM
