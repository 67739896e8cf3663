import YGM.Comm.Cut
import YGM.Comm.Outline

/-!
# When nobody answers

The assertion of `barrier` can fail when a handler calls another rank: two answers to one call
are enough (`tear_throws`).  In programs whose handlers call no other rank (`Program.Calm`) it
never does (`calm_never_throws`).

Then all calls between ranks are calls of main programs, which are outside of `barrier`.  Whoever
is outside has seen all results, so nobody has taken fewer first samples
(`Sys.cuts_le_of_user`), and no call is ever ahead of the rank that starts it
(`early_of_reachable`).
-/

namespace YGM

variable {n : ℕ} {P σ V C : Type}
variable {cfg : Config} {prog : Program n P σ V C} {mem : Fin n → σ} {main : Fin n → C}
variable {c : Sys n P σ V C}

/-- A command of a handler on rank `r` stays on `r` if it calls no other rank and leads to code
of handlers again.  The commands that only main programs can carry out are left open. -/
def Cmd.Stays (inHandler : Fin n → C → Prop) (r : Fin n) : Cmd n P σ V C → Prop
  | .ret _ | .barrier _ | .allReduce .. | .kill _ => True
  | .update _ k | .asyncFlush _ k | .asyncFlushAll k => inHandler r k
  | .async dest _ k => dest = r ∧ inHandler r k

/-- **Handlers that call no other rank**: `inHandler r k` says that a handler on rank `r` may come
to `k`. -/
structure Program.Calm (prog : Program n P σ V C) (inHandler : Fin n → C → Prop) : Prop where
  start : ∀ r src p, inHandler r (prog.handler src p)
  next : ∀ r k mem, inHandler r k → (prog.next k mem).Stays inHandler r

/-- A program whose handlers call no other rank, with the outline that its handlers keep to. -/
def Program.Calm.outline {inHandler : Fin n → C → Prop} (calm : prog.Calm inHandler) :
    Outline prog where
  code := fun cause k => ∀ m, cause = some m → inHandler m.dest k
  call := fun _ _ => True
  start := by
    rintro m - _ ⟨⟩
    exact calm.start m.dest m.src m.payload
  next := by
    intro cause k mem known
    have stays : ∀ m, cause = some m → (prog.next k mem).Stays inHandler m.dest :=
      fun m serves => calm.next m.dest k mem (known m serves)
    cases cmd : prog.next k mem with
    | ret => trivial
    | barrier | kill =>
        rintro rfl m ⟨⟩
    | allReduce =>
        rintro rfl value m ⟨⟩
    | async =>
        refine ⟨trivial, fun m serves => ?_⟩
        have stays := stays m serves
        rw [cmd] at stays
        exact stays.2
    | update | asyncFlush | asyncFlushAll =>
        intro m serves
        have stays := stays m serves
        rwa [cmd] at stays

/-- **A rank outside of `barrier` has taken no more first samples** than any other rank. -/
theorem Sys.cuts_le_of_user (h : (comm cfg prog mem main).Reachable c) {r : Fin n}
    (user : (c.rank r).pc = .user) (i : Fin n) : (c.rank r).cuts ≤ (c.rank i).cuts := by
  have aligned := Sys.aligned_of_reachable h
  have free : (c.party r).waiting = none := by
    show (c.rank r).pc.waiting = none
    rw [user]
    rfl
  have length : (c.party r).posts.length ≤ (c.party i).posts.length := by
    have handled := aligned.handled_le r i
    rwa [Party.handled, if_pos free] at handled
  have cuts : ∀ j, (c.rank j).cuts
      = ((c.party j).posts.map Prod.fst).countP fun kind => decide (kind = .first) := by
    intro j
    rw [List.countP_map]
    rfl
  have initial : List.range (c.party r).posts.length
      <+: List.range (c.party i).posts.length := by
    obtain ⟨more, enough⟩ := Nat.exists_eq_add_of_le length
    rw [enough, List.range_add]
    exact List.prefix_append _ _
  rw [cuts, cuts, aligned.kinds r, aligned.kinds i]
  exact (initial.map _).sublist.countP_le

/-- **No call to another rank is ahead of any rank**: it was issued after no more first samples
than each rank has taken by now. -/
def Sys.Early (c : Sys n P σ V C) : Prop :=
  ∀ r, ∀ m ∈ (c.rank r).started, m.Remote → ∀ i, m.cut ≤ (c.rank i).cuts

section Calm

variable {inHandler : Fin n → C → Prop}

/-- In a program whose handlers call no other rank, a call to another rank is made by a main
program. -/
theorem Program.Calm.user_of_calls (calm : prog.Calm inHandler)
    (h : (comm cfg prog mem main).Reachable c) {r : Fin n} {m : Rpc n P}
    (calls : Calls prog r (c.rank r) m) (remote : m.Remote) : (c.rank r).pc = .user := by
  obtain ⟨ctx, rest, k, k', run, cmd, src, -⟩ := calls
  cases run with
  | main user => exact user
  | @handler ctx k rest stack =>
      have holds := (calm.outline.of_reachable (fun r m serves => by cases serves) h r).1
      have serves := holds.stack ctx k (by simp [stack])
      have stays := calm.next ctx.rpc.dest k (c.rank r).mem (serves ctx.rpc rfl)
      rw [cmd] at stays
      -- it would be a call of the own rank
      have own : ctx.rpc.dest = r := by
        have routed := ((Sys.routed_of_reachable h).rank r).stack
        rw [stack, List.forall_mem_cons] at routed
        cases ctx with
        | self m => exact (routed.1 m (by simp)).2
        | remote src m tail => exact (routed.1.2 m (by simp)).2
      exact absurd (src.trans (stays.1.trans own).symm) remote

/-- First samples are not taken back, and a call started is one of those before or a new one. -/
theorem Sys.started_step {d : Sys n P σ V C} {a : Action n} (taken : Sys.step cfg prog c a = some d)
    (r : Fin n) : (c.rank r).cuts ≤ (d.rank r).cuts ∧ ∀ m ∈ (d.rank r).started,
      m ∈ (c.rank r).started ∨ Calls prog r (c.rank r) m := by
  rcases Sys.step_cases taken with
    ⟨i, flag, t, sent, -, move, rfl⟩ | ⟨i, src, t, stream, -, receive, rfl⟩
  · by_cases hr : r = i
    · subst hr
      simp only [Function.update_self]
      exact ⟨move.cuts_le, fun m hm => move.started hm⟩
    · simp only [Function.update_of_ne hr]
      exact ⟨le_rfl, fun m hm => .inl hm⟩
  · obtain ⟨listener, queue, eq⟩ := receive.frame r
    simp only [eq]
    exact ⟨le_rfl, fun m hm => .inl hm⟩

theorem early_of_reachable (calm : prog.Calm inHandler)
    (h : (comm cfg prog mem main).Reachable c) : c.Early := by
  refine h.invariant (I := Sys.Early) ?_ ?_
  · intro r m hm
    simp [comm, Rank.init, Rank.started, Rank.handed] at hm
  · intro c a d before inv taken r m hm remote i
    refine le_trans ?_ (Sys.started_step taken i).1
    rcases (Sys.started_step taken r).2 m hm with old | calls
    · exact inv r m old remote i
    · rw [calls.canStart.cut]
      exact Sys.cuts_le_of_user before (calm.user_of_calls before calls remote) i

/-- In a program whose handlers call no other rank, every step from a reachable state is
consistent. -/
theorem Program.Calm.consistent (calm : prog.Calm inHandler)
    (h : (comm cfg prog mem main).Reachable c) (a : Action n) : c.consistent a = true := by
  cases a with
  | listen r src => rfl
  | main r flag =>
      simp only [Sys.consistent]
      split
      · rename_i src m tail rest stack
        have top := ((Sys.routed_of_reachable h).rank r).stack
        rw [stack, List.forall_mem_cons] at top
        obtain ⟨other, between⟩ := top.1
        obtain ⟨from_, to_⟩ := between m (by simp)
        have started : m ∈ ∑ i, (c.rank i).started := by
          rw [Sys.started_eq h]
          refine Multiset.mem_add.mpr (.inr (Sys.unparsed_pending (r := r) ?_))
          simp [Rank.unparsed, stack, Frame.unparsed]
        obtain ⟨i, -, known⟩ := Multiset.mem_sum.mp started
        refine decide_eq_true (early_of_reachable calm h i m known ?_ r)
        rw [Rpc.Remote, from_, to_]
        exact other
      · rfl

/-- In a program whose handlers call no other rank, every run is a run of consistent steps. -/
theorem Program.Calm.reachableBy (calm : prog.Calm inHandler)
    (h : (comm cfg prog mem main).Reachable c) :
    (comm cfg prog mem main).ReachableBy (fun c a => Sys.consistent c a) c := by
  induction h with
  | init => exact .init
  | step before _ taken ih => exact ih.step (calm.consistent before _) taken

/-- **The assertion of `barrier` never fails**, on any rank and in any run, if no handler calls
another rank. -/
theorem calm_never_throws (calm : prog.Calm inHandler)
    (h : (comm cfg prog mem main).Reachable c) :
    (∀ r a b, (c.rank r).pc ≠ .thrown a b) ∧
      ∀ r a b, (c.rank r).pc = .second a b → c.allCount r = some 0 → a = b := by
  obtain ⟨unbroken, agreed⟩ := Sys.agreed_of_reachable (calm.reachableBy h)
  refine ⟨unbroken, fun r a b pc zero => agreed r a b (.inl pc) ?_⟩
  have waits : (c.party r).waiting = some .second := by
    show (c.rank r).pc.waiting = some .second
    rw [pc]
    rfl
  exact (Sys.aligned_of_reachable h).rounds_lt waits zero

end Calm

/-! ## Calls that count -/

/-- The code points of the tests of `test_comm.cpp` that count calls. -/
inductive Tally (n : ℕ)
  /-- About to call the given ranks, one after the other. -/
  | calls (dests : List (Fin n))
  /-- The main program behind the barrier, about to test its counter. -/
  | check
  /-- The handler, about to increment the counter. -/
  | count
deriving DecidableEq

/-- **Calls of ranks, and a barrier.**  The memory is the counter that the handler increments;
what is packed is the offset and the four bytes of the pointer to it. -/
def tally (n : ℕ) : Program n Unit ℕ Unit (Tally n) where
  next code counter :=
    match code with
    | .calls [] => .barrier .check
    | .calls (dest :: dests) => .async dest () (.calls dests)
    | .check => .ret counter
    | .count => .ret (counter + 1)
  handler _ _ := .count
  packedSize _ := 12
  offset_le _ := by decide
  combine _ := ()

theorem tally_calm (n : ℕ) : (tally n).Calm fun _ code => code = .count := by
  refine ⟨fun _ _ _ => rfl, ?_⟩
  rintro r _ mem rfl
  trivial

/-- A state of a run in which both ranks call each other and rank 1 has passed its barrier. -/
def tallied : Sys 2 Unit ℕ Unit (Tally 2) :=
  (comm ⟨16, true⟩ (tally 2) (fun _ => 0) fun _ => .calls [0, 1]).drive (fun _ _ => True)
    (comm ⟨16, true⟩ (tally 2) (fun _ => 0) fun _ => .calls [0, 1]).init
    (List.replicate 60 [.main 0 true, .main 1 true, .listen 0 1, .listen 1 0]).flatten

theorem calm_never_throws_tally :
    (∀ r, (tallied.rank r).mem = 2 ∧ (tallied.rank r).epoch = 1) ∧
      (∀ r a b, (tallied.rank r).pc ≠ .thrown a b) ∧
        ∀ r a b, (tallied.rank r).pc = .second a b → tallied.allCount r = some 0 → a = b :=
  ⟨by decide +kernel, calm_never_throws (tally_calm 2) (Machine.ReachableBy.init.drive _)⟩

end YGM
