import YGM.Comm.Barrier

/-!
# What user code can be relied on

The rules by which facts about user code are carried through a run.

An `Outline` says which code points occur in the main programs and in the handler of
which call, and which calls are made.  It has to be closed under the commands of the
program; then it holds of every activation in every state
(`Outline.of_reachable`), whatever the interleaving.

`Outline.memory` is the rule for the memory of a rank: only an `update` and the return
of a handler change it, so what these keep, together with the list of calls executed so
far, holds in every state.

`Rank.Fresh` is about code that is only reached from `barrier`: when it runs on a rank, every
call of an earlier epoch has been executed and none of the current one has been executed
there (`fresh_of_reachable`).
-/

namespace YGM

variable {n : ℕ} {P σ V C : Type}

/-- A command keeps to the outline if the code points it leads to and the call it makes are
among those that the outline allows for code run for `cause`. -/
def Cmd.Keeps (code : Option (Rpc n P) → C → Prop) (call : Fin n → P → Prop)
    (cause : Option (Rpc n P)) : Cmd n P σ V C → Prop
  | .ret _ => True
  | .update _ k | .asyncFlush _ k | .asyncFlushAll k => code cause k
  | .async dest payload k => call dest payload ∧ code cause k
  | .barrier k | .kill k => cause = none → code none k
  | .allReduce _ k => cause = none → ∀ value, code none (k value)

/-- **An outline of user code**: `code none k` says that `k` may occur in a main program,
`code (some m) k` that it may occur in the handler of `m`. -/
structure Outline (prog : Program n P σ V C) where
  code : Option (Rpc n P) → C → Prop
  call : Fin n → P → Prop
  start : ∀ m, call m.dest m.payload → code (some m) (prog.handler m.src m.payload)
  next : ∀ cause k mem, code cause k → (prog.next k mem).Keeps code call cause

/-- **The outline holds of a rank**: every code point in its main program, behind its reduction
and on its stack is one that the outline allows there. -/
structure Outline.Holds {prog : Program n P σ V C} (o : Outline prog)
    (s : Rank n P σ V C) : Prop where
  main : o.code none s.code
  reduce : ∀ k, s.pc = .reduce k → ∀ value, o.code none (k value)
  stack : ∀ ctx k, .user ctx k ∈ s.stack → o.code (some ctx.rpc) k

variable {cfg : Config} {prog : Program n P σ V C} {o : Outline prog}

/-! ## One move -/

section Move

variable {r : Fin n} {w : View n V} {s t : Rank n P σ V C}
variable {sent : Option (Fin n × Packet n P)}

/-- A call that a move starts is one that user code makes in that move. -/
theorem Move.started (move : Move cfg prog r w s t sent) {m : Rpc n P}
    (hm : m ∈ t.started) : m ∈ s.started ∨ Calls prog r s m := by
  obtain ⟨new, started, -, calls⟩ := move.starts
  rw [started] at hm
  rcases Multiset.mem_add.mp hm with hm | hm
  · exact .inl hm
  · exact .inr (calls m hm)

/-- The call for which the running code is run; the main program is run for none. -/
def cause (ctx : Option (Ctx n P)) : Option (Rpc n P) :=
  ctx.map Ctx.rpc

theorem Outline.Holds.running (h : o.Holds s) {ctx : Option (Ctx n P)}
    {rest : List (Frame n P C)} {k : C} (run : Running s ctx rest k) :
    o.code (cause ctx) k := by
  cases run with
  | main pc stack => exact h.main
  | handler stack => exact h.stack _ _ (by simp [stack])

/-- Running code of a rank on which the outline holds keeps to the outline with its next
command. -/
theorem Outline.Holds.keeps (h : o.Holds s) {ctx : Option (Ctx n P)}
    {rest : List (Frame n P C)} {k : C} (run : Running s ctx rest k) :
    (prog.next k s.mem).Keeps o.code o.call (cause ctx) :=
  o.next _ _ _ (h.running run)

theorem Outline.Holds.calls (h : o.Holds s) {m : Rpc n P} (calls : Calls prog r s m) :
    o.call m.dest m.payload := by
  obtain ⟨ctx, rest, k, k', run, cmd, -⟩ := calls
  have keeps := h.keeps run
  rw [cmd] at keeps
  exact keeps.1

/-- The outline still holds of a rank after a move that brings no new code point onto the rank. -/
theorem Outline.Holds.of_eq (h : o.Holds s) (code : t.code = s.code)
    (pc : ∀ k, t.pc = .reduce k → s.pc = .reduce k)
    (stack : ∀ ctx k, .user ctx k ∈ t.stack → .user ctx k ∈ s.stack) : o.Holds t := by
  refine ⟨?_, fun k hk => h.reduce k (pc k hk), fun ctx k hk => h.stack ctx k (stack ctx k hk)⟩
  rw [code]
  exact h.main

/-- The outline still holds of a rank when its running code goes on at a code point that the
outline allows. -/
theorem Outline.Holds.resume (h : o.Holds s) {ctx : Option (Ctx n P)}
    {rest : List (Frame n P C)} {k : C} (run : Running s ctx rest k) {k' : C}
    (next : o.code (cause ctx) k') : o.Holds (s.resume ctx rest k') := by
  cases run with
  | main pc stack => exact ⟨next, h.reduce, by simp [Rank.resume]⟩
  | @handler ctx k rest stack =>
      refine ⟨h.main, h.reduce, fun ctx' k'' hk => ?_⟩
      rcases List.mem_cons.mp hk with hk | hk
      · cases hk
        exact next
      · exact h.stack ctx' k'' (by simp [stack, hk])

/-- The outline still holds of a rank when activations are added whose handlers start where the
outline allows. -/
theorem Outline.Holds.call (h : o.Holds s) {frames : List (Frame n P C)}
    (new : ∀ ctx k, .user ctx k ∈ frames → o.code (some ctx.rpc) k) :
    o.Holds (s.call frames) := by
  refine ⟨h.main, h.reduce, fun ctx k hk => ?_⟩
  rcases List.mem_append.mp hk with hk | hk
  · exact new ctx k hk
  · exact h.stack ctx k hk

/-- **A move keeps to the outline**, provided that the calls about to be parsed on the rank do. -/
theorem Outline.Holds.move (h : o.Holds s) (routed : s.Routed r)
    (unparsed : ∀ m ∈ s.unparsed, o.call m.dest m.payload)
    (move : Move cfg prog r w s t sent) : o.Holds t := by
  cases move with
  | @update ctx rest k k' mem run cmd =>
      have keeps := h.keeps run
      rw [cmd] at keeps
      exact (h.resume run keeps).of_eq (by cases ctx <;> rfl) (by simp) (by cases ctx <;> simp [Rank.resume])
  | @asyncSelf ctx rest k k' payload m run cmd call =>
      have keeps := h.keeps run
      rw [cmd] at keeps
      subst call
      refine ((h.resume run keeps.2).of_eq (by cases ctx <;> rfl) (by simp)
        (by cases ctx <;> simp [Rank.resume])).call ?_
      simpa [Ctx.rpc] using o.start _ keeps.1
  | @asyncRemote ctx rest k k' dest payload m frames run cmd call remote path =>
      have keeps := h.keeps run
      rw [cmd] at keeps
      refine ((h.resume run keeps.2).of_eq (by cases ctx <;> rfl) (by simp)
        (by cases ctx <;> simp [Rank.resume])).call ?_
      cases path <;> simp
  | @callFlush ctx rest k k' frame run cmd =>
      have keeps := h.keeps run
      refine (h.resume run ?_).call ?_
      · rcases cmd with ⟨dest, cmd, -⟩ | ⟨cmd, -⟩ <;>
        · rw [cmd] at keeps
          exact keeps
      · rcases cmd with ⟨dest, -, rfl⟩ | ⟨-, rfl⟩ <;> simp
  | @barrier k pc stack cmd =>
      have keeps := h.keeps (.main pc stack)
      rw [cmd] at keeps
      exact ⟨keeps rfl, by simp, by simp⟩
  | @reduce value k pc stack cmd =>
      have keeps := h.keeps (.main pc stack)
      rw [cmd] at keeps
      refine ⟨h.main, fun k' hk => ?_, by simp [stack]⟩
      cases hk
      exact keeps rfl
  | reduced pc stack result => exact ⟨h.reduce _ pc _, by simp, by simp [stack]⟩
  | @kill k pc stack cmd =>
      have keeps := h.keeps (.main pc stack)
      rw [cmd] at keeps
      exact ⟨keeps rfl, by simp, by simp [stack]⟩
  | @parse src m tail rest stack =>
      have top := routed.stack
      rw [stack, List.forall_mem_cons] at top
      obtain ⟨hsrc, -⟩ := top.1.2 m (by simp)
      have call := unparsed m (by simp [Rank.unparsed, stack, Frame.unparsed])
      refine ⟨h.main, h.reduce, fun ctx k hk => ?_⟩
      rcases List.mem_cons.mp hk with hk | hk
      · cases hk
        rw [← hsrc]
        exact o.start m call
      · exact h.stack ctx k (by simp [stack, hk])
  | @silent frame frames rest received stack old new sends done =>
      refine h.of_eq rfl (fun _ => id) fun ctx k hk => ?_
      rcases List.mem_append.mp hk with hk | hk
      · exact (new _ hk).elim
      · simp [stack, hk]
  | _ => exact h.of_eq rfl (by simp [Rank.finish, *]) (by simp_all [Rank.finish])

/-- **The effect of a move on the memory**: there is none, or it is the one that the command of
the running code gives. -/
theorem Move.memory (move : Move cfg prog r w s t sent) :
    (t.mem = s.mem ∧ t.executed = s.executed) ∨
    (∃ ctx rest k k', Running s ctx rest k ∧ prog.next k s.mem = .update t.mem k' ∧
      t.executed = s.executed) ∨
    ∃ ctx rest k e, s.stack = .user ctx k :: rest ∧ prog.next k s.mem = .ret t.mem ∧
      e.rpc = ctx.rpc ∧ t.executed = s.executed ++ [e] := by
  cases move with
  | retSelf stack cmd => exact .inr (.inr ⟨_, _, _, _, stack, cmd, rfl, rfl⟩)
  | retRemote stack cmd => exact .inr (.inr ⟨_, _, _, _, stack, cmd, rfl, rfl⟩)
  | @update ctx rest k k' mem run cmd =>
      exact .inr (.inl ⟨ctx, rest, k, k', run, by simpa using cmd, by simp⟩)
  | _ => exact .inl (by simp [Rank.call])

end Move

theorem Receive.keeps_outline {r src : Fin n} {s t : Rank n P σ V C}
    {stream stream' : List (Packet n P)}
    (receive : Receive cfg prog r src s stream t stream') (h : o.Holds s) : o.Holds t := by
  rw [receive.quiet]
  exact ⟨h.main, h.reduce, h.stack⟩

/-! ## Runs -/

variable {mem : Fin n → σ} {main : Fin n → C} {c : Sys n P σ V C}

/-- **An outline holds in every state**: of all activations on all ranks, and of all calls that
have been started. -/
theorem Outline.of_reachable (start : ∀ r, o.code none (main r))
    (h : (comm cfg prog mem main).Reachable c) :
    ∀ r, o.Holds (c.rank r) ∧ ∀ m ∈ (c.rank r).started, o.call m.dest m.payload := by
  refine h.invariant (I := fun c => ∀ r, o.Holds (c.rank r) ∧
    ∀ m ∈ (c.rank r).started, o.call m.dest m.payload) ?_ ?_
  · intro r
    refine ⟨⟨start r, by simp [comm, Rank.init], by simp [comm, Rank.init]⟩, ?_⟩
    simp [comm, Rank.init, Rank.started, Rank.handed]
  · intro c a d before inv taken i
    rcases Sys.step_cases taken with
      ⟨r, flag, t, sent, -, move, rfl⟩ | ⟨r, src, t, stream, -, receive, rfl⟩
    · by_cases hi : i = r
      · subst hi
        have unparsed : ∀ m ∈ (c.rank i).unparsed, o.call m.dest m.payload := by
          intro m hm
          have issued : m ∈ c.issued := by
            rw [Sys.conservation before, Sys.unfinished]
            have : m ∈ c.unparsed := Multiset.mem_sum.mpr ⟨i, Finset.mem_univ i, hm⟩
            simp [this]
          obtain ⟨j, -, hj⟩ := Multiset.mem_sum.mp issued
          exact (inv j).2 m (Multiset.mem_add.mpr (.inl hj))
        refine ⟨?_, fun m hm => ?_⟩
        · simpa using (inv i).1.move ((Sys.routed_of_reachable before).rank i) unparsed move
        · rcases move.started (by simpa using hm) with old | calls
          · exact (inv i).2 m old
          · exact (inv i).1.calls calls
      · simpa [hi] using inv i
    · by_cases hi : i = r
      · subst hi
        simp only [Function.update_self]
        refine ⟨receive.keeps_outline (inv i).1, fun m hm => ?_⟩
        rw [receive.quiet] at hm
        exact (inv i).2 m hm
      · simpa [hi] using inv i

/-- **An invariant of the memory** and the calls executed so far, which the code of a rank
keeps: each computation keeps `I`, and each return of a handler extends it by the call that is
finished. -/
structure Outline.Memory (o : Outline prog) (I : Fin n → List (Exec n P) → σ → Prop) :
    Prop where
  update : ∀ r done mem cause k mem' k', I r done mem → o.code cause k →
    prog.next k mem = .update mem' k' → I r done mem'
  ret : ∀ r done mem m k mem' e, I r done mem → o.code (some m) k → m.dest = r →
    prog.next k mem = .ret mem' → e.rpc = m → e.src = m.src → I r (done ++ [e]) mem'

/-- **The memory rule**: what the code of each rank keeps holds of the rank's memory and its
executed calls in every reachable state. -/
theorem Outline.memory {I : Fin n → List (Exec n P) → σ → Prop} (keeps : o.Memory I)
    (start : ∀ r, o.code none (main r)) (init : ∀ r, I r [] (mem r))
    (h : (comm cfg prog mem main).Reachable c) (r : Fin n) :
    I r (c.rank r).executed (c.rank r).mem := by
  refine h.invariant (I := fun c => ∀ r, I r (c.rank r).executed (c.rank r).mem) init ?_ r
  intro c a d before inv taken i
  have outlined := o.of_reachable start before
  rcases Sys.step_cases taken with
    ⟨r, flag, t, sent, -, move, rfl⟩ | ⟨r, src, t, stream, -, receive, rfl⟩
  · by_cases hi : i = r
    · subst hi
      simp only [Function.update_self]
      rcases move.memory with ⟨same, executed⟩ | ⟨ctx, rest, k, k', run, cmd, executed⟩ |
        ⟨ctx, rest, k, e, stack, cmd, rpc, executed⟩
      · rw [same, executed]
        exact inv i
      · rw [executed]
        exact keeps.update _ _ _ _ _ _ _ (inv i) ((outlined i).1.running run) cmd
      · have after := (Sys.routed_of_reachable (before.step taken)).rank i
        obtain ⟨src, dest⟩ := after.executed e (by simp [executed])
        rw [executed]
        refine keeps.ret _ _ _ _ _ _ _ (inv i)
          ((outlined i).1.stack ctx k (by simp [stack])) ?_ cmd rpc ?_
        · rw [← rpc, dest]
        · rw [src, rpc]
    · simpa [hi] using inv i
  · obtain ⟨listener, queue, eq⟩ := receive.frame i
    simp only [eq]
    exact inv i

/-! ## Code behind a barrier -/

/-- A command avoids `fresh` code if it leads to such code through a barrier at most. -/
def Cmd.Avoids (fresh : C → Prop) : Cmd n P σ V C → Prop
  | .ret _ | .barrier _ => True
  | .update _ k | .async _ _ k | .asyncFlush _ k | .asyncFlushAll k | .kill k => ¬ fresh k
  | .allReduce _ k => ∀ value, ¬ fresh (k value)

theorem Cmd.Avoids.mono {fresh fresh' : C → Prop} {cmd : Cmd n P σ V C} (h : cmd.Avoids fresh)
    (less : ∀ k, fresh' k → fresh k) : cmd.Avoids fresh' := by
  cases cmd with
  | ret | barrier => trivial
  | allReduce value k => exact fun out isFresh => h out (less _ isFresh)
  | update mem k | async dest p k | asyncFlush dest k | asyncFlushAll k | kill k =>
      exact fun isFresh => h (less _ isFresh)

/-- **A rank and its fresh code**: such code runs with an empty stack, right after a barrier,
when every call executed on the rank belongs to an earlier epoch. -/
structure Rank.Fresh (fresh : C → Prop) (s : Rank n P σ V C) : Prop where
  user : s.pc = .user → fresh s.code → s.stack = [] ∧ ∀ e ∈ s.executed, e.epoch < s.epoch
  reduce : ∀ k, s.pc = .reduce k → ∀ value, ¬ fresh (k value)
  join : s.pc = .join → ¬ fresh s.code

theorem Rank.Fresh.resume {fresh : C → Prop} {s : Rank n P σ V C} (h : s.Fresh fresh)
    {ctx : Option (Ctx n P)} {rest : List (Frame n P C)} {k k' : C}
    (run : Running s ctx rest k) (stale : ¬ fresh k') {t : Rank n P σ V C}
    (pc : t.pc = s.pc) (code : t.code = (s.resume ctx rest k').code) : t.Fresh fresh := by
  cases run with
  | main user stack =>
      have here : t.code = k' := code
      rw [user] at pc
      refine ⟨fun _ isFresh => absurd (here ▸ isFresh) stale, ?_, ?_⟩ <;> simp [pc]
  | handler stack =>
      have here : t.code = s.code := code
      refine ⟨fun user isFresh => ?_, ?_, ?_⟩
      · rw [pc] at user
        rw [here] at isFresh
        simp [(h.user user isFresh).1] at stack
      · rw [pc]
        exact h.reduce
      · rw [pc, here]
        exact h.join

theorem Move.fresh {fresh : C → Prop}
    (avoids : ∀ cause k mem, o.code cause k → (prog.next k mem).Avoids fresh)
    {r : Fin n} {w : View n V} {s t : Rank n P σ V C} {sent : Option (Fin n × Packet n P)}
    (move : Move cfg prog r w s t sent) (holds : o.Holds s) (h : s.Fresh fresh)
    (executed : ∀ e ∈ s.executed, e.epoch ≤ s.epoch) : t.Fresh fresh := by
  cases move with
  | @update ctx rest k k' mem run cmd =>
      have stale := avoids _ k s.mem (holds.running run)
      rw [cmd] at stale
      exact h.resume run stale (by simp) (by cases ctx <;> rfl)
  | @asyncSelf ctx rest k k' payload m run cmd call =>
      have stale := avoids _ k s.mem (holds.running run)
      rw [cmd] at stale
      exact h.resume run stale (by simp [Rank.call]) (by cases ctx <;> rfl)
  | @asyncRemote ctx rest k k' dest payload m frames run cmd call remote path =>
      have stale := avoids _ k s.mem (holds.running run)
      rw [cmd] at stale
      exact h.resume run stale (by simp [Rank.call]) (by cases ctx <;> rfl)
  | @callFlush ctx rest k k' frame run cmd =>
      have stale := avoids _ k s.mem (holds.running run)
      refine h.resume run ?_ (by simp [Rank.call]) (by cases ctx <;> rfl)
      rcases cmd with ⟨dest, cmd, -⟩ | ⟨cmd, -⟩ <;>
      · rw [cmd] at stale
        exact stale
  | @reduce value k pc stack cmd =>
      have stale := avoids none s.code s.mem holds.main
      rw [cmd] at stale
      refine ⟨by simp, fun k' hk => ?_, by simp⟩
      cases hk
      exact stale
  | @reduced value k pc stack result =>
      exact ⟨fun _ isFresh => absurd isFresh (h.reduce k pc value), by simp, by simp⟩
  | @kill k pc stack cmd =>
      have stale := avoids none s.code s.mem holds.main
      rw [cmd] at stale
      exact ⟨by simp, by simp, fun _ => stale⟩
  | joined pc stack stopped =>
      exact ⟨fun _ isFresh => absurd isFresh (h.join pc), by simp, by simp⟩
  | leave pc stack zero agree =>
      refine ⟨fun _ _ => ⟨stack, fun e he => ?_⟩, by simp, by simp⟩
      exact Nat.lt_succ_of_le (executed e he)
  | barrier | sample | pending | confirm | retry | throw => exact ⟨by simp, by simp, by simp⟩
  | _ =>
      -- an activation moves, so the code of the main program is not fresh
      refine ⟨fun pc isFresh => ?_, h.reduce, h.join⟩
      have idle := (h.user pc isFresh).1
      simp [*] at idle

theorem freshRank_of_reachable {fresh : C → Prop}
    (avoids : ∀ cause k mem, o.code cause k → (prog.next k mem).Avoids fresh)
    (codes : ∀ r, o.code none (main r)) (start : ∀ r, ¬ fresh (main r))
    (h : (comm cfg prog mem main).Reachable c) (r : Fin n) : (c.rank r).Fresh fresh := by
  refine h.invariant (I := fun c => ∀ r, (c.rank r).Fresh fresh) ?_ ?_ r
  · intro r
    exact ⟨fun _ isFresh => absurd isFresh (start r), by simp [comm, Rank.init],
      by simp [comm, Rank.init]⟩
  · intro c a d before inv taken i
    have executed := (Sys.epochs_of_reachable before).executed i
    have holds := (o.of_reachable codes before i).1
    rcases Sys.step_cases taken with
      ⟨r, flag, t, sent, -, move, rfl⟩ | ⟨r, src, t, stream, -, receive, rfl⟩
    · by_cases hi : i = r
      · subst hi
        simpa using move.fresh avoids holds (inv i) fun e he => (executed e he).2
      · simpa [hi] using inv i
    · obtain ⟨listener, queue, eq⟩ := receive.frame i
      simp only [eq]
      exact ⟨(inv i).user, (inv i).reduce, (inv i).join⟩

/-- **Fresh code runs between two epochs**: every call of an earlier epoch has been
executed, wherever it was addressed to, and no call of the current epoch or a later one
has been executed on this rank. -/
theorem fresh_of_reachable {fresh : C → Prop}
    (avoids : ∀ cause k mem, o.code cause k → (prog.next k mem).Avoids fresh)
    (codes : ∀ r, o.code none (main r)) (start : ∀ r, ¬ fresh (main r))
    (h : (comm cfg prog mem main).Reachable c) {r : Fin n} (pc : (c.rank r).pc = .user)
    (code : fresh (c.rank r).code) :
    (c.rank r).stack = [] ∧ Quiescent c (c.rank r).epoch ∧
      ∀ e ∈ (c.rank r).executed, e.rpc.epoch < (c.rank r).epoch := by
  obtain ⟨stack, executed⟩ := (freshRank_of_reachable avoids codes start h r).user pc code
  refine ⟨stack, .of_pending h fun m => Sys.epoch_le_of_pending h r, fun e he => ?_⟩
  rw [← ((Sys.epochs_of_reachable h).executed r e he).1]
  exact executed e he

end YGM
