import YGM.Comm.Outline

/-!
# Activations of user code

The main program and the handlers that are on the stack of a rank are its activations of
user code.  At most one of them, the innermost, is running (`Rank.running`); the others
wait for what they called.

`Acts` is what a move looks like to somebody who only follows user code: which code points
the activations are at, the memory, and the calls started.  `Move.acts` says that the list
is complete.  Facts about code that other code can interrupt are proved from it.
-/

namespace YGM

variable {n : ℕ} {P σ V C : Type}

/-- The code point at which an activation of user code is; other activations have none. -/
def Frame.code? : Frame n P C → Option C
  | .user _ k => some k
  | _ => none

namespace Rank

variable (s : Rank n P σ V C)

/-- The code that the next step of the rank runs, if that step runs user code. -/
def running : Option C :=
  match s.stack, s.pc with
  | .user _ k :: _, _ => some k
  | [], .user => some s.code
  | _, _ => none

/-- **The code points of all activations**, innermost first. -/
def codes : List C :=
  s.stack.filterMap Frame.code? ++ [s.code]

/-- The code points of the activations that are not running, because they wait for what they
called. -/
def waiting : List C :=
  if s.running.isSome then s.codes.tail else s.codes

end Rank

theorem Frame.Silent.code? {frame : Frame n P C} (h : frame.Silent) : frame.code? = none := by
  cases frame <;> first | rfl | exact h.elim

theorem filterMap_silent {frames : List (Frame n P C)} (h : ∀ f ∈ frames, f.Silent) :
    frames.filterMap Frame.code? = [] :=
  List.filterMap_eq_nil_iff.mpr fun f hf => (h f hf).code?

section Running

variable {s : Rank n P σ V C} {ctx : Option (Ctx n P)} {rest : List (Frame n P C)} {k : C}

theorem Running.running (run : Running s ctx rest k) : s.running = some k := by
  cases run with
  | main pc stack => simp [Rank.running, stack, pc]
  | handler stack => simp [Rank.running, stack]

theorem Running.codes (run : Running s ctx rest k) : s.codes = k :: s.waiting := by
  rw [Rank.waiting, run.running]
  cases run with
  | main pc stack => simp [Rank.codes, stack]
  | handler stack => simp [Rank.codes, stack, Frame.code?]

/-- The code points of a rank are that of the running activation, which is the innermost one,
and those of the waiting activations. -/
theorem Rank.codes_eq (s : Rank n P σ V C) : s.codes = s.running.toList ++ s.waiting := by
  cases running : s.running with
  | none => simp [Rank.waiting, running]
  | some k =>
      have run : ∃ ctx rest, Running s ctx rest k := by
        cases stack : s.stack with
        | nil =>
            cases pc : s.pc <;> simp only [Rank.running, stack, pc, Option.some.injEq] at running
            · exact running ▸ ⟨_, _, .main pc stack⟩
            all_goals cases running
        | cons frame rest =>
            cases frame <;> simp only [Rank.running, stack, Option.some.injEq] at running
            · exact running ▸ ⟨_, _, .handler stack⟩
            all_goals cases running
      obtain ⟨ctx, rest, run⟩ := run
      exact run.codes

/-- When the running code goes on at `k'`, the code points are `k'` and those that were waiting. -/
theorem Running.resume_codes (run : Running s ctx rest k) (k' : C) :
    (s.resume ctx rest k').codes = k' :: s.waiting := by
  rw [Rank.waiting, run.running]
  cases run with
  | main pc stack => simp [Rank.codes, Rank.resume, stack]
  | handler stack => simp [Rank.codes, Rank.resume, stack, Frame.code?]

theorem Running.resume_running (run : Running s ctx rest k) (k' : C) :
    (s.resume ctx rest k').running = some k' := by
  cases run with
  | main pc stack => simp [Rank.running, Rank.resume, pc]
  | handler stack => simp [Rank.running, Rank.resume]

end Running

theorem Rank.waiting_of_running {s : Rank n P σ V C} {k : C} {codes : List C}
    (running : s.running = some k) (h : s.codes = k :: codes) : s.waiting = codes := by
  rw [Rank.waiting, running, h]
  rfl

theorem Rank.waiting_of_idle {s : Rank n P σ V C} (idle : s.running = none) :
    s.waiting = s.codes := by
  simp [Rank.waiting, idle]

/-- **A move, as user code sees it**: the list of what can happen to the code points, the memory
and the calls started. -/
inductive Acts (prog : Program n P σ V C) (r : Fin n) (s t : Rank n P σ V C) : Prop
  /-- No activation moves; one may be the innermost again. -/
  | quiet (idle : s.running = none) (codes : t.codes = s.codes) (mem : t.mem = s.mem)
      (started : t.started = s.started)
  /-- The handler of a call received from another rank starts. -/
  | start (m : Rpc n P) (idle : s.running = none) (received : m ∈ s.unparsed)
      (codes : t.codes = prog.handler m.src m.payload :: s.codes)
      (running : t.running = some (prog.handler m.src m.payload)) (mem : t.mem = s.mem)
      (started : t.started = s.started)
  /-- A reduction on `m_comm_other` has completed, and the main program goes on with its result. -/
  | reduced (value : V) (k : V → C) (pc : s.pc = .reduce k) (idle : s.running = none)
      (before : s.codes = [s.code]) (codes : t.codes = [k value])
      (running : t.running = some (k value)) (mem : t.mem = s.mem)
      (started : t.started = s.started)
  /-- A handler returns; what waited may be the innermost activation again. -/
  | ret (k : C) (running : s.running = some k) (cmd : prog.next k s.mem = .ret t.mem)
      (codes : t.codes = s.waiting) (started : t.started = s.started)
  | update (k k' : C) (running : s.running = some k)
      (cmd : prog.next k s.mem = .update t.mem k') (codes : t.codes = k' :: s.waiting)
      (after : t.running = some k') (started : t.started = s.started)
  /-- Running code issues a call to another rank, and waits until `async` returns. -/
  | remote (k k' : C) (m : Rpc n P) (running : s.running = some k) (src : m.src = r)
      (cmd : prog.next k s.mem = .async m.dest m.payload k')
      (codes : t.codes = k' :: s.waiting) (idle : t.running = none) (mem : t.mem = s.mem)
      (started : t.started = s.started + {m})
  /-- A call of the own rank, whose handler starts at once. -/
  | self (k k' : C) (m : Rpc n P) (running : s.running = some k) (src : m.src = r)
      (dest : m.dest = r) (cmd : prog.next k s.mem = .async m.dest m.payload k')
      (codes : t.codes = prog.handler r m.payload :: k' :: s.waiting)
      (after : t.running = some (prog.handler r m.payload)) (mem : t.mem = s.mem)
      (started : t.started = s.started + {m})
  /-- A call of the communicator that does something before the code goes on. -/
  | leave (k k' : C) (running : s.running = some k)
      (cmd : (∃ dest, prog.next k s.mem = .asyncFlush dest k') ∨
        prog.next k s.mem = .asyncFlushAll k' ∨
        prog.next k s.mem = .barrier k' ∨ prog.next k s.mem = .kill k')
      (codes : t.codes = k' :: s.waiting) (idle : t.running = none) (mem : t.mem = s.mem)
      (started : t.started = s.started)
  | reduce (value : V) (k : V → C) (running : s.running = some s.code)
      (cmd : prog.next s.code s.mem = .allReduce value k) (pc : t.pc = .reduce k)
      (before : s.codes = [s.code]) (codes : t.codes = s.codes) (idle : t.running = none)
      (mem : t.mem = s.mem) (started : t.started = s.started)

section Complete

variable {cfg : Config} {prog : Program n P σ V C} {r : Fin n} {w : View n V}
variable {s t : Rank n P σ V C} {sent : Option (Fin n × Packet n P)}

theorem Running.started {ctx : Option (Ctx n P)} {rest : List (Frame n P C)} {k : C}
    (run : Running s ctx rest k) (k' : C) : (s.resume ctx rest k').started = s.started := by
  simp [Rank.started, Rank.handed, run.flatMap_handed]

/-- When a handler returns, its code point leaves the rank and the memory is what it returns. -/
theorem Acts.of_ret {ctx : Ctx n P} {rest : List (Frame n P C)} {k : C}
    (stack : s.stack = .user ctx k :: rest) (cmd : prog.next k s.mem = .ret t.mem)
    (code : t.code = s.code) (codes : t.stack.filterMap Frame.code? = rest.filterMap Frame.code?)
    (issued : t.issued = s.issued)
    (handed : t.stack.flatMap Frame.handed = rest.flatMap Frame.handed) : Acts prog r s t := by
  have run : Running s (some ctx) rest k := .handler stack
  refine .ret k run.running cmd ?_ ?_
  · rw [Rank.waiting, run.running]
    simp [Rank.codes, stack, Frame.code?, codes, code]
  · simp [Rank.started, Rank.handed, issued, handed, stack, Frame.handed]

/-- A move that adds and removes only activations without user code is a quiet one. -/
theorem Acts.of_quiet (idle : s.running = none) (code : t.code = s.code) (mem : t.mem = s.mem)
    (codes : t.stack.filterMap Frame.code? = s.stack.filterMap Frame.code?)
    (started : t.started = s.started) : Acts prog r s t :=
  .quiet idle (by rw [Rank.codes, codes, code, Rank.codes]) mem started

theorem Rank.call_codes (frames : List (Frame n P C)) :
    (s.call frames).codes = frames.filterMap Frame.code? ++ s.codes := by
  simp [Rank.codes, Rank.call]

/-- The list of `Acts` is complete: every move is one of its cases. -/
theorem Move.acts (routed : s.Routed r) (move : Move cfg prog r w s t sent) :
    Acts prog r s t := by
  cases move with
  | retSelf stack cmd => exact .of_ret stack cmd rfl rfl rfl rfl
  | retRemote stack cmd =>
      exact .of_ret stack cmd rfl (by simp [Rank.finish, Frame.code?, List.filterMap_cons]) rfl
        (by simp [Rank.finish, Frame.handed])
  | @update ctx rest k k' mem run cmd =>
      refine .update k k' run.running (by simpa using cmd) ?_ ?_ ?_
      · rw [← run.resume_codes k']
        cases ctx <;> rfl
      · rw [← run.resume_running k']
        cases ctx <;> rfl
      · rw [← run.started k']
        cases ctx <;> rfl
  | @asyncSelf ctx rest k k' payload m run cmd call =>
      have starts := run.started_self (m := m) k' (prog.handler r payload)
      have codes : (({ s with issued := s.issued ++ [m] }).resume ctx rest k').codes
          = k' :: s.waiting := by
        rw [← run.resume_codes k']
        cases ctx <;> rfl
      subst call
      refine .self k k' _ run.running rfl rfl cmd ?_ rfl (by simp [Rank.call]) starts
      rw [Rank.call_codes, codes]
      simp [Frame.code?, List.filterMap_cons]
  | @asyncRemote ctx rest k k' dest payload m frames run cmd call remote path =>
      have starts := run.started_remote k' path (s.sendCount + 1)
        (s.localBytesSent + prog.packedSize payload)
      have silent : frames.filterMap Frame.code? = [] := by
        cases path <;> simp [Frame.code?, List.filterMap_cons]
      have idle : Rank.running ((({ s with
          sendCount := s.sendCount + 1
          localBytesSent := s.localBytesSent + prog.packedSize payload }).resume
            ctx rest k').call frames) = none := by
        cases path <;> rfl
      have codes : (({ s with
          sendCount := s.sendCount + 1
          localBytesSent := s.localBytesSent + prog.packedSize payload }).resume
            ctx rest k').codes = k' :: s.waiting := by
        rw [← run.resume_codes k']
        cases ctx <;> rfl
      subst call
      refine .remote k k' _ run.running rfl cmd ?_ idle (by simp [Rank.call]) starts
      rw [Rank.call_codes, codes, silent]
      rfl
  | @callFlush ctx rest k k' frame run cmd =>
      have silent : frame.code? = none ∧ frame.handed = [] := by
        rcases cmd with ⟨dest, -, rfl⟩ | ⟨-, rfl⟩ <;> exact ⟨rfl, rfl⟩
      refine .leave k k' run.running ?_ ?_ ?_ (by simp [Rank.call]) ?_
      · rcases cmd with ⟨dest, cmd, -⟩ | ⟨cmd, -⟩
        · exact .inl ⟨dest, cmd⟩
        · exact .inr (.inl cmd)
      · rw [Rank.call_codes, run.resume_codes]
        simp [silent.1]
      · rcases cmd with ⟨dest, -, rfl⟩ | ⟨-, rfl⟩ <;> rfl
      · rw [← run.started k']
        simp [Rank.started, Rank.handed, Rank.call, silent.2]
  | @barrier k pc stack cmd =>
      have run : Running s none [] s.code := .main pc stack
      refine .leave s.code k run.running (.inr (.inr (.inl cmd))) ?_ rfl rfl ?_
      · rw [Rank.waiting, run.running]
        simp [Rank.codes, stack, Frame.code?, List.filterMap_cons]
      · simp [Rank.started, Rank.handed, stack, Frame.handed]
  | @kill k pc stack cmd =>
      have run : Running s none [] s.code := .main pc stack
      refine .leave s.code k run.running (.inr (.inr (.inr cmd))) ?_ ?_ rfl rfl
      · rw [Rank.waiting, run.running]
        simp [Rank.codes, stack]
      · simp [Rank.running, stack]
  | @reduce value k pc stack cmd =>
      have run : Running s none [] s.code := .main pc stack
      refine .reduce value k run.running cmd rfl ?_ rfl ?_ rfl rfl
      · simp [Rank.codes, stack]
      · simp [Rank.running, stack]
  | @reduced value k pc stack result =>
      refine .reduced value k pc ?_ ?_ ?_ ?_ rfl rfl
      · simp [Rank.running, stack, pc]
      · simp [Rank.codes, stack]
      · simp [Rank.codes, stack]
      · simp [Rank.running, stack]
  | @parse src m tail rest stack =>
      have top := routed.stack
      rw [stack, List.forall_mem_cons] at top
      obtain ⟨rfl, -⟩ := top.1.2 m (by simp)
      refine .start m ?_ ?_ ?_ rfl rfl ?_
      · simp [Rank.running, stack]
      · simp [Rank.unparsed, stack, Frame.unparsed]
      · simp [Rank.codes, stack, Frame.code?, List.filterMap_cons]
      · simp [Rank.started, Rank.handed, stack, Frame.handed]
  | @silent frame frames rest received stack old new sends done =>
      refine .of_quiet ?_ rfl rfl ?_ ?_
      · cases frame <;> first | exact old.elim | simp [Rank.running, stack]
      · simp [stack, old.code?, filterMap_silent new]
      · simp [Rank.started, Rank.handed, stack, old.handed,
          flatMap_silent fun f hf => (new f hf).handed]
  | store stack | large stack =>
      refine .of_quiet ?_ rfl rfl ?_ ?_
      · simp [Rank.running, stack]
      · simp [stack, Frame.code?, List.filterMap_cons]
      · simp only [Rank.started, Rank.handed, stack, List.flatMap_cons, Frame.handed,
          ← Multiset.coe_add, List.nil_append]
        abel
  | announce stack | flush stack | pop stack | parsed stack =>
      refine .of_quiet ?_ rfl rfl ?_ ?_
      · simp [Rank.running, stack]
      · simp [stack, Frame.code?, List.filterMap_cons]
      · simp [Rank.started, Rank.handed, stack, Frame.handed]
  | joined pc stack | sample pc stack | pending pc stack | confirm pc stack | leave pc stack
  | throw pc stack =>
      refine .of_quiet ?_ rfl rfl ?_ ?_
      · simp [Rank.running, stack, pc]
      · simp [stack, Frame.code?, List.filterMap_cons]
      · simp [Rank.started, Rank.handed, stack, Frame.handed]
  | retry pc stack =>
      refine .of_quiet ?_ rfl rfl ?_ ?_
      · rcases pc with ⟨first, pc⟩ | ⟨first, second, pc⟩ <;> simp [Rank.running, stack, pc]
      · simp [stack, Frame.code?, List.filterMap_cons]
      · simp [Rank.started, Rank.handed, stack, Frame.handed]

/-- **A move records as executed** either nothing, or the call whose handler is returning. -/
theorem Move.records (move : Move cfg prog r w s t sent) :
    (t.executed = s.executed ∧
        ∀ ctx k rest mem', s.stack = .user ctx k :: rest → prog.next k s.mem ≠ .ret mem') ∨
      ∃ ctx k rest e, s.stack = .user ctx k :: rest ∧ prog.next k s.mem = .ret t.mem ∧
        e.rpc = ctx.rpc ∧ t.executed = s.executed ++ [e] := by
  have other : ∀ {ctx' : Option (Ctx n P)} {rest' : List (Frame n P C)} {k' : C},
      Running s ctx' rest' k' → (∀ mem', prog.next k' s.mem ≠ .ret mem') →
      ∀ ctx k rest mem', s.stack = .user ctx k :: rest → prog.next k s.mem ≠ .ret mem' := by
    intro ctx' rest' k' run cmd ctx k rest mem' stack
    have same : k' = k := by
      cases run with
      | main pc empty => simp [empty] at stack
      | handler stack' =>
          rw [stack'] at stack
          cases stack
          rfl
    exact same ▸ cmd mem'
  cases move with
  | retSelf stack cmd => exact .inr ⟨_, _, _, _, stack, cmd, rfl, rfl⟩
  | retRemote stack cmd => exact .inr ⟨_, _, _, _, stack, cmd, rfl, rfl⟩
  | update run cmd => exact .inl ⟨by simp, other run (by simp [cmd])⟩
  | asyncSelf run cmd => exact .inl ⟨by simp [Rank.call], other run (by simp [cmd])⟩
  | asyncRemote run cmd => exact .inl ⟨by simp [Rank.call], other run (by simp [cmd])⟩
  | callFlush run cmd =>
      refine .inl ⟨by simp [Rank.call], other run ?_⟩
      rcases cmd with ⟨dest, cmd, -⟩ | ⟨cmd, -⟩ <;> simp [cmd]
  | barrier _ stack | reduce _ stack | reduced _ stack | kill _ stack | joined _ stack
  | sample _ stack | pending _ stack | confirm _ stack | retry _ stack | leave _ stack
  | throw _ stack => exact .inl ⟨rfl, by simp [stack]⟩
  | silent frames stack old =>
      refine .inl ⟨rfl, fun ctx k rest mem' stack' => ?_⟩
      rw [stack] at stack'
      cases stack'
      exact old.elim
  | _ => exact .inl ⟨rfl, by simp [*]⟩

end Complete

end YGM
