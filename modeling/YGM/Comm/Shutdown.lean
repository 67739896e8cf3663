import YGM.Comm.Buffers
import YGM.Comm.Outline

/-!
# The destructor

This file is `~impl` of `include/ygm/detail/comm_impl.hpp`: a barrier, an empty message to
the own rank, and the join of the listener, which leaves its loop when a message comes from
its own rank.

`withDestructor` appends these steps to the main program of any user code, so that every
program is run to the end of its communicator.  Handlers keep their own code points
(`LifeCode.handler`): where the main program would return it enters the destructor, and a
handler returns as before.

A rank counts the barriers it has called, the one of the destructor included
(`Rank.barriers`).  `barrier` is collective, so ranks that are all in the destructor have
called it equally often (`Sys.Closing`).  Up to that many rounds calls are issued, and none
later, since the main program is over and a handler passes on the round of the call it serves
(`started_lt`).  A listener that has been stopped belongs to a rank that has left the last
barrier; what is pending then would belong to a round in which nothing is issued
(`pending_of_stopped`).  So the kill signal comes after everything else
(`shutdown_loses_nothing`), although the listener tells it from a message by its source only
and takes the messages of different sources in any order.
-/

namespace YGM

open scoped BigOperators

variable {n : ℕ} {P σ V C : Type}

/-- **The code points of a program that ends in `~impl`**: those of the user's main program and
handlers, and the places in the destructor. -/
inductive LifeCode (C : Type)
  /-- The main program is at the code point `k`. -/
  | main (k : C)
  /-- A handler is at the code point `k`. -/
  | handler (k : C)
  /-- The main program has come to the barrier in `~impl`. -/
  | exit
  /-- The destructor `~impl` has left its barrier and comes to the kill signal. -/
  | destroy
  /-- In `~impl`, at the join and after it. -/
  | done
deriving DecidableEq

/-- A command of the main program, with the end of the main program as the beginning of `~impl`. -/
def Cmd.inMain (mem : σ) : Cmd n P σ V C → Cmd n P σ V (LifeCode C)
  | .ret mem => .update mem .exit
  | .update mem k => .update mem (.main k)
  | .async dest payload k => .async dest payload (.main k)
  | .asyncFlush dest k => .asyncFlush dest (.main k)
  | .asyncFlushAll k => .asyncFlushAll (.main k)
  | .barrier k => .barrier (.main k)
  | .allReduce value k => .allReduce value fun result => .main (k result)
  | .kill _ => .update mem .exit

/-- A command of a handler, which goes on in the handler and returns as before. -/
def Cmd.inHandler : Cmd n P σ V C → Cmd n P σ V (LifeCode C)
  | .ret mem => .ret mem
  | .update mem k => .update mem (.handler k)
  | .async dest payload k => .async dest payload (.handler k)
  | .asyncFlush dest k => .asyncFlush dest (.handler k)
  | .asyncFlushAll k => .asyncFlushAll (.handler k)
  | .barrier k => .barrier (.handler k)
  | .allReduce value k => .allReduce value fun result => .handler (k result)
  | .kill k => .kill (.handler k)

/-- **User code with the destructor**: when the main program is over, the rank runs `~impl`. -/
def withDestructor (u : Program n P σ V C) : Program n P σ V (LifeCode C) where
  next
    | .main k, mem => (u.next k mem).inMain mem
    | .handler k, mem => (u.next k mem).inHandler
    | .exit, _ => .barrier .destroy
    | .destroy, _ => .kill .done
    | .done, mem => .ret mem
  handler src payload := .handler (u.handler src payload)
  packedSize := u.packedSize
  offset_le := u.offset_le
  combine := u.combine

/-- **The communicator for its whole life**, from its constructor to the end of `~impl` on every
rank. -/
def lifeComm (cfg : Config) (u : Program n P σ V C) (mem : Fin n → σ) (main : Fin n → C) :
    Machine (Sys n P σ V (LifeCode C)) (Action n) :=
  comm cfg (withDestructor u) mem fun r => .main (main r)

/-- The communicator for its whole life, with the record of its messages. -/
def lifeTraffic (cfg : Config) (u : Program n P σ V C) (mem : Fin n → σ) (main : Fin n → C) :
    Machine (Sys n P σ V (LifeCode C) × Traffic n P) (Action n) :=
  commTraffic cfg (withDestructor u) mem fun r => .main (main r)

/-! ## A rank in its life -/

/-- The main program is over and the rank is in the destructor, or has returned from it. -/
def LifeCode.inDestructor : LifeCode C → Bool
  | .exit | .destroy | .done => true
  | _ => false

/-- The barrier of the destructor has been left; `user` says whether a rank that is at the
kill signal, or in the barrier before it, is in no barrier. -/
def LifeCode.behind (user : Bool) : LifeCode C → Bool
  | .done => true
  | .destroy => user
  | _ => false

/-- The rank has left the barrier of the destructor. -/
def Rank.behind (s : Rank n P σ V (LifeCode C)) : Bool :=
  s.code.behind s.pc.isUser

/-- **The barriers of the whole life**, as far as the rank has come: those it has left, and
one more until it has left that of the destructor. -/
def Rank.barriers (s : Rank n P σ V (LifeCode C)) : ℕ :=
  if s.behind then s.epoch else s.epoch + 1

/-- The code points at which a command of the main program or of the destructor can go on, and
the point from which it can be given. -/
def Cmd.Lives (code : LifeCode C) : Cmd n P σ V (LifeCode C) → Prop
  | .ret _ => code = .done
  | .update _ k' => (∃ k, code = .main k) ∧ ((∃ k, k' = .main k) ∨ k' = .exit)
  | .async _ _ k' | .asyncFlush _ k' | .asyncFlushAll k' =>
      (∃ k, code = .main k) ∧ ∃ k, k' = .main k
  | .barrier k' => (∃ k, code = .main k) ∧ (∃ k, k' = .main k) ∨ code = .exit ∧ k' = .destroy
  | .allReduce _ k' => (∃ k, code = .main k) ∧ ∀ value, ∃ k, k' value = .main k
  | .kill k' => code = .destroy ∧ k' = .done

theorem withDestructor_lives (u : Program n P σ V C) {code : LifeCode C} (mem : σ)
    (main : ∀ k, code ≠ .handler k) : ((withDestructor u).next code mem).Lives code := by
  cases code with
  | main k => cases cmd : u.next k mem <;> simp [withDestructor, cmd, Cmd.inMain, Cmd.Lives]
  | handler k => exact absurd rfl (main k)
  | exit => exact .inr ⟨rfl, rfl⟩
  | destroy => exact ⟨rfl, rfl⟩
  | done => rfl

/-- **How far a rank has come** in its life: which code points and which places of the main
thread go together. -/
structure Rank.Lives (s : Rank n P σ V (LifeCode C)) : Prop where
  main : ∀ k, s.code ≠ .handler k
  reduce : ∀ k, s.pc = .reduce k → (∃ c, s.code = .main c) ∧ ∀ value, ∃ k', k value = .main k'
  exit : s.code = .exit → s.pc = .user
  join : s.pc = .join → s.code = .done
  done : s.code = .done → s.stack = [] ∧ (s.pc = .join ∨ s.pc = .user)

section Move

variable {cfg : Config} {u : Program n P σ V C} {r : Fin n} {w : View n V}
variable {s t : Rank n P σ V (LifeCode C)} {sent : Option (Fin n × Packet n P)}

/-- When the main program or the destructor is running, its next command goes on as `Cmd.Lives`
says. -/
theorem Rank.Lives.running (h : s.Lives) {ctx : Option (Ctx n P)}
    {rest : List (Frame n P (LifeCode C))} {k : LifeCode C} (run : Running s ctx rest k)
    (none : ctx = none) : ((withDestructor u).next k s.mem).Lives k := by
  cases run with
  | main pc stack => exact withDestructor_lives u s.mem h.main
  | handler stack => cases none

/-- **The effect of a move on the life of a rank**: an activation moves, the main program goes
on, or the rank enters, is in, or leaves a barrier or the destructor. -/
inductive Advances (s t : Rank n P σ V (LifeCode C)) : Prop
  /-- An activation on the stack moves, and the main program stays where it is. -/
  | above (code : t.code = s.code) (pc : t.pc = s.pc) (epoch : t.epoch = s.epoch)
      (busy : s.code ≠ .done)
  /-- The main program goes on, and at its end enters the destructor. -/
  | user {k : C} (before : s.code = .main k) (pc : s.pc = .user) (after : t.pc = .user)
      (code : (∃ k, t.code = .main k) ∨ t.code = .exit) (epoch : t.epoch = s.epoch)
  | barrier (pc : s.pc = .user) (after : t.pc = .sample)
      (code : (∃ k, s.code = .main k) ∧ (∃ k, t.code = .main k) ∨
        s.code = .exit ∧ t.code = .destroy) (epoch : t.epoch = s.epoch)
  | reduce {k : C} {k' : V → LifeCode C} (before : s.code = .main k) (code : t.code = s.code)
      (after : t.pc = .reduce k') (next : ∀ value, ∃ k, k' value = .main k)
      (epoch : t.epoch = s.epoch)
  | reduced {k k' : C} (before : s.code = .main k') (after : t.pc = .user)
      (code : t.code = .main k) (epoch : t.epoch = s.epoch)
  /-- The main program stays inside its barrier, which goes on. -/
  | inside (code : t.code = s.code) (epoch : t.epoch = s.epoch)
      (before : s.pc.isUser = false ∧ s.pc ≠ .join) (after : t.pc.isUser = false ∧ t.pc ≠ .join)
      (free : ∀ k, t.pc ≠ .reduce k)
  | leave (code : t.code = s.code) (epoch : t.epoch = s.epoch + 1)
      (before : s.pc.isUser = false ∧ s.pc ≠ .join) (after : t.pc = .user)
  | kill (before : s.code = .destroy) (pc : s.pc = .user) (code : t.code = .done)
      (after : t.pc = .join) (stack : t.stack = []) (epoch : t.epoch = s.epoch)
  | joined (pc : s.pc = .join) (after : t.pc = .user) (code : t.code = s.code)
      (stack : t.stack = []) (epoch : t.epoch = s.epoch)

/-- A rank that has sent its kill signal has no activation on its stack any more. -/
theorem Rank.Lives.busy (h : s.Lives) (stack : s.stack ≠ []) : s.code ≠ .done :=
  fun done => stack (h.done done).1

/-- A step of running code that computes or calls is a step of an activation or of the main
program in the life of the rank. -/
theorem Running.advances {ctx : Option (Ctx n P)} {rest : List (Frame n P (LifeCode C))}
    {k k' : LifeCode C} (run : Running s ctx rest k) (h : s.Lives)
    (lives : ctx = none → (∃ c, k = .main c) ∧ ((∃ c, k' = .main c) ∨ k' = .exit))
    (code : t.code = (s.resume ctx rest k').code) (pc : t.pc = s.pc) (epoch : t.epoch = s.epoch) :
    Advances s t := by
  cases run with
  | main user stack =>
      obtain ⟨⟨c, before⟩, after⟩ := lives rfl
      refine .user before user (pc.trans user) ?_ epoch
      rw [code]
      exact after
  | handler stack => exact .above code pc epoch (h.busy (by simp [stack]))

theorem Move.advances (move : Move cfg (withDestructor u) r w s t sent) (h : s.Lives) :
    Advances s t := by
  cases move with
  | @update ctx rest k k' mem run cmd =>
      refine run.advances h (fun none => ?_) (by cases ctx <;> rfl) (by simp) (by simp)
      have lives := h.running run none (u := u)
      rwa [cmd] at lives
  | @asyncSelf ctx rest k k' payload m run cmd call =>
      refine run.advances h (fun none => ?_) (by cases ctx <;> rfl) (by simp [Rank.call])
        (by simp [Rank.call])
      have lives := h.running run none (u := u)
      rw [cmd] at lives
      exact ⟨lives.1, .inl lives.2⟩
  | @asyncRemote ctx rest k k' dest payload m frames run cmd call remote path =>
      refine run.advances h (fun none => ?_) (by cases ctx <;> rfl) (by simp [Rank.call])
        (by simp [Rank.call])
      have lives := h.running run none (u := u)
      rw [cmd] at lives
      exact ⟨lives.1, .inl lives.2⟩
  | @callFlush ctx rest k k' frame run cmd =>
      refine run.advances h (fun none => ?_) rfl (by simp [Rank.call]) (by simp [Rank.call])
      have lives := h.running run none (u := u)
      rcases cmd with ⟨dest, cmd, -⟩ | ⟨cmd, -⟩ <;>
      · rw [cmd] at lives
        exact ⟨lives.1, .inl lives.2⟩
  | @barrier k pc stack cmd =>
      have lives := withDestructor_lives u s.mem h.main
      rw [cmd] at lives
      exact .barrier pc rfl lives rfl
  | @reduce value k pc stack cmd =>
      have lives := withDestructor_lives u s.mem h.main
      rw [cmd] at lives
      obtain ⟨⟨c, before⟩, next⟩ := lives
      exact .reduce before rfl rfl next rfl
  | @reduced value k pc stack result =>
      obtain ⟨⟨c, before⟩, next⟩ := h.reduce k pc
      obtain ⟨c', next⟩ := next value
      exact .reduced before rfl next rfl
  | @kill k pc stack cmd =>
      have lives := withDestructor_lives u s.mem h.main
      rw [cmd] at lives
      exact .kill lives.1 pc lives.2 rfl stack rfl
  | joined pc stack stopped => exact .joined pc rfl rfl stack rfl
  | sample pc stack | confirm pc stack zero | throw pc stack zero differ | pending pc stack =>
      exact .inside rfl rfl (by simp [pc, Pc.isUser]) (by simp [Pc.isUser]) (by simp)
  | retry pc stack result nonzero =>
      refine .inside rfl rfl ?_ (by simp [Pc.isUser]) (by simp)
      rcases pc with ⟨first, pc⟩ | ⟨first, second, pc⟩ <;> simp [pc, Pc.isUser]
  | leave pc stack zero agree => exact .leave rfl rfl (by simp [pc, Pc.isUser]) rfl
  | _ => exact .above rfl rfl rfl (h.busy (by simp [*]))

/-- A rank inside a collective is neither before the barrier of the destructor nor behind the
kill signal. -/
theorem Rank.Lives.inside (h : s.Lives) (inside : s.pc.isUser = false ∧ s.pc ≠ .join) :
    s.code ≠ .exit ∧ s.code ≠ .done := by
  refine ⟨fun exit => ?_, fun done => ?_⟩
  · simp [h.exit exit, Pc.isUser] at inside
  · rcases (h.done done).2 with pc | pc
    · exact inside.2 pc
    · simp [pc, Pc.isUser] at inside

theorem Advances.lives (advances : Advances s t) (h : s.Lives) : t.Lives := by
  cases advances with
  | above code pc epoch busy =>
      refine ⟨by simpa [code] using h.main, by simpa [code, pc] using h.reduce,
        by simpa [code, pc] using h.exit, by simpa [code, pc] using h.join, fun done => ?_⟩
      exact absurd (code ▸ done) busy
  | user before pc after code epoch =>
      rcases code with ⟨k, code⟩ | code <;>
        exact ⟨by simp [code], by simp [after], by simp [after], by simp [after], by simp [code]⟩
  | barrier pc after code epoch =>
      rcases code with ⟨-, k, code⟩ | ⟨-, code⟩ <;>
        exact ⟨by simp [code], by simp [after], by simp [code], by simp [after], by simp [code]⟩
  | reduce before code after next epoch =>
      rw [before] at code
      refine ⟨by simp [code], fun k pc => ⟨⟨_, code⟩, ?_⟩, by simp [code], by simp [after],
        by simp [code]⟩
      rw [after] at pc
      cases pc
      exact next
  | reduced before after code epoch =>
      exact ⟨by simp [code], by simp [after], by simp [code], by simp [after], by simp [code]⟩
  | inside code epoch before after free =>
      obtain ⟨exit, done⟩ := h.inside before
      rw [← code] at exit done
      exact ⟨by simpa [code] using h.main, fun k pc => absurd pc (free k), fun e => absurd e exit,
        fun join => absurd join after.2, fun d => absurd d done⟩
  | leave code epoch before after =>
      obtain ⟨exit, done⟩ := h.inside before
      rw [← code] at exit done
      exact ⟨by simpa [code] using h.main, by simp [after], fun e => absurd e exit,
        by simp [after], fun d => absurd d done⟩
  | kill before pc code after stack epoch =>
      exact ⟨by simp [code], by simp [after], by simp [code], fun _ => code,
        fun _ => ⟨stack, .inl after⟩⟩
  | joined pc after code stack epoch =>
      have done := h.join pc
      rw [← code] at done
      exact ⟨by simp [done], by simp [after], by simp [done], by simp [after],
        fun _ => ⟨stack, .inr after⟩⟩

/-- **The count of barriers** never decreases in a step, and does not change once the rank is in
the destructor. -/
theorem Advances.barriers (advances : Advances s t) (h : s.Lives) :
    s.barriers ≤ t.barriers ∧ (s.code.inDestructor = true →
      t.code.inDestructor = true ∧ t.barriers = s.barriers) := by
  have same : t.code = s.code → t.pc.isUser = s.pc.isUser → t.epoch = s.epoch →
      s.barriers ≤ t.barriers ∧ (s.code.inDestructor = true →
        t.code.inDestructor = true ∧ t.barriers = s.barriers) := by
    intro code pc epoch
    have count : t.barriers = s.barriers := by
      rw [Rank.barriers, Rank.barriers, Rank.behind, Rank.behind, code, pc, epoch]
    exact ⟨count.ge, fun inside => ⟨by rwa [code], count⟩⟩
  cases advances with
  | above code pc epoch busy => exact same code (by rw [pc]) epoch
  | user before pc after code epoch =>
      rcases code with ⟨k, code⟩ | code <;>
        simp [Rank.barriers, Rank.behind, LifeCode.behind, before, code, epoch, LifeCode.inDestructor]
  | barrier pc after code epoch =>
      rcases code with ⟨⟨k, before⟩, k', code⟩ | ⟨before, code⟩ <;>
        simp [Rank.barriers, Rank.behind, LifeCode.behind, before, code, epoch, after, Pc.isUser,
          LifeCode.inDestructor]
  | reduce before code after next epoch =>
      simp [Rank.barriers, Rank.behind, LifeCode.behind, before, code, epoch, LifeCode.inDestructor]
  | reduced before after code epoch =>
      simp [Rank.barriers, Rank.behind, LifeCode.behind, before, code, epoch,
        LifeCode.inDestructor]
  | inside code epoch before after free => exact same code (by rw [after.1, before.1]) epoch
  | leave code epoch before after =>
      obtain ⟨exit, done⟩ := h.inside before
      have user : t.pc.isUser = true := by rw [after]; rfl
      cases here : s.code with
      | destroy =>
          simp [Rank.barriers, Rank.behind, LifeCode.behind, here, code, epoch, user, before.1,
            LifeCode.inDestructor]
      | main k | handler k =>
          simp [Rank.barriers, Rank.behind, LifeCode.behind, here, code, epoch, LifeCode.inDestructor]
      | exit => exact absurd here exit
      | done => exact absurd here done
  | kill before pc code after stack epoch =>
      simp [Rank.barriers, Rank.behind, LifeCode.behind, before, code, epoch, pc, Pc.isUser, LifeCode.inDestructor]
  | joined pc after code stack epoch =>
      have done := h.join pc
      simp [Rank.barriers, Rank.behind, LifeCode.behind, done, code, epoch, LifeCode.inDestructor]

/-- A rank that has left the barrier of the destructor waits in no barrier. -/
theorem Rank.Lives.not_second (h : s.Lives) (behind : s.behind = true) :
    s.pc.waiting ≠ some .second := by
  cases code : s.code with
  | done => rcases (h.done code).2 with pc | pc <;> simp [pc, Pc.waiting]
  | destroy =>
      rw [Rank.behind, code] at behind
      simp [Pc.eq_user behind, Pc.waiting]
  | _ => simp [Rank.behind, LifeCode.behind, code] at behind

/-- A rank that has sent its kill signal can only be joined, when its listener has stopped; it
sends nothing more. -/
theorem Move.joins (move : Move cfg (withDestructor u) r w s t sent) (h : s.Lives)
    (done : s.code = .done) :
    s.listener = .stopped ∧ t = { s with pc := .user } ∧ sent = none := by
  obtain ⟨idle, pc⟩ := h.done done
  have ended : ∀ mem, (withDestructor u).next s.code mem = .ret mem := fun mem => by rw [done]; rfl
  have user : ∀ {ctx rest k cmd}, Running s ctx rest k → (withDestructor u).next k s.mem = cmd →
      cmd = .ret s.mem := by
    intro ctx rest k cmd run eq
    cases run with
    | main pc stack => exact eq.symm.trans (ended s.mem)
    | handler stack => simp [idle] at stack
  cases move with
  | joined pc stack stopped => exact ⟨stopped, rfl, rfl⟩
  | update run cmd | asyncSelf run cmd call | asyncRemote run cmd call remote path =>
      cases user run cmd
  | callFlush run cmd => rcases cmd with ⟨dest, cmd, -⟩ | ⟨cmd, -⟩ <;> cases user run cmd
  | barrier pc stack cmd | reduce pc stack cmd | kill pc stack cmd =>
      simp [ended] at cmd
  | reduced pc' | sample pc' | pending pc' | confirm pc' | leave pc' | throw pc' =>
      rcases pc with pc | pc <;> simp [pc] at pc'
  | retry pc' =>
      rcases pc' with ⟨first, pc'⟩ | ⟨first, second, pc'⟩ <;>
        rcases pc with pc | pc <;> simp [pc] at pc'
  | _ => simp_all

/-- A main thread adds nothing to its receive queue: it only takes entries from there. -/
theorem Move.receiveQueue {prog : Program n P σ V C} {s t : Rank n P σ V C}
    {w : View n V} (move : Move cfg prog r w s t sent) : t.receiveQueue ⊆ s.receiveQueue := by
  cases move with
  | pop stack head => simp [head]
  | _ => simp [Rank.call, Rank.finish]

/-- A move leads to the code behind the kill signal only by sending the signal, from the main
thread itself. -/
theorem Advances.done (advances : Advances s t) (before : s.code ≠ .done) (after : t.code = .done) :
    s.pc = .user ∧ t.pc = .join := by
  cases advances with
  | kill _ pc _ join => exact ⟨pc, join⟩
  | above code | inside code | leave code | joined _ _ code =>
      rw [code] at after
      exact absurd after before
  | user _ _ _ code => rcases code with ⟨k, code⟩ | code <;> simp [code] at after
  | barrier _ _ code => rcases code with ⟨-, k, code⟩ | ⟨-, code⟩ <;> simp [code] at after
  | reduce main code => simp [code, main] at after
  | reduced _ _ code => simp [code] at after

theorem Move.signals (move : Move cfg (withDestructor u) r w s t sent) (h : s.Lives)
    (before : s.code ≠ .done) (after : t.code = .done) : sent = some (r, .buffer []) := by
  obtain ⟨user, join⟩ := (move.advances h).done before after
  cases move with
  | kill => rfl
  | _ => simp_all [Rank.call, Rank.finish]

/-- **A rank sends itself nothing but the kill signal.** -/
theorem Move.to_self (move : Move cfg (withDestructor u) r w s t sent) (h : s.Lives)
    (routed : s.Routed r) {packet : Packet n P} (self : sent = some (r, packet)) :
    packet = .buffer [] ∧ t.code = .done := by
  cases move with
  | kill pc stack cmd =>
      have lives := withDestructor_lives u s.mem h.main
      rw [cmd] at lives
      cases self
      exact ⟨rfl, lives.2⟩
  | @announce m rest stack | @large m rest stack =>
      have top := routed.stack
      rw [stack, List.forall_mem_cons] at top
      simp only [Option.some.injEq, Prod.mk.injEq] at self
      exact absurd self.1 top.1.2
  | flush stack other nonempty =>
      simp only [Option.some.injEq, Prod.mk.injEq] at self
      exact absurd self.1 other
  | _ => cases self

end Move

/-! ## Runs -/

section Runs

variable {cfg : Config} {u : Program n P σ V C} {mem : Fin n → σ} {main : Fin n → C}
variable {c d : Sys n P σ V (LifeCode C)}

theorem lives_of_reachable (h : (lifeComm cfg u mem main).Reachable c) (r : Fin n) :
    (c.rank r).Lives := by
  refine h.invariant (I := fun c => ∀ r, (c.rank r).Lives) ?_ ?_ r
  · intro r
    exact ⟨by simp [lifeComm, comm, Rank.init], by simp [lifeComm, comm, Rank.init],
      by simp [lifeComm, comm, Rank.init], by simp [lifeComm, comm, Rank.init],
      by simp [lifeComm, comm, Rank.init]⟩
  · intro c a d _ inv taken i
    rcases Sys.step_cases taken with
      ⟨r, flag, t, sent, -, move, rfl⟩ | ⟨r, src, t, stream, -, receive, rfl⟩
    · by_cases hi : i = r
      · subst hi
        simpa using (move.advances (inv i)).lives (inv i)
      · simpa [hi] using inv i
    · obtain ⟨main, reduce, exit, join, done⟩ := inv i
      obtain ⟨listener, queue, eq⟩ := receive.frame i
      simp only [eq]
      exact ⟨main, reduce, exit, join, done⟩

/-- Along a run the count of barriers of a rank never decreases, and it does not change once the
rank is in the destructor. -/
theorem leads_barriers (h : (lifeComm cfg u mem main).Reachable c)
    (leads : (lifeComm cfg u mem main).Leads c d) (r : Fin n) :
    (c.rank r).barriers ≤ (d.rank r).barriers ∧ ((c.rank r).code.inDestructor = true →
      (d.rank r).code.inDestructor = true ∧ (d.rank r).barriers = (c.rank r).barriers) := by
  induction leads with
  | refl => exact ⟨le_rfl, fun inside => ⟨inside, rfl⟩⟩
  | @tail b d before taken ih =>
      obtain ⟨a, taken⟩ := taken
      change Sys.step cfg (withDestructor u) b a = some d at taken
      suffices next : (b.rank r).barriers ≤ (d.rank r).barriers ∧
          ((b.rank r).code.inDestructor = true →
            (d.rank r).code.inDestructor = true ∧ (d.rank r).barriers = (b.rank r).barriers) by
        refine ⟨ih.1.trans next.1, fun inside => ?_⟩
        obtain ⟨still, same⟩ := ih.2 inside
        exact ⟨(next.2 still).1, (next.2 still).2.trans same⟩
      have lives := lives_of_reachable (h.leads before) r
      rcases Sys.step_cases taken with
        ⟨i, flag, t, sent, -, move, rfl⟩ | ⟨i, src, t, stream, -, receive, rfl⟩
      · by_cases hi : r = i
        · subst hi
          simpa using (move.advances lives).barriers lives
        · simp [hi]
      · obtain ⟨listener, queue, eq⟩ := receive.frame r
        simp only [eq]
        exact ⟨le_rfl, fun inside => ⟨inside, rfl⟩⟩

/-- **Calls are started up to the last barrier**: no rank starts one in a round beyond those
it takes part in. -/
theorem started_lt (h : (lifeComm cfg u mem main).Reachable c) {b : ℕ}
    (bound : ∀ r, (c.rank r).barriers ≤ b) (r : Fin n) :
    ∀ m ∈ (c.rank r).started, m.epoch < b := by
  refine h.invariant (I := fun c => (∀ r, (c.rank r).barriers ≤ b) →
    ∀ r, ∀ m ∈ (c.rank r).started, m.epoch < b) ?_ ?_ bound r
  · intro _ r
    simp [lifeComm, comm, Rank.init, Rank.started, Rank.handed]
  · intro c a d before inv taken bound i
    change Sys.step cfg (withDestructor u) c a = some d at taken
    have earlier : ∀ r, (c.rank r).barriers ≤ b := fun r =>
      (leads_barriers before (.single ⟨a, taken⟩) r).1.trans (bound r)
    have started := inv earlier
    rcases Sys.step_cases taken with
      ⟨r, flag, t, sent, -, move, rfl⟩ | ⟨r, src, t, stream, -, receive, rfl⟩
    · by_cases hi : i = r
      · subst hi
        intro m hm
        rcases move.started (by simpa using hm) with old | ⟨ctx, rest, k, k', run, cmd, -, -, epoch⟩
        · exact started i m old
        · cases run with
          | main pc stack =>
              -- the main program is not over, so its last barrier is still to come
              have lives := withDestructor_lives u (c.rank i).mem
                (lives_of_reachable before i).main
              rw [cmd] at lives
              obtain ⟨⟨k, code⟩, -⟩ := lives
              have here := earlier i
              simp only [Rank.barriers, Rank.behind, code, LifeCode.behind] at here
              rw [epoch]
              exact here
          | @handler ctx k rest stack =>
              have running : ctx.rpc ∈ (c.rank i).executing := by
                simp [Rank.executing, stack, Frame.executing]
              obtain ⟨j, -, issued⟩ :=
                Multiset.mem_sum.mp (Sys.mem_issued_of_executing before running)
              rw [epoch]
              exact started j _ (Multiset.mem_add.mpr (.inl issued))
      · simpa [hi] using started i
    · obtain ⟨listener, queue, eq⟩ := receive.frame i
      simp only [eq]
      exact started i

/-- **All ranks are in the destructor**, and have called its barrier together: it is
collective, so if they have not all left it they have called `barrier` equally often. -/
structure Sys.Closing (c : Sys n P σ V (LifeCode C)) : Prop where
  all : ∀ r, (c.rank r).code.inDestructor = true
  collective : (∀ r, (c.rank r).behind = true) ∨ ∀ r i, (c.rank r).barriers = (c.rank i).barriers

/-- Ranks that have all left the barrier of the destructor have left equally many barriers. -/
theorem Sys.Closing.barriers_eq (closing : c.Closing)
    (h : (lifeComm cfg u mem main).Reachable c) (r i : Fin n) :
    (c.rank r).barriers = (c.rank i).barriers := by
  rcases closing.collective with behind | equal
  · have round : ∀ r, (c.rank r).barriers = c.round := by
      intro r
      rw [Rank.barriers, if_pos (behind r)]
      exact Sys.epoch_eq_round h ((lives_of_reachable h r).not_second (behind r))
    rw [round, round]
  · exact equal r i

theorem Sys.Closing.leads (closing : c.Closing) (h : (lifeComm cfg u mem main).Reachable c)
    (leads : (lifeComm cfg u mem main).Leads c d) : d.Closing := by
  have next := fun r => (leads_barriers h leads r).2 (closing.all r)
  refine ⟨fun r => (next r).1, .inr fun r i => ?_⟩
  rw [(next r).2, (next i).2]
  exact closing.barriers_eq h r i

/-- The state `c` belongs to a run that has a state, before or after it, in which all ranks are
in the destructor and have called its barrier together (`Sys.Closing`). -/
def Closes (cfg : Config) (u : Program n P σ V C) (mem : Fin n → σ) (main : Fin n → C)
    (c : Sys n P σ V (LifeCode C)) : Prop :=
  ∃ d, (lifeComm cfg u mem main).Reachable d ∧ d.Closing ∧
    ((lifeComm cfg u mem main).Leads c d ∨ (lifeComm cfg u mem main).Leads d c)

/-- **When a rank has sent its kill signal nothing is pending**, on any rank. -/
theorem pending_of_done (h : (lifeComm cfg u mem main).Reachable c)
    (closes : Closes cfg u mem main c) {r : Fin n} (done : (c.rank r).code = .done) :
    c.pending = 0 := by
  obtain ⟨d, leads, closing⟩ : ∃ d, (lifeComm cfg u mem main).Leads c d ∧ d.Closing := by
    obtain ⟨d, reached, closing, leads | leads⟩ := closes
    · exact ⟨d, leads, closing⟩
    · exact ⟨c, .refl, closing.leads reached leads⟩
  have count := fun i => leads_barriers h leads i
  have behind : (c.rank r).behind = true := by rw [Rank.behind, done]; rfl
  have last : (d.rank r).barriers = (c.rank r).epoch := by
    rw [((count r).2 (by rw [done]; rfl)).2, Rank.barriers, if_pos behind]
  have bound : ∀ i, (c.rank i).barriers ≤ (c.rank r).epoch := by
    intro i
    rw [← last, closing.barriers_eq (h.leads leads) r i]
    exact (count i).1
  refine Multiset.eq_zero_of_forall_notMem fun m pending => ?_
  have early : m.epoch < (c.rank r).epoch := by
    have started : m ∈ ∑ i, (c.rank i).started := by
      rw [Sys.started_eq h]
      exact Multiset.mem_add.mpr (.inr pending)
    obtain ⟨i, -, started⟩ := Multiset.mem_sum.mp started
    exact started_lt h bound i m started
  exact absurd early (not_lt.mpr (Sys.epoch_le_of_pending h r pending))

/-! ## The kill signal -/

/-- **The stream from a rank to itself**, together with all that was ever sent on it: nothing
before the kill signal, then the kill signal alone. -/
inductive Killed (r : Fin n) (c : Sys n P σ V (LifeCode C)) (sent : List (Packet n P)) : Prop
  | before (sent : sent = []) (stream : c.net r r = []) (code : (c.rank r).code ≠ .done)
      (runs : (c.rank r).listener ≠ .stopped)
  | sent (sent : sent = [.buffer []]) (stream : c.net r r = [.buffer []])
      (code : (c.rank r).code = .done) (runs : (c.rank r).listener ≠ .stopped)
  | stopped (sent : sent = [.buffer []]) (stream : c.net r r = [])
      (code : (c.rank r).code = .done) (stopped : (c.rank r).listener = .stopped)

/-- The state of a rank's stream to itself depends only on the stream, on the code of the rank
and on whether its listener has stopped. -/
theorem Killed.of_eq {r : Fin n} {sent : List (Packet n P)} (h : Killed r c sent)
    (stream : d.net r r = c.net r r) (code : (d.rank r).code = (c.rank r).code)
    (listener : (d.rank r).listener = .stopped ↔ (c.rank r).listener = .stopped) :
    Killed r d sent := by
  cases h with
  | before own empty busy runs =>
      exact .before own (stream.trans empty) (code ▸ busy) (mt listener.mp runs)
  | sent own full done runs => exact .sent own (stream.trans full) (code.trans done) (mt listener.mp runs)
  | stopped own empty done ended =>
      exact .stopped own (stream.trans empty) (code.trans done) (listener.mpr ended)

theorem Killed.signal {r : Fin n} {sent : List (Packet n P)} (h : Killed r c sent) :
    ∀ packet ∈ c.net r r, packet = .buffer [] := by
  cases h with
  | before _ empty | stopped _ empty => simp [empty]
  | sent _ full => simp [full]

/-- A receive from another rank does not stop the listener. -/
theorem Receive.runs {prog : Program n P σ V C} {src r : Fin n} {s t : Rank n P σ V C}
    {stream stream' : List (Packet n P)} (receive : Receive cfg prog r src s stream t stream')
    (other : src ≠ r) : s.listener ≠ .stopped ∧ t.listener ≠ .stopped := by
  cases receive with
  | stop _ _ _ own => exact absurd own other
  | _ => simp [*]

/-- A receive from the own rank takes the kill signal, and the listener stops. -/
theorem Receive.stops {prog : Program n P σ V C} {r : Fin n} {s t : Rank n P σ V C}
    {stream stream' : List (Packet n P)} (receive : Receive cfg prog r r s stream t stream')
    (signal : ∀ packet ∈ stream, packet = .buffer []) (routed : s.Routed r) :
    s.listener ≠ .stopped ∧ t.listener = .stopped ∧ ∃ packet, stream = packet :: stream' := by
  cases receive with
  | announced any head => simp [head] at signal
  | stop any head data own => exact ⟨by simp [any], rfl, _, head⟩
  | buffer _ _ _ other | stray _ _ _ other => exact absurd rfl other
  | large listener => exact absurd rfl (routed.listener r _ listener)

theorem killed_of_reachable {t : Traffic n P}
    (h : (lifeTraffic cfg u mem main).Reachable (c, t)) (r : Fin n) :
    Killed r c (t.sent r r) := by
  refine h.invariant (I := fun x => Killed r x.1 (x.2.sent r r)) ?_ ?_
  · exact .before rfl rfl (by simp [lifeTraffic, commTraffic, Machine.recording, comm, Rank.init])
      (by simp [lifeTraffic, commTraffic, Machine.recording, comm, Rank.init])
  · rintro ⟨c, t⟩ a ⟨d, t'⟩ before inv taken
    have reached : (lifeComm cfg u mem main).Reachable c := before.of_recording
    have lives := lives_of_reachable reached
    have routed := Sys.routed_of_reachable reached
    obtain ⟨moved, record⟩ := Machine.recording_step.mp taken
    simp only at moved record inv
    subst record
    rcases Sys.step_cases moved with
      ⟨i, flag, s, out, rfl, move, rfl⟩ | ⟨i, src, s, stream, rfl, receive, rfl⟩
    · simp only [Traffic.record, Sys.send_eq_append, List.drop_left]
      by_cases hi : r = i
      · subst hi
        have listener := move.listener
        cases inv with
        | before own empty busy runs =>
            by_cases done : s.code = .done
            · have signal := move.signals (lives r) busy done
              subst signal
              exact .sent (by simp [own]) (by simp [Sys.send, empty]) (by simpa using done)
                (by simpa [listener] using runs)
            · have none : ∀ packet, out ≠ some (r, packet) := fun packet self =>
                done (move.to_self (lives r) (routed.rank r) self).2
              have nothing : (out.toList.filterMap fun sent =>
                  if r = r ∧ r = sent.1 then some sent.2 else Option.none) = [] := by
                refine List.filterMap_eq_nil_iff.mpr fun sent member => if_neg ?_
                rintro ⟨-, here⟩
                exact none sent.2 (by rw [Option.mem_toList.mp member, here])
              refine .before (by rw [own, nothing]; rfl) ?_ (by simpa using done)
                (by simpa [listener] using runs)
              show Sys.send c.net r out r r = []
              rw [Sys.send_eq_append, nothing, empty]
              rfl
        | sent own full done runs => exact absurd (move.joins (lives r) done).1 runs
        | stopped own empty done ended =>
            obtain ⟨-, rfl, rfl⟩ := move.joins (lives r) done
            exact .stopped (by simpa using own) (by simpa [Sys.send] using empty)
              (by simpa using done) (by simpa using ended)
      · have nothing : (out.toList.filterMap fun sent =>
            if r = i ∧ r = sent.1 then some sent.2 else none) = [] := by simp [hi]
        rw [nothing, List.append_nil]
        exact inv.of_eq (Sys.send_of_ne _ _ hi r) (by simp [hi]) (by simp [hi])
    · simp only [Traffic.record]
      by_cases hi : r = i
      · subst hi
        by_cases own : src = r
        · subst own
          obtain ⟨ran, stops, packet, head⟩ := receive.stops inv.signal (routed.rank src)
          cases inv with
          | before _ empty => simp [empty] at head
          | stopped _ _ _ ended => exact absurd ended ran
          | sent own full done runs =>
              rw [full] at head
              cases head
              refine .stopped own (by simp) ?_ (by simpa using stops)
              simp only [Function.update_self]
              rw [receive.quiet]
              exact done
        · obtain ⟨ran, runs⟩ := receive.runs own
          refine inv.of_eq (by simp [Function.update_of_ne (Ne.symm own)]) ?_ (by simp [ran, runs])
          simp only [Function.update_self]
          rw [receive.quiet]
      · refine inv.of_eq ?_ (by simp [hi]) (by simp [hi])
        by_cases here : r = src
        · subst here
          simp [hi]
        · simp [here]

/-- Every entry of a receive queue has a call in it. -/
theorem queue_filled {t : Traffic n P} (h : (lifeTraffic cfg u mem main).Reachable (c, t))
    (r : Fin n) : ∀ entry ∈ (c.rank r).receiveQueue, entry.1 ≠ [] := by
  refine h.invariant (I := fun x => ∀ r, ∀ entry ∈ (x.1.rank r).receiveQueue, entry.1 ≠ [])
    (by simp [lifeTraffic, commTraffic, Machine.recording, comm, Rank.init]) ?_ r
  rintro ⟨c, t⟩ a ⟨d, t'⟩ before inv taken i entry member
  obtain ⟨moved, -⟩ := Machine.recording_step.mp taken
  simp only at moved inv member
  rcases Sys.step_cases moved with
    ⟨r, flag, s, out, -, move, rfl⟩ | ⟨r, src, s, stream, -, receive, rfl⟩
  · by_cases hi : i = r
    · subst hi
      exact inv i entry (move.receiveQueue (by simpa using member))
    · exact inv i entry (by simpa [hi] using member)
  · by_cases hi : i = r
    · subst hi
      simp only [Function.update_self] at member
      have sent : src ≠ i → ∀ msgs, .buffer msgs ∈ c.net src i → msgs ≠ [] := by
        intro apart msgs received
        obtain ⟨earlier, all, -⟩ := (paired_of_reachable apart before).taken
        refine ((batched_of_reachable apart before).sends msgs ?_).1
        rw [all]
        exact List.mem_append_right _ received
      cases receive with
      | announced | stop => exact inv i entry member
      | @buffer msgs stream any head fits other =>
          rcases List.mem_append.mp member with old | new
          · exact inv i entry old
          · rw [List.mem_singleton.mp new]
            exact sent other msgs (by simp [head])
      | stray | large =>
          rcases List.mem_append.mp member with old | new
          · exact inv i entry old
          · rw [List.mem_singleton.mp new]
            simp
    · exact inv i entry (by simpa [hi] using member)

theorem Announcing.large_mem {stack : List (Frame n P (LifeCode C))} {m : Rpc n P}
    (h : Announcing stack (some m)) : .large m ∈ stack := by
  cases h <;> simp

/-- **When nothing is pending no message is outstanding** for a listener that has stopped. -/
theorem stream_eq_nil {t : Traffic n P} (h : (lifeTraffic cfg u mem main).Reachable (c, t))
    (none : c.pending = 0) {src r : Fin n} (apart : src ≠ r)
    (stopped : (c.rank r).listener = .stopped) : c.net src r = [] := by
  have empty : ∀ packet ∈ c.net src r, packet.rpcs = [] := by
    intro packet member
    refine List.eq_nil_iff_forall_not_mem.mpr fun m hm => ?_
    have pending : m ∈ c.pending := by
      have : m ∈ c.inNetwork := Multiset.mem_sum.mpr ⟨src, Finset.mem_univ src,
        Multiset.mem_sum.mpr ⟨r, Finset.mem_univ r, List.mem_flatMap.mpr ⟨packet, member, hm⟩⟩⟩
      simp [Sys.pending, Sys.unfinished, this]
    rw [none] at pending
    cases Multiset.notMem_zero m pending
  have large : ∀ m, .large m ∉ c.net src r := fun m member => by cases empty _ member
  have paired := paired_of_reachable apart h
  obtain ⟨m, announcing, shape⟩ := paired.shape
  cases stream : c.net src r with
  | nil => rfl
  | cons packet rest =>
      rw [stream] at shape large empty
      cases packet with
      | large m => exact absurd (List.mem_cons_self) (large m)
      | buffer msgs =>
          obtain ⟨earlier, all, -⟩ := paired.taken
          have sent : .buffer msgs ∈ t.sent src r := by simp [all, stream]
          exact absurd (empty _ List.mem_cons_self) ((batched_of_reachable apart h).sends msgs sent).1
      | announce size =>
          cases rest with
          | cons packet rest =>
              simp only [stopped, Listener.awaits, pairing] at shape
              obtain ⟨m, rfl, -⟩ := pairing_some shape
              exact absurd (by simp) (large m)
          | nil =>
              -- its message would be in the hands of an unfinished send
              cases m with
              | none => simp [stopped, Listener.awaits, pairing, announcedTo] at shape
              | some m =>
                  have handed : m ∈ (c.rank src).handed :=
                    List.mem_flatMap.mpr ⟨.large m, announcing.large_mem, by simp [Frame.handed]⟩
                  have pending : m ∈ c.pending := by
                    have : m ∈ c.handed := Multiset.mem_sum.mpr ⟨src, Finset.mem_univ src, handed⟩
                    simp [Sys.pending, this]
                  rw [none] at pending
                  cases Multiset.notMem_zero m pending

/-- A rank that has sent its kill signal executes and sends nothing any more. -/
theorem over_step (h : (lifeComm cfg u mem main).Reachable c) {a : Action n}
    (taken : Sys.step cfg (withDestructor u) c a = some d) {r : Fin n}
    (done : (c.rank r).code = .done) :
    (d.rank r).code = .done ∧ (d.rank r).executed = (c.rank r).executed ∧
      ∀ t dest, (Traffic.record c a d t).sent r dest = t.sent r dest := by
  rcases Sys.step_cases taken with
    ⟨i, flag, s, out, rfl, move, rfl⟩ | ⟨i, src, s, stream, rfl, receive, rfl⟩
  · simp only [Traffic.record, Sys.send_eq_append, List.drop_left]
    by_cases hi : r = i
    · subst hi
      obtain ⟨-, rfl, rfl⟩ := move.joins (lives_of_reachable h r) done
      exact ⟨by simpa using done, by simp, by simp⟩
    · exact ⟨by simpa [hi] using done, by simp [hi], by simp [hi]⟩
  · obtain ⟨listener, queue, eq⟩ := receive.frame r
    exact ⟨by simpa only [eq] using done, by simp only [eq], fun t dest => rfl⟩

theorem executed_of_leads (h : (lifeComm cfg u mem main).Reachable c)
    (leads : (lifeComm cfg u mem main).Leads c d) {r : Fin n}
    (done : (c.rank r).code = .done) :
    (d.rank r).code = .done ∧ (d.rank r).executed = (c.rank r).executed := by
  induction leads with
  | refl => exact ⟨done, rfl⟩
  | @tail b d before taken ih =>
      obtain ⟨a, taken⟩ := taken
      obtain ⟨still, same, -⟩ := over_step (h.leads before) taken ih.1
      exact ⟨still, same.trans ih.2⟩

theorem sent_of_leads {x y : Sys n P σ V (LifeCode C) × Traffic n P}
    (h : (lifeTraffic cfg u mem main).Reachable x)
    (leads : (lifeTraffic cfg u mem main).Leads x y) {r : Fin n}
    (done : (x.1.rank r).code = .done) :
    (y.1.rank r).code = .done ∧ y.2.sent r = x.2.sent r := by
  induction leads with
  | refl => exact ⟨done, rfl⟩
  | @tail b d before taken ih =>
      obtain ⟨a, taken⟩ := taken
      obtain ⟨moved, record⟩ := Machine.recording_step.mp taken
      have reached : (lifeComm cfg u mem main).Reachable b.1 := (h.leads before).of_recording
      obtain ⟨still, -, same⟩ := over_step reached moved ih.1
      refine ⟨still, ?_⟩
      rw [record, ← ih.2]
      exact funext fun dest => same b.2 dest

/-- When nothing is pending, the calls that have been issued for a rank are those that it has
executed. -/
theorem executed_of_pending (h : (lifeComm cfg u mem main).Reachable c) (none : c.pending = 0)
    (r : Fin n) : c.issued.filter (fun m => m.dest = r) = (c.rank r).done := by
  have all : c.issued = c.executed := by
    have empty : c.unfinished = 0 := Multiset.le_zero.mp (none ▸ Multiset.le_add_right _ _)
    rw [Sys.conservation h, empty, add_zero]
  have dest : ∀ i, ∀ m ∈ (c.rank i).done, m.dest = i := by
    intro i m hm
    obtain ⟨e, he, rfl⟩ := List.mem_map.mp (Multiset.mem_coe.mp hm)
    exact ((Sys.routed_of_reachable h).rank i |>.executed e he).2
  rw [all, Sys.executed, filter_sum, Finset.sum_eq_single r]
  · exact Multiset.filter_eq_self.mpr (dest r)
  · intro i _ other
    exact Multiset.filter_eq_nil.mpr fun m hm here => other ((dest i m hm).symm.trans here)
  · simp

/-- **The end of the listener of `r`**, in a state of a run with the record of its messages. -/
structure ShutDown (cfg : Config) (u : Program n P σ V C) (mem : Fin n → σ) (main : Fin n → C)
    (r : Fin n) (x : Sys n P σ V (LifeCode C) × Traffic n P) : Prop where
  /-- A rank never sends itself anything but the kill signal, once, from the destructor. -/
  signal : x.2.sent r r = [] ∨
    x.2.sent r r = [.buffer []] ∧ (x.1.rank r).code = .done
  /-- The kill signal is the last packet that the rank sends. -/
  last : x.2.sent r r ≠ [] → ∀ y, (lifeTraffic cfg u mem main).Leads x y →
    y.2.sent r = x.2.sent r
  /-- The listener of the rank leaves its loop on the kill signal only, with no other message of
  its own left. -/
  leaves : ∀ src d, Sys.step cfg (withDestructor u) x.1 (.listen r src) = some d →
    (d.rank r).listener = .stopped → src = r ∧ x.1.net r r = [.buffer []] ∧ d.net r r = []
  /-- When the listener has returned in a run that closes, every call for the rank in the whole
  run has been executed there, once. -/
  executed : (x.1.rank r).listener = .stopped → ∀ d, (lifeComm cfg u mem main).Leads x.1 d →
    Closes cfg u mem main d → d.issued.filter (fun m => m.dest = r) = (x.1.rank r).done
  /-- When the listener has returned in a run that closes, no call is pending on any rank. -/
  pending : (x.1.rank r).listener = .stopped → Closes cfg u mem main x.1 → x.1.pending = 0
  /-- When the listener has returned in a run that closes, the receive queue of the rank is
  empty, and no message to the rank is outstanding. -/
  queue : (x.1.rank r).listener = .stopped → Closes cfg u mem main x.1 →
    (x.1.rank r).receiveQueue = []
  stream : (x.1.rank r).listener = .stopped → Closes cfg u mem main x.1 →
    ∀ src, x.1.net src r = []

/-- **Shutdown loses nothing**, whatever the main programs and their handlers call: the listener
of a rank leaves on the kill signal only, and by then every call for the rank has been executed
if all ranks close together. -/
theorem shutdown_loses_nothing {x : Sys n P σ V (LifeCode C) × Traffic n P}
    (h : (lifeTraffic cfg u mem main).Reachable x) (r : Fin n) :
    ShutDown cfg u mem main r x := by
  obtain ⟨c, t⟩ := x
  have reached : (lifeComm cfg u mem main).Reachable c := h.of_recording
  have killed := killed_of_reachable h r
  have ended : (c.rank r).listener = .stopped → (c.rank r).code = .done ∧ c.net r r = [] := by
    intro stopped
    cases killed with
    | before _ _ _ runs | sent _ _ _ runs => exact absurd stopped runs
    | stopped _ empty done _ => exact ⟨done, empty⟩
  have none : (c.rank r).listener = .stopped → Closes cfg u mem main c → c.pending = 0 :=
    fun stopped closes => pending_of_done reached closes (ended stopped).1
  refine ⟨?_, fun some y leads => ?_, fun src d taken stopped => ?_,
    fun stopped d leads closes => ?_, none, fun stopped closes => ?_, fun stopped closes src => ?_⟩
  · cases killed with
    | before own => exact .inl own
    | sent own _ done | stopped own _ done => exact .inr ⟨own, done⟩
  · refine (sent_of_leads h leads ?_).2
    cases killed with
    | before own => exact absurd own some
    | sent _ _ done | stopped _ _ done => exact done
  · rcases Sys.step_cases taken with ⟨_, _, _, _, eq, -⟩ | ⟨i, source, s, stream, eq, receive, rfl⟩
    · cases eq
    · cases eq
      simp only [Function.update_self] at stopped ⊢
      by_cases own : src = r
      · subst own
        obtain ⟨ran, -, packet, head⟩ :=
          receive.stops killed.signal ((Sys.routed_of_reachable reached).rank src)
        cases killed with
        | before _ empty => simp [empty] at head
        | stopped _ _ _ ended => exact absurd ended ran
        | sent _ full =>
            rw [full] at head
            cases head
            exact ⟨rfl, full, by simp⟩
      · exact absurd stopped (receive.runs own).2
  · obtain ⟨done, same⟩ := executed_of_leads reached leads (ended stopped).1
    have later := reached.leads leads
    rw [executed_of_pending later (pending_of_done later closes done) r, Rank.done, same]
    rfl
  · refine List.eq_nil_iff_forall_not_mem.mpr fun entry member => ?_
    obtain ⟨m, hm⟩ := List.exists_mem_of_ne_nil _ (queue_filled h r entry member)
    have pending : m ∈ c.pending := by
      have : m ∈ c.queued := Multiset.mem_sum.mpr ⟨r, Finset.mem_univ r,
        List.mem_flatMap.mpr ⟨entry, member, hm⟩⟩
      simp [Sys.pending, Sys.unfinished, this]
    rw [none stopped closes] at pending
    cases Multiset.notMem_zero m pending
  · by_cases own : src = r
    · subst own
      exact (ended stopped).2
    · exact stream_eq_nil h (none stopped closes) own stopped

end Runs

/-- Two ranks without a barrier of their own: a call that is answered, and a large message. -/
def lastMain : Fin 2 → List (Act 2)
  | 0 => [.async 1 4 [.async 0 4 []]]
  | 1 => [.async 0 16 []]

/-- Their run until the listener of rank 1 is through, and that of rank 0 is not. -/
def lastState : Sys 2 (ℕ × List (Act 2)) Unit Unit (LifeCode (List (Act 2))) ×
    Traffic 2 (ℕ × List (Act 2)) :=
  (lifeTraffic ⟨16, false⟩ (script 2) (fun _ => ()) lastMain).drive (fun _ _ => True)
    (lifeTraffic ⟨16, false⟩ (script 2) (fun _ => ()) lastMain).init
    (List.replicate 6 (mains 0 12 ++ mains 1 12 ++ [.listen 0 1, .listen 0 1, .listen 1 0,
      .listen 1 0, .listen 0 0, .listen 1 1])).flatten

theorem shutdown_loses_nothing_last :
    (lastState.1.rank 1).listener = .stopped ∧ (lastState.1.rank 0).listener = .any ∧
      Closes ⟨16, false⟩ (script 2) (fun _ => ()) lastMain lastState.1 ∧
      lastState.1.issued.card = 3 ∧
      ShutDown ⟨16, false⟩ (script 2) (fun _ => ()) lastMain 1 lastState := by
  have run : ((lastState.1.rank 1).listener, (lastState.1.rank 0).listener,
      lastState.1.issued.card, (lastState.1.rank 0).code.inDestructor,
      (lastState.1.rank 1).code.inDestructor,
      (lastState.1.rank 0).barriers, (lastState.1.rank 1).barriers)
      = (.stopped, .any, 3, true, true, 1, 1) := by decide +kernel
  simp only [Prod.mk.injEq] at run
  obtain ⟨stopped, any, issued, zero, one, barriers, barriers'⟩ := run
  have reached : (lifeTraffic ⟨16, false⟩ (script 2) (fun _ => ()) lastMain).Reachable lastState :=
    Machine.ReachableBy.init.drive _
  have closing : lastState.1.Closing := by
    refine ⟨fun | 0 => zero | 1 => one, .inr ?_⟩
    have all : ∀ r, (lastState.1.rank r).barriers = 1 := fun | 0 => barriers | 1 => barriers'
    exact fun r i => (all r).trans (all i).symm
  exact ⟨stopped, any, ⟨lastState.1, reached.of_recording, closing, .inl .refl⟩, issued,
    shutdown_loses_nothing reached 1⟩

end YGM
