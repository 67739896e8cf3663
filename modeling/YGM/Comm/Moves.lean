import YGM.Comm.Model

/-!
# What one step can do

Every invariant of the communicator is proved from the case analysis of this
file and none unfolds `mainStep` again.  `Move` lists what the main thread of a
rank can do to that rank and to the network, with the result written out;
`Move.of_mainStep` says that the list is complete.  Steps that only replace
activations carrying no call are one case (`Move.silent`).

`Sys.step_cases` lifts this to the system: a step is a move of one main thread
or a receive (`Receive`) of one listener.
-/

namespace YGM

variable {n : ℕ} {P σ V C : Type}

namespace Frame

/-- The call whose handler an activation is running, as a list of at most one entry. -/
def executing : Frame n P C → List (Rpc n P)
  | .user ctx _ => [ctx.rpc]
  | _ => []

/-- The call that an `async` in progress has counted and packed, but neither stored in a buffer
nor sent. -/
def handed : Frame n P C → List (Rpc n P)
  | .store m | .announce m | .large m => [m]
  | _ => []

/-- The part of its buffer that a `receive_queue_process` has not parsed yet, also while the
handler of an earlier call runs. -/
def unparsed : Frame n P C → List (Rpc n P)
  | .user (.remote _ _ tail) _ => tail
  | .parse _ tail => tail
  | _ => []

/-- An activation is **silent** if it never carries a call: whatever it does, no call is
started, moved or finished by it. -/
def Silent : Frame n P C → Prop
  | .sending _ | .peek | .flush _ | .flushAll _ | .recv _ | .idle | .idleTest => True
  | _ => False

/-- The activations of `async_flush` and `MPI_Send`, which call no handler. -/
def Sends : Frame n P C → Prop
  | .sending _ | .flush _ | .flushAll _ => True
  | _ => False

theorem Silent.executing {frame : Frame n P C} (h : frame.Silent) :
    frame.executing = [] := by
  cases frame <;> first | rfl | exact h.elim

theorem Silent.handed {frame : Frame n P C} (h : frame.Silent) : frame.handed = [] := by
  cases frame <;> first | rfl | exact h.elim

theorem Silent.unparsed {frame : Frame n P C} (h : frame.Silent) :
    frame.unparsed = [] := by
  cases frame <;> first | rfl | exact h.elim

end Frame

/-- `s` is running user code at `k` in context `ctx` above the activations
`rest`: the main program, or the handler on top of the stack. -/
inductive Running (s : Rank n P σ V C) :
    Option (Ctx n P) → List (Frame n P C) → C → Prop
  | main (pc : s.pc = .user) (stack : s.stack = []) : Running s none [] s.code
  | handler {ctx : Ctx n P} {k : C} {rest : List (Frame n P C)}
      (stack : s.stack = .user ctx k :: rest) : Running s (some ctx) rest k

/-- The three ways an `async` to another rank goes on once the call is packed,
with the branch condition of each. -/
inductive AsyncPath (cfg : Config) (prog : Program n P σ V C)
    (s : Rank n P σ V C) (m : Rpc n P) : List (Frame n P C) → Prop
  | store (small : prog.packedSize m.payload < cfg.bufferCapacity)
      (room : prog.packedSize m.payload + prog.bufferSize (s.sendBuffers m.dest)
        ≤ cfg.bufferCapacity) :
      AsyncPath cfg prog s m [.store m, .peek]
  | flush (small : prog.packedSize m.payload < cfg.bufferCapacity)
      (full : cfg.bufferCapacity <
        prog.packedSize m.payload + prog.bufferSize (s.sendBuffers m.dest)) :
      AsyncPath cfg prog s m [.flush m.dest, .store m, .peek]
  | large (large : cfg.bufferCapacity ≤ prog.packedSize m.payload) :
      AsyncPath cfg prog s m [.announce m, .peek]

/-- **The moves of a main thread.**  `Move cfg prog r w s t sent`: rank `r`, at
`s` and seeing `w`, becomes `t` and hands `sent` to MPI. -/
inductive Move (cfg : Config) (prog : Program n P σ V C) (r : Fin n)
    (w : View n V) (s : Rank n P σ V C) :
    Rank n P σ V C → Option (Fin n × Packet n P) → Prop
  /-- A handler that was called by `local_receive` on its own rank returns. -/
  | retSelf {m : Rpc n P} {k : C} {rest : List (Frame n P C)} {mem : σ}
      (stack : s.stack = .user (.self m) k :: rest)
      (cmd : prog.next k s.mem = .ret mem) :
      Move cfg prog r w s ({ s with mem := mem, stack := rest }.finish r m) none
  /-- A handler called by `receive_queue_process` returns and is counted. -/
  | retRemote {src : Fin n} {m : Rpc n P} {tail : List (Rpc n P)} {k : C}
      {rest : List (Frame n P C)} {mem : σ}
      (stack : s.stack = .user (.remote src m tail) k :: rest)
      (cmd : prog.next k s.mem = .ret mem) :
      Move cfg prog r w s
        ({ s with
            mem := mem
            stack := .parse src tail :: rest
            recvCount := s.recvCount + 1
            localRpcCalls := s.localRpcCalls + 1 }.finish src m) none
  /-- User code computes on the memory of its rank, and goes on. -/
  | update {ctx : Option (Ctx n P)} {rest : List (Frame n P C)} {k k' : C} {mem : σ}
      (run : Running s ctx rest k) (cmd : prog.next k s.mem = .update mem k') :
      Move cfg prog r w s ({ s with mem := mem }.resume ctx rest k') none
  /-- User code issues a call to its own rank, whose handler runs at once. -/
  | asyncSelf {ctx : Option (Ctx n P)} {rest : List (Frame n P C)} {k k' : C}
      {payload : P} {m : Rpc n P} (run : Running s ctx rest k)
      (cmd : prog.next k s.mem = .async r payload k')
      (call : m = ⟨r, r, payload, s.issueEpoch ctx, s.cuts⟩) :
      Move cfg prog r w s
        (({ s with issued := s.issued ++ [m] }.resume ctx rest k').call
          [.user (.self m) (prog.handler r payload), .peek]) none
  /-- User code issues a call to another rank. -/
  | asyncRemote {ctx : Option (Ctx n P)} {rest : List (Frame n P C)} {k k' : C}
      {dest : Fin n} {payload : P} {m : Rpc n P} {frames : List (Frame n P C)}
      (run : Running s ctx rest k) (cmd : prog.next k s.mem = .async dest payload k')
      (call : m = ⟨r, dest, payload, s.issueEpoch ctx, s.cuts⟩)
      (remote : dest ≠ r) (path : AsyncPath cfg prog s m frames) :
      Move cfg prog r w s
        (({ s with
            sendCount := s.sendCount + 1
            localBytesSent := s.localBytesSent + prog.packedSize payload }.resume
              ctx rest k').call frames) none
  /-- User code flushes one buffer or all of them. -/
  | callFlush {ctx : Option (Ctx n P)} {rest : List (Frame n P C)} {k k' : C}
      {frame : Frame n P C} (run : Running s ctx rest k)
      (cmd : (∃ dest, prog.next k s.mem = .asyncFlush dest k' ∧ frame = .flush dest) ∨
        (prog.next k s.mem = .asyncFlushAll k' ∧ frame = .flushAll 0)) :
      Move cfg prog r w s ((s.resume ctx rest k').call [frame]) none
  /-- The main program enters `barrier`, and starts with `wait_local_idle`. -/
  | barrier {k : C} (pc : s.pc = .user) (stack : s.stack = [])
      (cmd : prog.next s.code s.mem = .barrier k) :
      Move cfg prog r w s
        { s with pc := .sample, code := k, stack := [.recv false, .idle] } none
  /-- The main program enters a reduction on `m_comm_other`. -/
  | reduce {value : V} {k : V → C} (pc : s.pc = .user) (stack : s.stack = [])
      (cmd : prog.next s.code s.mem = .allReduce value k) :
      Move cfg prog r w s
        { s with pc := .reduce k, otherPosts := s.otherPosts ++ [value] } none
  /-- The reduction in which the main program is has its result. -/
  | reduced {value : V} {k : V → C} (pc : s.pc = .reduce k) (stack : s.stack = [])
      (result : w.reduced = some value) :
      Move cfg prog r w s { s with pc := .user, code := k value } none
  /-- The destructor sends the kill signal to its own rank. -/
  | kill {k : C} (pc : s.pc = .user) (stack : s.stack = [])
      (cmd : prog.next s.code s.mem = .kill k) :
      Move cfg prog r w s { s with pc := .join, code := k } (some (r, .buffer []))
  /-- The destructor has joined the listener, which has returned. -/
  | joined (pc : s.pc = .join) (stack : s.stack = [])
      (stopped : s.listener = .stopped) :
      Move cfg prog r w s { s with pc := .user } none
  /-- Activations that carry no call are replaced by such activations. -/
  | silent {frame : Frame n P C} (frames : List (Frame n P C))
      {rest : List (Frame n P C)} {received : Bool}
      (stack : s.stack = frame :: rest) (old : frame.Silent)
      (new : ∀ f ∈ frames, f.Silent) (sends : frame.Sends → ∀ f ∈ frames, f.Sends)
      (done : ∀ dest, frame = .sending dest → frames = []) :
      Move cfg prog r w s
        { s with received := received, stack := frames ++ rest } none
  /-- A packed call is appended to its send buffer. -/
  | store {m : Rpc n P} {rest : List (Frame n P C)}
      (stack : s.stack = .store m :: rest) :
      Move cfg prog r w s
        { s with
          sendBuffers :=
            Function.update s.sendBuffers m.dest (s.sendBuffers m.dest ++ [m])
          issued := s.issued ++ [m]
          stack := rest } none
  /-- The main thread announces a large message to its destination. -/
  | announce {m : Rpc n P} {rest : List (Frame n P C)}
      (stack : s.stack = .announce m :: rest) :
      Move cfg prog r w s { s with stack := .sending m.dest :: .large m :: rest }
        (some (m.dest, .announce (prog.packedSize m.payload)))
  /-- The main thread sends the large message it has announced. -/
  | large {m : Rpc n P} {rest : List (Frame n P C)}
      (stack : s.stack = .large m :: rest) :
      Move cfg prog r w s
        { s with issued := s.issued ++ [m], stack := .sending m.dest :: rest }
        (some (m.dest, .large m))
  /-- The main thread sends a send buffer that is not empty. -/
  | flush {dest : Fin n} {rest : List (Frame n P C)}
      (stack : s.stack = .flush dest :: rest) (other : dest ≠ r)
      (nonempty : s.sendBuffers dest ≠ []) :
      Move cfg prog r w s
        { s with
          sendBuffers := Function.update s.sendBuffers dest []
          stack := .sending dest :: rest }
        (some (dest, .buffer (s.sendBuffers dest)))
  /-- `receive_queue_process` pops the oldest buffer from the receive queue. -/
  | pop {received : Bool} {msgs : List (Rpc n P)} {src : Fin n}
      {queue : List (List (Rpc n P) × Fin n)} {rest : List (Frame n P C)}
      (stack : s.stack = .recv received :: rest)
      (head : s.receiveQueue = (msgs, src) :: queue) :
      Move cfg prog r w s
        { s with receiveQueue := queue, stack := .parse src msgs :: rest } none
  /-- A buffer has been parsed to its end. -/
  | parsed {src : Fin n} {rest : List (Frame n P C)}
      (stack : s.stack = .parse src [] :: rest) :
      Move cfg prog r w s { s with stack := .recv true :: rest } none
  /-- The next call of a buffer is parsed and its handler starts. -/
  | parse {src : Fin n} {m : Rpc n P} {tail : List (Rpc n P)}
      {rest : List (Frame n P C)} (stack : s.stack = .parse src (m :: tail) :: rest) :
      Move cfg prog r w s
        { s with
          stack := .user (.remote src m tail) (prog.handler src m.payload) :: rest }
        none
  /-- `barrier` takes its first sample, and posts it to the first reduction. -/
  | sample (pc : s.pc = .sample) (stack : s.stack = []) :
      Move cfg prog r w s
        { s with
          pc := .test s.localCount
          barrierPosts := s.barrierPosts ++ [(.first, s.localCount)] } none
  /-- `MPI_Test` reports that the first reduction has no result yet, and `barrier` waits for
  local idleness again. -/
  | pending {first : ℤ} (pc : s.pc = .test first) (stack : s.stack = []) :
      Move cfg prog r w s
        { s with pc := .test first, stack := [.recv false, .idle] } none
  /-- The first reduction is zero: the second sample is taken and posted. -/
  | confirm {first : ℤ} (pc : s.pc = .test first) (stack : s.stack = [])
      (zero : w.allCount = some 0) :
      Move cfg prog r w s
        { s with
          pc := .second first s.localCount
          barrierPosts := s.barrierPosts ++ [(.second, s.localCount)] } none
  /-- A reduction is not zero: `barrier` starts over. -/
  | retry {sum : ℤ} (pc : (∃ first, s.pc = .test first) ∨
        ∃ first second, s.pc = .second first second)
      (stack : s.stack = []) (result : w.allCount = some sum) (nonzero : sum ≠ 0) :
      Move cfg prog r w s { s with pc := .sample, stack := [.recv false, .idle] } none
  /-- `barrier` returns, as both reductions have given zero and its two samples agree. -/
  | leave {first second : ℤ} (pc : s.pc = .second first second) (stack : s.stack = [])
      (zero : w.allCount = some 0) (agree : first = second) :
      Move cfg prog r w s { s with pc := .user, epoch := s.epoch + 1 } none
  /-- `barrier` throws, as both reductions have given zero and its two samples differ. -/
  | throw {first second : ℤ} (pc : s.pc = .second first second) (stack : s.stack = [])
      (zero : w.allCount = some 0) (differ : first ≠ second) :
      Move cfg prog r w s { s with pc := .thrown first second } none

section Completeness

variable {cfg : Config} {prog : Program n P σ V C} {r : Fin n} {w : View n V}
variable {s t : Rank n P σ V C} {sent : Option (Fin n × Packet n P)}

/-- A command of running user code is one of the user moves. -/
theorem Move.of_userStep {ctx : Option (Ctx n P)} {rest : List (Frame n P C)} {k : C}
    (run : Running s ctx rest k)
    (h : userStep cfg prog r s ctx rest (prog.next k s.mem) = some (t, sent)) :
    Move cfg prog r w s t sent := by
  cases cmd : prog.next k s.mem with
  | ret mem =>
      rw [cmd] at h
      cases run with
      | main _ _ => cases h
      | @handler ctx k rest stack =>
          cases ctx with
          | self m =>
              cases h
              exact .retSelf stack cmd
          | remote src m tail =>
              cases h
              exact .retRemote stack cmd
  | update mem k' =>
      rw [cmd] at h
      cases h
      exact .update run cmd
  | async dest payload k' =>
      rw [cmd] at h
      simp only [userStep, Option.some.injEq, Prod.mk.injEq] at h
      obtain ⟨rfl, rfl⟩ := h
      by_cases self : dest = r
      · subst self
        have move : Move cfg prog dest w s _ none := .asyncSelf run cmd rfl
        cases ctx <;> simpa [async, Rank.resume, Rank.call, Rank.cuts,
          Rank.issueEpoch] using move
      · by_cases small : prog.packedSize payload < cfg.bufferCapacity
        · by_cases full : cfg.bufferCapacity <
              prog.packedSize payload + prog.bufferSize (s.sendBuffers dest)
          · have move : Move cfg prog r w s _ none :=
              .asyncRemote run cmd rfl self (.flush small full)
            cases ctx <;> simpa [async, self, small, full, Rank.resume, Rank.call,
              Rank.cuts, Rank.issueEpoch] using move
          · have move : Move cfg prog r w s _ none :=
              .asyncRemote run cmd rfl self (.store small (Nat.le_of_not_lt full))
            cases ctx <;> simpa [async, self, small, full, Rank.resume, Rank.call,
              Rank.cuts, Rank.issueEpoch] using move
        · have move : Move cfg prog r w s _ none :=
            .asyncRemote run cmd rfl self (.large (Nat.le_of_not_lt small))
          cases ctx <;> simpa [async, self, small, Rank.resume, Rank.call,
            Rank.cuts, Rank.issueEpoch] using move
  | asyncFlush dest k' =>
      rw [cmd] at h
      cases h
      exact .callFlush run (.inl ⟨dest, cmd, rfl⟩)
  | asyncFlushAll k' =>
      rw [cmd] at h
      cases h
      exact .callFlush run (.inr ⟨cmd, rfl⟩)
  | barrier k' =>
      rw [cmd] at h
      cases run with
      | main pc stack =>
          cases h
          exact .barrier pc stack cmd
      | handler _ => cases h
  | allReduce value k' =>
      rw [cmd] at h
      cases run with
      | main pc stack =>
          cases h
          exact .reduce pc stack cmd
      | handler _ => cases h
  | kill k' =>
      rw [cmd] at h
      cases run with
      | main pc stack =>
          cases h
          exact .kill pc stack cmd
      | handler _ => cases h

/-- A step of the innermost activation is one of the moves. -/
theorem Move.of_frameStep {frame : Frame n P C} {rest : List (Frame n P C)}
    (stack : s.stack = frame :: rest)
    (h : frameStep cfg prog r w s rest frame = some (t, sent)) :
    Move cfg prog r w s t sent := by
  cases frame with
  | user ctx k => exact .of_userStep (.handler stack) h
  | store m =>
      cases h
      exact .store stack
  | announce m =>
      cases h
      exact .announce stack
  | large m =>
      cases h
      exact .large stack
  | sending dest =>
      simp only [frameStep] at h
      split at h
      · cases h
        exact .silent [] stack trivial (by simp) (by simp) (by simp)
      · cases h
  | peek =>
      simp only [frameStep] at h
      split at h
      · cases h
        exact .silent [] stack trivial (by simp) (by simp) (by simp)
      · cases h
        exact .silent [.recv false] stack trivial
          (by simp [Frame.Silent])
          (by simp [Frame.Sends]) (by simp)
  | flush dest =>
      simp only [frameStep, asyncFlush, Option.some.injEq] at h
      split at h
      · cases h
        exact .silent [] stack trivial (by simp) (by simp) (by simp)
      · cases h
        rename_i skip
        exact .flush stack (fun own => skip (.inl own)) (fun nil => skip (.inr nil))
  | flushAll i =>
      simp only [frameStep] at h
      split at h
      · cases h
        exact .silent [.flush (flushDest r i), .flushAll (i + 1)] stack
          trivial
          (by simp [Frame.Silent])
          (by simp [Frame.Sends]) (by simp)
      · cases h
        exact .silent [] stack trivial (by simp) (by simp) (by simp)
  | recv received =>
      simp only [frameStep] at h
      split at h
      · cases h
        exact .silent [] stack trivial (by simp) (by simp) (by simp)
      · cases h
        rename_i head
        exact .pop stack head
  | parse src tail =>
      cases tail with
      | nil =>
          cases h
          exact .parsed stack
      | cons m tail =>
          cases h
          exact .parse stack
  | idle =>
      cases h
      exact .silent [.flushAll 0, .recv false, .idleTest] stack
        trivial
        (by simp [Frame.Silent])
        (by simp [Frame.Sends]) (by simp)
  | idleTest =>
      simp only [frameStep] at h
      split at h
      · cases h
        exact .silent [.idle] stack trivial
          (by simp [Frame.Silent])
          (by simp [Frame.Sends]) (by simp)
      · cases h
        exact .silent [] stack trivial (by simp) (by simp) (by simp)

/-- A step of the main thread with an empty stack is one of the moves. -/
theorem Move.of_topStep (stack : s.stack = [])
    (h : topStep cfg prog r w s = some (t, sent)) : Move cfg prog r w s t sent := by
  cases pc : s.pc with
  | user =>
      simp only [topStep, pc] at h
      exact .of_userStep (.main pc stack) h
  | sample =>
      simp only [topStep, pc] at h
      cases h
      exact .sample pc stack
  | test first =>
      simp only [topStep, pc] at h
      split at h
      · cases h
        exact .pending pc stack
      · rename_i sum result
        split at h
        · cases h
          exact .pending pc stack
        · split at h
          · rename_i zero
            cases h
            exact .confirm pc stack (zero ▸ result)
          · rename_i nonzero
            cases h
            exact .retry (.inl ⟨first, pc⟩) stack result nonzero
  | second first second =>
      simp only [topStep, pc] at h
      split at h
      · cases h
      · rename_i sum result
        split at h
        · rename_i zero
          split at h
          · rename_i agree
            cases h
            exact .leave pc stack (zero ▸ result) agree
          · rename_i differ
            cases h
            exact .throw pc stack (zero ▸ result) differ
        · rename_i nonzero
          cases h
          exact .retry (.inr ⟨first, second, pc⟩) stack result nonzero
  | reduce k =>
      simp only [topStep, pc, Option.map_eq_some_iff] at h
      obtain ⟨value, result, out⟩ := h
      cases out
      exact .reduced pc stack result
  | join =>
      simp only [topStep, pc] at h
      split at h
      · rename_i stopped
        cases h
        exact .joined pc stack stopped
      · cases h
  | thrown first second =>
      simp only [topStep, pc] at h
      cases h

/-- **The moves are complete**: every step that `mainStep` can take is one of them. -/
theorem Move.of_mainStep (h : mainStep cfg prog r w s = some (t, sent)) :
    Move cfg prog r w s t sent := by
  cases stack : s.stack with
  | nil =>
      simp only [mainStep, stack] at h
      exact .of_topStep stack h
  | cons frame rest =>
      simp only [mainStep, stack] at h
      exact .of_frameStep stack h

end Completeness

/-- **The receives of a listener.**  `Receive cfg prog r src s stream t stream'`:
the listener of `r` takes a packet from the stream of `src`. -/
inductive Receive (cfg : Config) (prog : Program n P σ V C) (r src : Fin n)
    (s : Rank n P σ V C) (stream : List (Packet n P)) :
    Rank n P σ V C → List (Packet n P) → Prop
  /-- An announcement: the next receive is for its large message. -/
  | announced {size : ℕ} {stream' : List (Packet n P)} (listener : s.listener = .any)
      (head : stream = .announce size :: stream') (fits : 8 ≤ cfg.bufferCapacity) :
      Receive cfg prog r src s stream { s with listener := .large src size } stream'
  /-- Anything the any-source receive takes from the own rank is the kill signal. -/
  | stop {packet : Packet n P} {stream' : List (Packet n P)}
      (listener : s.listener = .any) (head : stream = packet :: stream')
      (data : ∀ size, packet ≠ .announce size) (own : src = r) :
      Receive cfg prog r src s stream { s with listener := .stopped } stream'
  /-- The listener receives an ordinary buffer of another rank, and pushes it onto the receive
  queue. -/
  | buffer {msgs : List (Rpc n P)} {stream' : List (Packet n P)}
      (listener : s.listener = .any) (head : stream = .buffer msgs :: stream')
      (fits : prog.bufferSize msgs ≤ cfg.bufferCapacity) (other : src ≠ r) :
      Receive cfg prog r src s stream
        { s with
          listener := .any
          receiveQueue := s.receiveQueue ++ [(msgs, src)] } stream'
  /-- A large message taken by the any-source receive. -/
  | stray {m : Rpc n P} {stream' : List (Packet n P)} (listener : s.listener = .any)
      (head : stream = .large m :: stream')
      (fits : prog.packedSize m.payload ≤ cfg.bufferCapacity) (other : src ≠ r) :
      Receive cfg prog r src s stream
        { s with
          listener := .any
          receiveQueue := s.receiveQueue ++ [([m], src)] } stream'
  /-- The large message that the last announcement was about. -/
  | large {size : ℕ} {m : Rpc n P} {stream' : List (Packet n P)}
      (listener : s.listener = .large src size)
      (taken : takeLarge stream = some (m, stream'))
      (announced : prog.packedSize m.payload = size) :
      Receive cfg prog r src s stream
        { s with
          listener := .any
          receiveQueue := s.receiveQueue ++ [([m], src)] } stream'

/-- The receives are complete: every step that `listenStep` can take is one of them. -/
theorem Receive.of_listenStep {cfg : Config} {prog : Program n P σ V C} {r src : Fin n}
    {s t : Rank n P σ V C} {stream stream' : List (Packet n P)}
    (h : listenStep cfg prog r src stream s = some (t, stream')) :
    Receive cfg prog r src s stream t stream' := by
  cases listener : s.listener with
  | any =>
      simp only [listenStep, listener] at h
      split at h
      · cases h
      · split at h
        · rename_i fits
          cases h
          exact .announced listener rfl fits
        · cases h
      · split at h
        · rename_i fits
          cases h
          split
          · rename_i own
            exact .stop listener rfl (by simp) own
          · rename_i other
            exact .buffer listener rfl fits other
        · cases h
      · split at h
        · rename_i fits
          cases h
          split
          · rename_i own
            exact .stop listener rfl (by simp) own
          · rename_i other
            exact .stray listener rfl fits other
        · cases h
  | large source size =>
      simp only [listenStep, listener] at h
      split at h
      · rename_i same
        subst same
        obtain ⟨⟨m, rest⟩, taken, h⟩ := Option.bind_eq_some_iff.mp h
        split at h
        · rename_i announced
          cases h
          exact .large listener taken announced
        · cases h
      · cases h
  | stopped =>
      simp only [listenStep, listener] at h
      cases h

namespace Sys

variable {cfg : Config} {prog : Program n P σ V C}

/-- **The steps of the system.** A step is a move of one rank's main thread or a receive of one
rank's listener; only that rank changes, and the network as the move or the receive says. -/
theorem step_cases {c d : Sys n P σ V C} {a : Action n}
    (h : Sys.step cfg prog c a = some d) :
    (∃ r flag t sent, a = .main r flag ∧
      Move cfg prog r (c.view prog r flag) (c.rank r) t sent ∧
      d = { rank := Function.update c.rank r t, net := send c.net r sent }) ∨
    (∃ r src t stream, a = .listen r src ∧
      Receive cfg prog r src (c.rank r) (c.net src r) t stream ∧
      d = { rank := Function.update c.rank r t
            net := Function.update c.net src
              (Function.update (c.net src) r stream) }) := by
  cases a with
  | main r flag =>
      obtain ⟨⟨t, sent⟩, moved, rfl⟩ := Option.map_eq_some_iff.mp h
      exact .inl ⟨r, flag, t, sent, rfl, .of_mainStep moved, rfl⟩
  | listen r src =>
      obtain ⟨⟨t, stream⟩, received, rfl⟩ := Option.map_eq_some_iff.mp h
      exact .inr ⟨r, src, t, stream, rfl, .of_listenStep received, rfl⟩

end Sys

/-! ## What a step leaves alone -/

section Fields

variable (s : Rank n P σ V C) (ctx : Option (Ctx n P)) (rest : List (Frame n P C)) (k : C)

@[simp] theorem Rank.resume_sendCount : (s.resume ctx rest k).sendCount = s.sendCount := by
  cases ctx <;> rfl

@[simp] theorem Rank.resume_recvCount : (s.resume ctx rest k).recvCount = s.recvCount := by
  cases ctx <;> rfl

@[simp] theorem Rank.resume_localBytesSent :
    (s.resume ctx rest k).localBytesSent = s.localBytesSent := by
  cases ctx <;> rfl

@[simp] theorem Rank.resume_localRpcCalls :
    (s.resume ctx rest k).localRpcCalls = s.localRpcCalls := by
  cases ctx <;> rfl

@[simp] theorem Rank.resume_sendBuffers :
    (s.resume ctx rest k).sendBuffers = s.sendBuffers := by
  cases ctx <;> rfl

@[simp] theorem Rank.resume_receiveQueue :
    (s.resume ctx rest k).receiveQueue = s.receiveQueue := by
  cases ctx <;> rfl

@[simp] theorem Rank.resume_listener : (s.resume ctx rest k).listener = s.listener := by
  cases ctx <;> rfl

@[simp] theorem Rank.resume_mem : (s.resume ctx rest k).mem = s.mem := by
  cases ctx <;> rfl

@[simp] theorem Rank.resume_pc : (s.resume ctx rest k).pc = s.pc := by
  cases ctx <;> rfl

@[simp] theorem Rank.resume_barrierPosts :
    (s.resume ctx rest k).barrierPosts = s.barrierPosts := by
  cases ctx <;> rfl

@[simp] theorem Rank.resume_otherPosts :
    (s.resume ctx rest k).otherPosts = s.otherPosts := by
  cases ctx <;> rfl

@[simp] theorem Rank.resume_epoch : (s.resume ctx rest k).epoch = s.epoch := by
  cases ctx <;> rfl

@[simp] theorem Rank.resume_issued : (s.resume ctx rest k).issued = s.issued := by
  cases ctx <;> rfl

@[simp] theorem Rank.resume_executed : (s.resume ctx rest k).executed = s.executed := by
  cases ctx <;> rfl

end Fields

end YGM
