import YGM.Comm.Buffers
import YGM.Comm.Outline

/-!
# Blocking sends

With `Config.synchronous` every `MPI_Send` is a rendezvous: it completes when its message has
been received.  A rank then has at most one message in the network, and as long as it is there
the rank is at the send of it (`rendezvous_of_reachable`).

The listener of another rank may have to wait too: between the announcement of a large message
and the message itself it takes nothing else.  But then the sender is at the send of just this
message, or about to be (`payload_of_reachable`), so it does not wait for anybody else.  Hence
nobody waits in a send for ever, whatever circles of sends there are: while a rank has an
activation above its main program, some thread can move (`moves_of_busy`).

Handlers take no part in collectives, and nobody shuts down (`Program.Plain`).
-/

namespace YGM

variable {n : ℕ} {P σ V C : Type}
variable {cfg : Config} {prog : Program n P σ V C} {mem : Fin n → σ} {main : Fin n → C}
variable {c : Sys n P σ V C}

/-! ## Programs -/

/-- A command that a handler may give in a plain program: it neither enters a collective nor
shuts the communicator down, and it leads to code of handlers again. -/
def Cmd.InHandler (inHandler : C → Prop) : Cmd n P σ V C → Prop
  | .ret _ => True
  | .update _ k | .async _ _ k | .asyncFlush _ k | .asyncFlushAll k => inHandler k
  | .barrier _ | .allReduce .. | .kill _ => False

/-- **Plain programs** consist of asyncs, flushes, barriers and reductions: their handlers take
no part in collectives, and no code shuts the communicator down. -/
structure Program.Plain (prog : Program n P σ V C) : Prop where
  /-- Handlers only compute, issue calls and flush send buffers. -/
  handlers : ∃ inHandler : C → Prop, (∀ src p, inHandler (prog.handler src p)) ∧
    ∀ k mem, inHandler k → (prog.next k mem).InHandler inHandler
  /-- No code of the program sends the kill signal from `~impl`. -/
  alive : ∀ k mem k', prog.next k mem ≠ .kill k'

/-- The outline of a plain program: the code run for a call is code of handlers. -/
def handlerOutline (inHandler : C → Prop) (start : ∀ src p, inHandler (prog.handler src p))
    (next : ∀ k mem, inHandler k → (prog.next k mem).InHandler inHandler) : Outline prog where
  code := fun cause k => cause = none ∨ inHandler k
  call := fun _ _ => True
  start := fun m _ => .inr (start m.src m.payload)
  next := fun cause k mem known => by
    have goes : ∀ k', (cause ≠ none → inHandler k') → cause = none ∨ inHandler k' := by
      intro k' inside
      by_cases main : cause = none
      · exact .inl main
      · exact .inr (inside main)
    have handled : cause ≠ none → (prog.next k mem).InHandler inHandler :=
      fun main => next k mem (known.resolve_left main)
    cases cmd : prog.next k mem with
    | ret => trivial
    | async => exact ⟨trivial, goes _ fun main => by simpa [cmd, Cmd.InHandler] using handled main⟩
    | update | asyncFlush | asyncFlushAll =>
        exact goes _ fun main => by simpa [cmd, Cmd.InHandler] using handled main
    | barrier | kill => exact fun _ => .inl rfl
    | allReduce => exact fun _ _ => .inl rfl

/-- **The next command of a handler** of a plain program neither enters a collective nor shuts
down. -/
theorem Program.Plain.handler (plain : prog.Plain) (h : (comm cfg prog mem main).Reachable c)
    {r : Fin n} {ctx : Ctx n P} {k : C} (running : .user ctx k ∈ (c.rank r).stack) :
    ∃ inHandler : C → Prop, (prog.next k (c.rank r).mem).InHandler inHandler := by
  obtain ⟨inHandler, start, next⟩ := plain.handlers
  have holds := ((handlerOutline inHandler start next).of_reachable (fun _ => .inl rfl) h r).1
  exact ⟨inHandler, next k _ ((holds.stack ctx k running).resolve_left (by simp))⟩

/-! ## Nobody has shut down -/

section Steps

variable {r : Fin n} {w : View n V} {s t : Rank n P σ V C}

/-- **A rank that sends** in a plain program sends to another rank, and is at that send after
the move. -/
theorem Move.blocks {dest : Fin n} {packet : Packet n P} (plain : prog.Plain)
    (move : Move cfg prog r w s t (some (dest, packet))) (routed : s.Routed r) :
    dest ≠ r ∧ ∃ rest, t.stack = .sending dest :: rest := by
  cases move with
  | kill pc stack cmd => exact absurd cmd (plain.alive _ _ _)
  | announce stack | large stack =>
      have top := routed.stack
      rw [stack, List.forall_mem_cons] at top
      exact ⟨top.1.2, _, rfl⟩
  | flush stack other nonempty => exact ⟨other, _, rfl⟩

theorem Move.not_join {sent : Option (Fin n × Packet n P)} (plain : prog.Plain)
    (move : Move cfg prog r w s t sent) (before : s.pc ≠ .join) : t.pc ≠ .join := by
  cases move with
  | kill pc stack cmd => exact absurd cmd (plain.alive _ _ _)
  | update | asyncSelf | asyncRemote | callFlush => simpa [Rank.call] using before
  | barrier | reduce | reduced | joined | sample | pending | confirm | retry | leave | throw => simp
  | _ => exact before

/-- A receive takes exactly one message from its stream. -/
theorem Receive.length {src : Fin n} {stream stream' : List (Packet n P)}
    (receive : Receive cfg prog r src s stream t stream') :
    stream.length = stream'.length + 1 := by
  cases receive with
  | announced any head | stop any head | buffer any head | stray any head => simp [head]
  | large awaited taken announced =>
      obtain ⟨before, after, rfl, rfl⟩ := takeLarge_spec taken
      simp
      omega

end Steps

/-- **A state in which no rank has shut down**: no listener has stopped, and no rank has sent
itself anything. -/
structure Sys.Open (c : Sys n P σ V C) : Prop where
  listener : ∀ r, (c.rank r).listener ≠ .stopped
  own : ∀ r, c.net r r = []
  join : ∀ r, (c.rank r).pc ≠ .join

theorem open_of_reachable (plain : prog.Plain) (h : (comm cfg prog mem main).Reachable c) :
    c.Open := by
  refine h.invariant (I := Sys.Open) ⟨by simp [comm, Rank.init], fun _ => rfl,
    by simp [comm, Rank.init]⟩ ?_
  intro c a d before inv taken
  have routed := Sys.routed_of_reachable before
  rcases Sys.step_cases taken with
    ⟨i, flag, t, sent, -, move, rfl⟩ | ⟨i, src, t, stream, -, receive, rfl⟩
  · refine ⟨fun r => ?_, fun r => ?_, fun r => ?_⟩
    · by_cases hr : r = i
      · subst hr
        simpa [move.listener] using inv.listener r
      · simpa [hr] using inv.listener r
    · by_cases hr : r = i
      · subst hr
        cases sent with
        | none => exact inv.own r
        | some out =>
            obtain ⟨dest, packet⟩ := out
            have other := (move.blocks plain (routed.rank r)).1
            simpa [Sys.send, other.symm] using inv.own r
      · simpa only [Sys.send_of_ne _ _ hr] using inv.own r
    · by_cases hr : r = i
      · subst hr
        simpa using move.not_join plain (inv.join r)
      · simpa [hr] using inv.join r
  · have other : src ≠ i := by
      rintro rfl
      have length := receive.length
      rw [inv.own src] at length
      simp at length
    refine ⟨fun r => ?_, fun r => ?_, fun r => ?_⟩
    · by_cases hr : r = i
      · subst hr
        simp only [Function.update_self]
        cases receive with
        | stop any head data own => exact absurd own other
        | _ => simp
      · simpa [hr] using inv.listener r
    · by_cases hr : r = src
      · subst hr
        simpa [other] using inv.own r
      · simpa [hr] using inv.own r
    · obtain ⟨listener, queue, eq⟩ := receive.frame r
      simp only [eq]
      exact inv.join r

/-! ## A message in the network has its sender waiting -/

/-- **Every message in the network is being sent**: it is the only one in its stream, and its
sender is at the send of it. -/
def Sys.Rendezvous (c : Sys n P σ V C) : Prop :=
  ∀ s d, c.net s d ≠ [] →
    ∃ packet rest, c.net s d = [packet] ∧ (c.rank s).stack = .sending d :: rest

/-- With blocking sends, all messages of a rank have been received whenever its main thread
moves. -/
theorem Sys.Rendezvous.quiet (synchronous : cfg.synchronous = true) (meets : c.Rendezvous)
    {r : Fin n} {flag : Bool} {d : Sys n P σ V C}
    (taken : Sys.step cfg prog c (.main r flag) = some d) (dest : Fin n) : c.net r dest = [] := by
  by_contra waiting
  obtain ⟨packet, rest, one, stack⟩ := meets r dest waiting
  simp [Sys.step, mainStep, stack, frameStep, synchronous, Sys.view, one] at taken

theorem rendezvous_of_reachable (synchronous : cfg.synchronous = true) (plain : prog.Plain)
    (h : (comm cfg prog mem main).Reachable c) : c.Rendezvous := by
  refine h.invariant (I := Sys.Rendezvous) (fun s d waiting => absurd rfl waiting) ?_
  intro c a d before inv taken
  have routed := Sys.routed_of_reachable before
  change Sys.step cfg prog c a = some d at taken
  have here := taken
  rcases Sys.step_cases taken with
    ⟨i, flag, t, sent, rfl, move, rfl⟩ | ⟨i, src, t, stream, -, receive, rfl⟩
  · intro s dest waiting
    by_cases hs : s = i
    · subst hs
      have quiet := inv.quiet synchronous here
      cases sent with
      | none => exact absurd (quiet dest) waiting
      | some out =>
          obtain ⟨dest', packet⟩ := out
          obtain ⟨rest, stack⟩ := (move.blocks plain (routed.rank s)).2
          by_cases hd : dest = dest'
          · subst hd
            exact ⟨packet, rest, by simp [Sys.send, quiet], by simpa using stack⟩
          · simp [Sys.send, hd, quiet] at waiting
    · simp only [Sys.send_of_ne _ _ hs] at waiting ⊢
      simpa [hs] using inv s dest waiting
  · intro s dest waiting
    have stack : (Function.update c.rank i t s).stack = (c.rank s).stack := by
      obtain ⟨listener, queue, eq⟩ := receive.frame s
      simp only [eq]
    simp only [stack]
    by_cases hs : s = src
    · subst hs
      by_cases hd : dest = i
      · -- the one message of this stream has been received
        subst hd
        have length := receive.length
        have some : c.net s dest ≠ [] := fun nil => by simp [nil] at length
        obtain ⟨packet, rest, one, -⟩ := inv s dest some
        rw [one, List.length_singleton] at length
        have gone : stream = [] := List.eq_nil_of_length_eq_zero (by omega)
        simp [gone] at waiting
      · simpa [hd] using inv s dest (by simpa [hd] using waiting)
    · simpa [hs] using inv s dest (by simpa [hs] using waiting)

/-! ## Between an announcement and its message -/

/-- **At the send of a large message** of `size` bytes for `r`, whose announcement has been
taken: nothing but the return from the send of the announcement can come before it.  `stream`
is the stream to `r`. -/
inductive AtPayload (prog : Program n P σ V C) (r : Fin n) (size : ℕ) (s : Rank n P σ V C)
    (stream : List (Packet n P)) : Prop
  /-- The send of the announcement has been matched and returns. -/
  | announced {m : Rpc n P} {rest : List (Frame n P C)} (dest : m.dest = r)
      (sized : prog.packedSize m.payload = size) (matched : stream = [])
      (stack : s.stack = .sending r :: .large m :: rest)
  /-- The message is what the sender sends next. -/
  | next {m : Rpc n P} {rest : List (Frame n P C)} (dest : m.dest = r)
      (sized : prog.packedSize m.payload = size) (matched : stream = [])
      (stack : s.stack = .large m :: rest)
  /-- The sender is in the send of the large message, which is posted. -/
  | sending {m : Rpc n P} {rest : List (Frame n P C)} (dest : m.dest = r)
      (sized : prog.packedSize m.payload = size) (posted : stream = [.large m])
      (stack : s.stack = .sending r :: rest)

/-- Every run of the communicator has a record of its messages. -/
theorem exists_traffic (h : (comm cfg prog mem main).Reachable c) :
    ∃ t, (commTraffic cfg prog mem main).Reachable (c, t) :=
  h.exists_recording

/-- The send that is above a large message on the stack is that of its announcement, and goes to
the same rank. -/
theorem Storing.dest_eq {r dest : Fin n} {buffers : Fin n → List (Rpc n P)} {m : Rpc n P}
    {rest : List (Frame n P C)}
    (h : Storing cfg prog r buffers (.sending dest :: .large m :: rest)) : dest = m.dest := by
  cases h with
  | nothing clear => cases clear (.large m) (by simp)
  | announced => rfl

/-- **A rank that has announced a large message is sending it**, as long as the listener awaits
the message. -/
theorem payload_of_reachable (synchronous : cfg.synchronous = true) (plain : prog.Plain)
    (h : (comm cfg prog mem main).Reachable c) {r src : Fin n} {size : ℕ}
    (awaits : (c.rank r).listener = .large src size) :
    AtPayload prog r size (c.rank src) (c.net src r) := by
  have routed := Sys.routed_of_reachable h
  have apart := (routed.rank r).listener src size awaits
  obtain ⟨t, recorded⟩ := exists_traffic h
  obtain ⟨m, announcing, shape⟩ := (paired_of_reachable apart recorded).shape
  have awaited : (c.rank r).listener.awaits src = some size := by simp [awaits, Listener.awaits]
  simp only [awaited] at shape
  by_cases empty : c.net src r = []
  · have here : announcedTo prog r m = some size := by
      simpa [empty, pairing, eq_comm] using shape
    obtain ⟨m', rfl, found⟩ := Option.bind_eq_some_iff.mp here
    split at found
    case isFalse => cases found
    case isTrue dest =>
      have sized := Option.some.inj found
      have storing := storing_of_reachable h src
      generalize stack : (c.rank src).stack = frames at announcing storing
      cases announcing with
      | sending =>
          rw [storing.dest_eq, dest] at stack
          exact .announced dest sized empty stack
      | next => exact .next dest sized empty stack
  · obtain ⟨packet, rest, one, stack⟩ :=
      rendezvous_of_reachable synchronous plain h src r empty
    rw [one] at shape
    obtain ⟨m', rfl, sized, -⟩ := pairing_some shape
    obtain ⟨between, -⟩ := routed.net src r (.large m') (by simp [one])
    exact .sending (between m' (by simp)).2 sized one stack

/-! ## Somebody can move -/

/-- The stream begins with the announcement of a large message. -/
def headAnnounces : List (Packet n P) → Bool
  | .announce _ :: _ => true
  | _ => false

/-- **No announcement is truncated**: the buffer of the any-source receive has room for its
eight bytes. -/
def Sys.Untruncated (cfg : Config) (c : Sys n P σ V C) : Prop :=
  ∀ r src, (c.rank r).listener = .any → headAnnounces (c.net src r) = true →
    8 ≤ cfg.bufferCapacity

instance (cfg : Config) (c : Sys n P σ V C) : Decidable (c.Untruncated cfg) :=
  inferInstanceAs (Decidable (∀ r src, (c.rank r).listener = .any →
    headAnnounces (c.net src r) = true → 8 ≤ cfg.bufferCapacity))

/-- **A thread that can move**: a listener, or a main thread in an activation above its main
program. -/
def Moves (cfg : Config) (prog : Program n P σ V C) (c : Sys n P σ V C) : Prop :=
  ∃ a d, Sys.step cfg prog c a = some d ∧ ∀ r flag, a = .main r flag → (c.rank r).stack ≠ []

theorem Moves.listener (r src : Fin n)
    (able : (listenStep cfg prog r src (c.net src r) (c.rank r)).isSome) : Moves cfg prog c := by
  obtain ⟨out, taken⟩ := Option.isSome_iff_exists.mp able
  exact ⟨.listen r src, _, by simp only [Sys.step, taken, Option.map_some]; rfl, nofun⟩

theorem Moves.thread (r : Fin n) (busy : (c.rank r).stack ≠ [])
    (able : (mainStep cfg prog r (c.view prog r false) (c.rank r)).isSome) : Moves cfg prog c := by
  obtain ⟨out, taken⟩ := Option.isSome_iff_exists.mp able
  refine ⟨.main r false, _, by simp only [Sys.step, taken, Option.map_some]; rfl, ?_⟩
  rintro i flag ⟨⟩
  exact busy

/-- A rank at a send whose message has been received can move on. -/
theorem Moves.matched {r dest : Fin n} {rest : List (Frame n P C)}
    (stack : (c.rank r).stack = .sending dest :: rest) (matched : c.net r dest = []) :
    Moves cfg prog c :=
  .thread r (by simp [stack]) (by simp [mainStep, stack, frameStep, Sys.view, matched])

/-- **The message that a listener awaits** is in the network, or its sender is about to send it. -/
inductive Awaited (cfg : Config) (prog : Program n P σ V C) (c : Sys n P σ V C) (r src : Fin n) :
    Prop
  /-- The message is there, and the listener can take it. -/
  | posted (able : (listenStep cfg prog r src (c.net src r) (c.rank r)).isSome)
  /-- The send of the announcement has been matched and returns. -/
  | announced {m : Rpc n P} {rest : List (Frame n P C)}
      (stack : (c.rank src).stack = .sending r :: .large m :: rest) (matched : c.net src r = [])
  /-- The message is what the sender sends next. -/
  | next {m : Rpc n P} {rest : List (Frame n P C)} (stack : (c.rank src).stack = .large m :: rest)

/-- **A large message that is awaited** is there to be taken, or its sender can move, or its
sender is about to send it. -/
theorem awaited_of_reachable (h : (comm cfg prog mem main).Reachable c) {r src : Fin n} {size : ℕ}
    (awaits : (c.rank r).listener = .large src size) : Awaited cfg prog c r src := by
  have apart := ((Sys.routed_of_reachable h).rank r).listener src size awaits
  obtain ⟨t, recorded⟩ := exists_traffic h
  obtain ⟨m, announcing, shape⟩ := (paired_of_reachable apart recorded).shape
  have awaited : (c.rank r).listener.awaits src = some size := by simp [awaits, Listener.awaits]
  simp only [awaited] at shape
  cases stream : c.net src r with
  | cons packet rest =>
      rw [stream] at shape
      obtain ⟨m', rfl, rfl, -⟩ := pairing_some shape
      exact .posted (by simp [listenStep, awaits, stream, takeLarge])
  | nil =>
      have here : announcedTo prog r m = some size := by
        simpa [stream, pairing, eq_comm] using shape
      obtain ⟨m', rfl, found⟩ := Option.bind_eq_some_iff.mp here
      split at found
      case isFalse => cases found
      case isTrue dest =>
        have storing := storing_of_reachable h src
        generalize stack : (c.rank src).stack = frames at announcing storing
        cases announcing with
        | sending =>
            rw [storing.dest_eq, dest] at stack
            exact .announced stack stream
        | next => exact .next stack

theorem moves_of_awaited (h : (comm cfg prog mem main).Reachable c) {r src : Fin n} {size : ℕ}
    (awaits : (c.rank r).listener = .large src size) : Moves cfg prog c := by
  cases awaited_of_reachable h awaits with
  | posted able => exact .listener r src able
  | announced stack matched => exact .matched stack matched
  | next stack => exact .thread src (by simp [stack]) (by simp [mainStep, stack, frameStep])

/-- In a plain program, a listener at its any-source receive can take the first message of any
stream to it, unless that is a truncated announcement. -/
theorem listenStep_isSome (plain : prog.Plain) (h : (comm cfg prog mem main).Reachable c)
    (untruncated : c.Untruncated cfg) {r dest : Fin n} (waiting : c.net r dest ≠ [])
    (any : (c.rank dest).listener = .any) :
    (listenStep cfg prog dest r (c.net r dest) (c.rank dest)).isSome := by
  obtain ⟨packet, rest, stream⟩ := List.exists_cons_of_ne_nil waiting
  have apart : r ≠ dest := by
    rintro rfl
    exact waiting ((open_of_reachable plain h).own r)
  obtain ⟨t, recorded⟩ := exists_traffic h
  have paired := paired_of_reachable apart recorded
  obtain ⟨m, -, shape⟩ := paired.shape
  obtain ⟨before, whole, -, -⟩ := paired.taken
  simp only [stream] at shape whole
  cases packet with
  | announce size =>
      have fits := untruncated dest r any (by rw [stream]; rfl)
      simp [listenStep, any, stream, fits]
  | buffer msgs =>
      have fits := ((batched_of_reachable apart recorded).sends msgs (by simp [whole])).2
      simp [listenStep, any, stream, fits]
  | large m' => simp [any, Listener.awaits, pairing] at shape

/-- **As long as a message is in the network, some thread can move**: the listener receives the
message or the one it waits for, or the sender of that one moves. -/
theorem moves_of_stream (plain : prog.Plain) (h : (comm cfg prog mem main).Reachable c)
    (untruncated : c.Untruncated cfg) {r dest : Fin n} (waiting : c.net r dest ≠ []) :
    Moves cfg prog c := by
  cases awaits : (c.rank dest).listener with
  | stopped => exact absurd awaits ((open_of_reachable plain h).listener dest)
  | any => exact .listener dest r (listenStep_isSome plain h untruncated waiting awaits)
  | large source size => exact moves_of_awaited h awaits

/-- A command that a handler of a plain program gives can be carried out in any state. -/
theorem userStep_isSome {inHandler : C → Prop} {cmd : Cmd n P σ V C} (plain : cmd.InHandler inHandler)
    (r : Fin n) (s : Rank n P σ V C) (ctx : Ctx n P) (rest : List (Frame n P C)) :
    (userStep cfg prog r s (some ctx) rest cmd).isSome := by
  cases cmd with
  | ret mem => cases ctx <;> rfl
  | barrier | allReduce | kill => exact plain.elim
  | _ => rfl

/-- **Above the main program a main thread can move**, unless it is in a send that has not been
matched. -/
theorem mainStep_isSome (plain : prog.Plain) (h : (comm cfg prog mem main).Reachable c) {r : Fin n}
    (busy : (c.rank r).stack ≠ [])
    (matched : ∀ dest rest, (c.rank r).stack = .sending dest :: rest → c.net r dest = [])
    (flag : Bool) : (mainStep cfg prog r (c.view prog r flag) (c.rank r)).isSome := by
  obtain ⟨frame, rest, stack⟩ := List.exists_cons_of_ne_nil busy
  simp only [mainStep, stack]
  cases frame with
  | sending dest => simp [frameStep, Sys.view, matched dest rest stack]
  | user ctx k =>
      have running : .user ctx k ∈ (c.rank r).stack := by simp [stack]
      obtain ⟨inHandler, inside⟩ := plain.handler h running
      exact userStep_isSome inside r (c.rank r) ctx rest
  | store | announce | large | flush | idle => rfl
  | parse src tail => cases tail <;> rfl
  | peek | flushAll | recv | idleTest =>
      simp only [frameStep]
      split <;> rfl

/-- **Above the main program no rank is stuck**: while any rank has an activation above its main
program, some thread can move. -/
theorem moves_of_busy (plain : prog.Plain) (h : (comm cfg prog mem main).Reachable c)
    (untruncated : c.Untruncated cfg) {r : Fin n} (busy : (c.rank r).stack ≠ []) :
    Moves cfg prog c := by
  by_cases matched : ∀ dest rest, (c.rank r).stack = .sending dest :: rest → c.net r dest = []
  · exact .thread r busy (mainStep_isSome plain h busy matched false)
  · simp only [not_forall] at matched
    obtain ⟨dest, rest, stack, waiting⟩ := matched
    exact moves_of_stream plain h untruncated waiting

end YGM
