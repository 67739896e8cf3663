import YGM.Comm.Delivery
import YGM.Comm.Script

/-!
# The order of calls between two ranks

Calls from `a` to `b` pass a line of stations: the send buffer of `a`, the stream, the
receive queue of `b`, the open buffers of `b`, and the calls `b` has executed
(`Sys.line`).  Every step moves calls along this line without overtaking, but two.  A large
message is announced and sent past the send buffer, and overtakes what is waiting there.  And a
handler on `b` that serves `a` and calls `async` gets to the receive queue from within: the
buffer of `a` that it takes from there overtakes the rest of the buffer it is in.

`Sys.flushed` asks of a step that it sends a large message only when the send buffer of its
destination is empty, and `Sys.unopened` that it opens a buffer of `a` only when no call of `a`
is unfinished in a buffer opened before.  In runs of such steps the line is the list of calls
`a` has issued to `b`, in order (`Sys.inLine_of_reachable`), and `b` executes them in that
order (`execution_order`).  Without the first condition the order can be lost (`overtaking`).
The second one is met wherever handlers that serve `a` on `b` issue no calls
(`execution_order_of_quiet`).

## Two details

A large message travels as two packets.  The listener of `b` takes the second by its
tag; that it cannot take a later one is the shape of the stream (`scan`), which goes
with the activations of `a` (`Announcing`).

A handler on `b` that serves another rank can always reach the receive queue and open a buffer
of `a`.  If the handlers that serve `a` issue no calls then nothing of `a` is open below it
(`Exposed`), since a handler for a call of `a` never gets to the queue.
-/

namespace YGM

variable {n : ℕ} {P σ V C : Type}
variable {cfg : Config} {prog : Program n P σ V C} {mem : Fin n → σ} {main : Fin n → C}
variable {a b r : Fin n} {w : View n V}

/-! ## Open buffers -/

/-- An activation works on a buffer of `a` if it parses one or runs a handler for a call in one. -/
def Frame.OpenedFrom (a : Fin n) : Frame n P C → Prop
  | .user (.remote src _ _) _ | .parse src _ => src = a
  | _ => False

/-- The calls of `a` that an activation has open and has not finished: the call its handler runs
for, and the calls behind it in the same buffer. -/
def Frame.opened (a : Fin n) : Frame n P C → List (Rpc n P)
  | .user (.remote src m tail) _ => if src = a then m :: tail else []
  | .parse src tail => if src = a then tail else []
  | _ => []

theorem Frame.opened_of_not {frame : Frame n P C} (h : ¬ frame.OpenedFrom a) :
    frame.opened a = [] := by
  cases frame with
  | user ctx k =>
      cases ctx with
      | self m => rfl
      | remote src m tail => exact if_neg h
  | parse src tail => exact if_neg h
  | _ => rfl

theorem Frame.Silent.not_opened {frame : Frame n P C} (h : frame.Silent) :
    ¬ frame.OpenedFrom a := by
  cases frame <;> first | exact h.elim | exact id

/-! ## The line of calls -/

/-- The calls of `a` that rank `s` has executed, has open or has queued, the oldest first. -/
def Rank.taken (a : Fin n) (s : Rank n P σ V C) : List (Rpc n P) :=
  (s.executed.filter fun e => e.src = a).map Exec.rpc ++
    (s.stack.flatMap (Frame.opened a) ++
      (s.receiveQueue.filter fun entry => entry.2 = a).flatMap Prod.fst)

theorem flatMap_opened {stack : List (Frame n P C)} (h : ∀ f ∈ stack, ¬ f.OpenedFrom a) :
    stack.flatMap (Frame.opened a) = [] :=
  List.flatMap_eq_nil_iff.mpr fun f hf => Frame.opened_of_not (h f hf)

theorem Running.flatMap_opened {s : Rank n P σ V C} {ctx : Option (Ctx n P)}
    {rest : List (Frame n P C)} {k : C} (run : Running s ctx rest k) (k' : C) :
    (s.resume ctx rest k').stack.flatMap (Frame.opened a)
      = s.stack.flatMap (Frame.opened a) :=
  run.flatMap_resume _ (fun ctx _ _ => by cases ctx <;> rfl) k'

/-- The next step of `s` is not one that opens a buffer of `a` while a call of `a` is unfinished
in a buffer opened before, that is from within a handler for a call of `a`. -/
def Rank.unopened (a : Fin n) (s : Rank n P σ V C) : Bool :=
  match s.stack, s.receiveQueue with
  | .recv _ :: rest, (_, src) :: _ =>
      decide (src ≠ a) || (rest.flatMap (Frame.opened a)).isEmpty
  | _, _ => true

/-- **A move keeps what a rank has taken from `a`, in order**, unless it opens a buffer of `a`
within another one. -/
theorem Move.taken {s t : Rank n P σ V C} {sent : Option (Fin n × Packet n P)}
    (move : Move cfg prog r w s t sent) (other : a ≠ r) (unopened : s.unopened a) :
    t.taken a = s.taken a := by
  cases move with
  | @retSelf m k rest mem stack cmd =>
      simp [Rank.taken, Rank.finish, stack, Frame.opened, other.symm]
  | @retRemote src m tail k rest mem stack cmd =>
      by_cases here : src = a
      · simp [Rank.taken, Rank.finish, stack, Frame.opened, here]
      · simp [Rank.taken, Rank.finish, stack, Frame.opened, here]
  | @update ctx rest k k' mem run cmd =>
      have same : (({ s with mem := mem }).resume ctx rest k').stack
          = (s.resume ctx rest k').stack := by cases ctx <;> rfl
      simp [Rank.taken, same, run.flatMap_opened]
  | @asyncSelf ctx rest k k' payload m run cmd call =>
      have same : (({ s with issued := s.issued ++ [m] }).resume ctx rest k').stack
          = (s.resume ctx rest k').stack := by cases ctx <;> rfl
      simp [Rank.taken, Rank.call, same, run.flatMap_opened, Frame.opened]
  | @asyncRemote ctx rest k k' dest payload m frames run cmd call remote path =>
      have same : (({ s with
            sendCount := s.sendCount + 1
            localBytesSent := s.localBytesSent + prog.packedSize payload }).resume
              ctx rest k').stack
          = (s.resume ctx rest k').stack := by cases ctx <;> rfl
      have none : frames.flatMap (Frame.opened a) = [] := by
        cases path <;> simp [Frame.opened]
      simp [Rank.taken, Rank.call, same, run.flatMap_opened, none]
  | @callFlush ctx rest k k' frame run cmd =>
      have none : frame.opened a = [] := by
        rcases cmd with ⟨dest, -, rfl⟩ | ⟨-, rfl⟩ <;> rfl
      simp [Rank.taken, Rank.call, run.flatMap_opened, none]
  | @silent frame frames rest received stack old new sends done =>
      have none := YGM.flatMap_opened (a := a) fun f hf => (new f hf).not_opened
      simp [Rank.taken, stack, none, Frame.opened_of_not old.not_opened]
  | @pop received msgs src queue rest stack head =>
      by_cases here : src = a
      · -- nothing of `a` is open below, so its calls stay in order
        have none : rest.flatMap (Frame.opened a) = [] := by
          simpa [Rank.unopened, stack, head, here] using unopened
        simp [Rank.taken, stack, head, Frame.opened, none, here]
      · simp [Rank.taken, stack, head, Frame.opened, here]
  | barrier | pending | retry => simp [Rank.taken, Frame.opened, *]
  | reduce | reduced | kill | joined | sample | confirm | leave | throw => rfl
  | store stack | announce stack | large stack | flush stack other nonempty
  | parsed stack | parse stack =>
      simp [Rank.taken, stack, Frame.opened]

/-- The calls in the packet that a step sends, if it sends one to `b`. -/
def sentTo (b : Fin n) (sent : Option (Fin n × Packet n P)) : List (Rpc n P) :=
  sent.elim [] fun out => if out.1 = b then out.2.rpcs else []

/-- `s` is not about to send a large message to `b` past others in the send buffer. -/
def Rank.flushed (b : Fin n) (s : Rank n P σ V C) : Bool :=
  match s.stack with
  | .large m :: _ => decide (m.dest ≠ b) || (s.sendBuffers b).isEmpty
  | _ => true

/-- **A move sends the calls for `b` in the order it issues them**: what it adds to the issued
calls, it adds behind those that were in the send buffer. -/
theorem Move.sends {s t : Rank n P σ V C} {sent : Option (Fin n × Packet n P)}
    (move : Move cfg prog r w s t sent) (other : r ≠ b) (flushed : s.flushed b) :
    ∃ new, (t.issued.filter fun m => m.dest = b)
        = (s.issued.filter fun m => m.dest = b) ++ new ∧
      sentTo b sent ++ t.sendBuffers b = s.sendBuffers b ++ new := by
  cases move with
  | @store m rest stack =>
      by_cases here : m.dest = b
      · exact ⟨[m], by simp [here], by simp [sentTo, here]⟩
      · exact ⟨[], by simp [here], by simp [sentTo, Function.update_of_ne (Ne.symm here)]⟩
  | @large m rest stack =>
      by_cases here : m.dest = b
      · have empty : s.sendBuffers b = [] := by simpa [Rank.flushed, stack, here] using flushed
        exact ⟨[m], by simp [here], by simp [sentTo, here, Packet.rpcs, empty]⟩
      · exact ⟨[], by simp [here], by simp [sentTo, here]⟩
  | @flush dest rest stack _ nonempty =>
      by_cases here : dest = b
      · subst here
        exact ⟨[], by simp, by simp [sentTo, Packet.rpcs]⟩
      · exact ⟨[], by simp, by simp [sentTo, here, Function.update_of_ne (Ne.symm here)]⟩
  | @asyncSelf ctx rest k k' payload m run cmd call =>
      refine ⟨[], ?_, by simp [sentTo, Rank.call]⟩
      simp [Rank.call, call, other]
  | asyncRemote | callFlush => exact ⟨[], by simp [Rank.call], by simp [sentTo, Rank.call]⟩
  | update => exact ⟨[], by simp, by simp [sentTo]⟩
  | announce | kill => exact ⟨[], by simp, by simp [sentTo, Packet.rpcs]⟩
  | _ => exact ⟨[], by simp [Rank.finish], by simp [sentTo, Rank.finish]⟩

/-! ## Announcements and large messages -/

/-- The activation that is about to send a large message, whose announcement has been sent. -/
def Frame.IsLarge : Frame n P C → Prop
  | .large _ => True
  | _ => False

theorem Frame.Silent.not_large {frame : Frame n P C} (h : frame.Silent) :
    ¬ frame.IsLarge := by
  cases frame <;> first | exact h.elim | exact id

/-- **The large message a rank has announced and not sent**: only the send of its
announcement can be above it. -/
inductive Announcing : List (Frame n P C) → Option (Rpc n P) → Prop
  | nothing {stack : List (Frame n P C)} (clear : ∀ f ∈ stack, ¬ f.IsLarge) :
      Announcing stack none
  | sending {m : Rpc n P} {dest : Fin n} {rest : List (Frame n P C)}
      (clear : ∀ f ∈ rest, ¬ f.IsLarge) :
      Announcing (.sending dest :: .large m :: rest) (some m)
  | next {m : Rpc n P} {rest : List (Frame n P C)} (clear : ∀ f ∈ rest, ¬ f.IsLarge) :
      Announcing (.large m :: rest) (some m)

/-- With an activation at the top that neither sends nor waits for a send, nothing is announced,
also not further down the stack. -/
theorem Announcing.clear {frame : Frame n P C} {rest : List (Frame n P C)}
    {m : Option (Rpc n P)} (h : Announcing (frame :: rest) m) (top : ¬ frame.IsLarge)
    (free : ∀ dest, frame ≠ .sending dest) : m = none ∧ ∀ f ∈ rest, ¬ f.IsLarge := by
  cases h with
  | nothing clear => exact ⟨rfl, fun f hf => clear f (List.mem_cons_of_mem _ hf)⟩
  | sending => exact absurd rfl (free _)
  | next => exact absurd trivial top

theorem Running.announcing {s : Rank n P σ V C} {ctx : Option (Ctx n P)}
    {rest : List (Frame n P C)} {k k' : C} (run : Running s ctx rest k)
    {m : Option (Rpc n P)} (h : Announcing s.stack m) :
    m = none ∧ ∀ f ∈ (s.resume ctx rest k').stack, ¬ f.IsLarge := by
  cases run with
  | main pc stack =>
      rw [stack] at h
      cases h
      simp [Rank.resume]
  | handler stack =>
      rw [stack] at h
      obtain ⟨rfl, clear⟩ := h.clear id (by simp)
      exact ⟨rfl, List.forall_mem_cons.mpr ⟨id, clear⟩⟩

/-- The packet that a step sends, between the call that is announced before the step and the
call that is announced after it. -/
inductive Announced : Option (Rpc n P) → Option (Fin n × Packet n P) →
    Option (Rpc n P) → Prop
  | same {m : Option (Rpc n P)} : Announced m none m
  | buffer {dest : Fin n} {msgs : List (Rpc n P)} :
      Announced none (some (dest, .buffer msgs)) none
  | announce {m : Rpc n P} {size : ℕ} :
      Announced none (some (m.dest, .announce size)) (some m)
  | large {m : Rpc n P} : Announced (some m) (some (m.dest, .large m)) none

/-- **A rank sends nothing between an announcement and its large message**, to whichever rank. -/
theorem Move.announcing {s t : Rank n P σ V C} {sent : Option (Fin n × Packet n P)}
    (move : Move cfg prog r w s t sent) {m : Option (Rpc n P)}
    (h : Announcing s.stack m) :
    ∃ m', Announcing t.stack m' ∧ Announced m sent m' := by
  cases move with
  | @update ctx rest k k' mem run cmd =>
      obtain ⟨rfl, clear⟩ := run.announcing h
      exact ⟨none, .nothing fun f hf => clear f (by cases ctx <;> exact hf), .same⟩
  | @asyncSelf ctx rest k k' payload call run cmd eq =>
      obtain ⟨rfl, clear⟩ := run.announcing h
      refine ⟨none, .nothing ?_, .same⟩
      simp only [Rank.call, List.cons_append, List.nil_append, List.forall_mem_cons]
      exact ⟨id, id, fun f hf => clear f (by cases ctx <;> exact hf)⟩
  | @asyncRemote ctx rest k k' dest payload call frames run cmd eq remote path =>
      obtain ⟨rfl, clear⟩ := run.announcing h
      refine ⟨none, .nothing fun f hf => ?_, .same⟩
      rcases List.mem_append.mp hf with hf | hf
      · cases path <;> simp only [List.mem_cons, List.not_mem_nil, or_false] at hf <;>
          rcases hf with rfl | rfl | rfl <;> exact id
      · exact clear f (by cases ctx <;> exact hf)
  | @callFlush ctx rest k k' frame run cmd =>
      obtain ⟨rfl, clear⟩ := run.announcing h
      refine ⟨none, .nothing ?_, .same⟩
      refine List.forall_mem_cons.mpr ⟨?_, clear⟩
      rcases cmd with ⟨dest, -, rfl⟩ | ⟨-, rfl⟩ <;> exact id
  | @silent frame frames rest received stack old new sends done =>
      rw [stack] at h
      cases h with
      | nothing clear =>
          refine ⟨none, .nothing fun f hf => ?_, .same⟩
          rcases List.mem_append.mp hf with hf | hf
          · exact (new f hf).not_large
          · exact clear f (List.mem_cons_of_mem _ hf)
      | sending clear =>
          obtain rfl := done _ rfl
          exact ⟨_, .next clear, .same⟩
      | next clear => exact old.elim
  | announce stack =>
      rw [stack] at h
      obtain ⟨rfl, clear⟩ := h.clear id (by simp)
      exact ⟨_, .sending clear, .announce⟩
  | @large m' rest stack =>
      rw [stack] at h
      cases h with
      | nothing clear => exact absurd trivial (clear (.large m') (by simp))
      | next clear =>
          refine ⟨none, .nothing ?_, .large⟩
          exact List.forall_mem_cons.mpr ⟨id, clear⟩
  | flush stack _ nonempty =>
      rw [stack] at h
      obtain ⟨rfl, clear⟩ := h.clear id (by simp)
      exact ⟨none, .nothing (List.forall_mem_cons.mpr ⟨id, clear⟩), .buffer⟩
  | retSelf stack cmd | store stack =>
      rw [stack] at h
      obtain ⟨rfl, clear⟩ := h.clear id (by simp)
      exact ⟨none, .nothing clear, .same⟩
  | retRemote stack cmd | pop stack head | parsed stack | parse stack =>
      rw [stack] at h
      obtain ⟨rfl, clear⟩ := h.clear id (by simp)
      exact ⟨none, .nothing (List.forall_mem_cons.mpr ⟨id, clear⟩), .same⟩
  | kill pc stack cmd =>
      rw [stack] at h
      cases h
      exact ⟨none, .nothing (by simp [stack]), .buffer⟩
  | barrier pc stack cmd | pending pc stack | retry pc stack seen nonzero =>
      rw [stack] at h
      cases h
      exact ⟨none, .nothing (by simp [Frame.IsLarge]), .same⟩
  | reduce | reduced | joined | sample | confirm | leave | throw => exact ⟨m, h, .same⟩

/-- **The shape of a stream**: every announcement is followed by its large message.
`expecting` says whether the receiver has taken an announcement only, and the result
whether the stream ends with one. -/
def scan : Bool → List (Packet n P) → Option Bool
  | expecting, [] => some expecting
  | false, .buffer _ :: stream => scan false stream
  | false, .announce _ :: stream => scan true stream
  | true, .large _ :: stream => scan false stream
  | _, _ => none

theorem scan_append (expecting : Bool) (stream stream' : List (Packet n P)) :
    scan expecting (stream ++ stream') = (scan expecting stream).bind (scan · stream') := by
  induction stream generalizing expecting with
  | nil => rfl
  | cons packet stream ih => cases expecting <;> cases packet <;> simp [scan, ih]

/-- The listener is waiting for a large message that `a` has announced. -/
def Listener.expects (a : Fin n) : Listener n → Bool
  | .large src _ => decide (src = a)
  | _ => false

theorem Move.listener {s t : Rank n P σ V C} {sent : Option (Fin n × Packet n P)}
    (move : Move cfg prog r w s t sent) : t.listener = s.listener := by
  cases move <;> simp [Rank.call, Rank.finish]

/-- **A receive keeps what a rank has taken from `a`, and what is still coming, in
order.** -/
theorem Receive.line {s t : Rank n P σ V C} {stream stream' : List (Packet n P)}
    (receive : Receive cfg prog b a s stream t stream') (other : a ≠ b) {last : Bool}
    (shape : scan (s.listener.expects a) stream = some last) :
    t.taken a ++ stream'.flatMap Packet.rpcs = s.taken a ++ stream.flatMap Packet.rpcs ∧
      scan (t.listener.expects a) stream' = some last := by
  cases receive with
  | announced listener head fits =>
      subst head
      refine ⟨by simp [Rank.taken, Packet.rpcs], ?_⟩
      simpa [listener, Listener.expects, scan] using shape
  | stop listener head data own => exact absurd own other
  | buffer listener head fits _ =>
      subst head
      refine ⟨by simp [Rank.taken, Packet.rpcs], ?_⟩
      simpa [listener, Listener.expects, scan] using shape
  | stray listener head fits _ =>
      subst head
      simp [listener, Listener.expects, scan] at shape
  | @large size m stream' listener taken announced =>
      cases stream with
      | nil => cases taken
      | cons packet stream =>
          cases packet with
          | large m' =>
              obtain ⟨rfl, rfl⟩ : m' = m ∧ stream = stream' := by
                simpa [takeLarge] using taken
              refine ⟨by simp [Rank.taken, Packet.rpcs], ?_⟩
              simpa [listener, Listener.expects, scan] using shape
          | buffer msgs => simp [listener, Listener.expects, scan] at shape
          | announce size' => simp [listener, Listener.expects, scan] at shape

/-- A receive from another rank than `a` changes neither the calls taken from `a` nor what the
listener expects of `a`. -/
theorem Receive.line_of_ne {src : Fin n} {s t : Rank n P σ V C}
    {stream stream' : List (Packet n P)}
    (receive : Receive cfg prog b src s stream t stream') (other : src ≠ a) :
    t.taken a = s.taken a ∧ t.listener.expects a = s.listener.expects a := by
  cases receive with
  | announced listener head fits =>
      exact ⟨rfl, by simp [listener, Listener.expects, other]⟩
  | stop listener head data own => exact ⟨rfl, by simp [listener, Listener.expects]⟩
  | buffer listener head fits _ =>
      exact ⟨by simp [Rank.taken, other], by simp [listener, Listener.expects]⟩
  | stray listener head fits _ =>
      exact ⟨by simp [Rank.taken, other], by simp [listener, Listener.expects]⟩
  | large listener taken announced =>
      exact ⟨by simp [Rank.taken, other], by simp [listener, Listener.expects, other]⟩

/-! ## Execution in issue order -/

namespace Sys

/-- **The condition on the sender**: `a` sends a large message to `b` only when its send
buffer for `b` is empty. -/
def flushed (a b : Fin n) (c : Sys n P σ V C) : Action n → Bool
  | .main r _ => decide (r ≠ a) || (c.rank r).flushed b
  | .listen _ _ => true

/-- **The condition on the receiver**: `b` opens a buffer of `a` only when it has finished the
calls of `a` in the buffers opened before. -/
def unopened (a b : Fin n) (c : Sys n P σ V C) : Action n → Bool
  | .main r _ => decide (r ≠ b) || (c.rank r).unopened a
  | .listen _ _ => true

/-- All calls from `a` to `b`, in the order of the stations they are at: from those that `b`
executed first to those that `a` issued last. -/
def line (a b : Fin n) (c : Sys n P σ V C) : List (Rpc n P) :=
  (c.rank b).taken a ++ ((c.net a b).flatMap Packet.rpcs ++ (c.rank a).sendBuffers b)

/-- **The line from `a` to `b` is in order**: it is the list of calls that `a` has issued to
`b`, and the stream between them has the shape that announcements require. -/
structure InLine (a b : Fin n) (c : Sys n P σ V C) : Prop where
  line : c.line a b = (c.rank a).issued.filter fun m => m.dest = b
  shape : ∃ m, Announcing (c.rank a).stack m ∧
    scan ((c.rank b).listener.expects a) (c.net a b)
      = some (m.any fun m => decide (m.dest = b))

/-- The calls in a stream after a step of its source are those before the step and those that
the step sends. -/
theorem flatMap_send (net : Fin n → Fin n → List (Packet n P)) (src : Fin n)
    (sent : Option (Fin n × Packet n P)) (dest : Fin n) :
    (send net src sent src dest).flatMap Packet.rpcs
      = (net src dest).flatMap Packet.rpcs ++ sentTo dest sent := by
  cases sent with
  | none => simp [send, sentTo]
  | some out =>
      obtain ⟨d, packet⟩ := out
      by_cases hd : dest = d
      · subst hd
        simp [send, sentTo]
      · simp [send, sentTo, hd, Ne.symm hd]

theorem send_of_ne (net : Fin n → Fin n → List (Packet n P)) {src s : Fin n}
    (sent : Option (Fin n × Packet n P)) (other : s ≠ src) (d : Fin n) :
    send net src sent s d = net s d := by
  cases sent with
  | none => rfl
  | some out => simp [send, other]

/-- A packet that a rank sends to `b` keeps the shape of the stream: large messages follow their
announcements. -/
theorem scan_send (net : Fin n → Fin n → List (Packet n P)) {m m' : Option (Rpc n P)}
    {sent : Option (Fin n × Packet n P)} (announced : Announced m sent m')
    {expecting : Bool}
    (shape : scan expecting (net a b) = some (m.any fun m => decide (m.dest = b))) :
    scan expecting (send net a sent a b) = some (m'.any fun m => decide (m.dest = b)) := by
  cases announced with
  | same => exact shape
  | @buffer dest msgs =>
      by_cases hd : b = dest
      · subst hd
        simp [send, scan_append, shape, scan]
      · simpa [send, hd] using shape
  | @announce m size =>
      by_cases hd : b = m.dest
      · subst hd
        simp [send, scan_append, shape, scan]
      · simp [send, hd, shape, Ne.symm hd]
  | @large m =>
      by_cases hd : b = m.dest
      · subst hd
        simp [send, scan_append, shape, scan]
      · simp [send, hd, shape, Ne.symm hd]

/-- **A move keeps the line in order**, if it meets the condition on its rank where this rank is
the sender or the receiver. -/
theorem InLine.move (apart : a ≠ b) {c : Sys n P σ V C} (h : c.InLine a b) {t : Rank n P σ V C}
    {sent : Option (Fin n × Packet n P)} (move : Move cfg prog r w (c.rank r) t sent)
    (flushed : r = a → (c.rank r).flushed b) (unopened : r = b → (c.rank r).unopened a) :
    Sys.InLine a b { rank := Function.update c.rank r t, net := send c.net r sent } := by
  obtain ⟨before, m, announcing, shape⟩ := h
  by_cases ha : r = a
  · -- the sender
    subst ha
    obtain ⟨new, issued, sends⟩ := move.sends apart (flushed rfl)
    obtain ⟨m', announcing', announced⟩ := move.announcing announcing
    refine ⟨?_, m', by simpa using announcing', ?_⟩
    · simp only [Sys.line, Function.update_self, Function.update_of_ne apart.symm,
        flatMap_send, List.append_assoc, issued] at before ⊢
      rw [sends, ← before]
      simp
    · simpa [apart.symm] using scan_send c.net announced shape
  · by_cases hb : r = b
    · -- the receiver
      subst hb
      refine ⟨?_, m, by simpa [apart] using announcing, ?_⟩
      · simp only [Sys.line, Function.update_self, Function.update_of_ne apart,
          send_of_ne _ _ apart, move.taken apart (unopened rfl)] at before ⊢
        exact before
      · simpa [send_of_ne _ _ apart, move.listener] using shape
    · refine ⟨?_, m, by simpa [Ne.symm ha] using announcing, ?_⟩
      · simp only [Sys.line, Function.update_of_ne (Ne.symm ha),
          Function.update_of_ne (Ne.symm hb), send_of_ne _ _ (Ne.symm ha)] at before ⊢
        exact before
      · simpa [Ne.symm hb, send_of_ne _ _ (Ne.symm ha)] using shape

/-- **A receive keeps the line in order**, whatever the listener takes and from whichever rank. -/
theorem InLine.receive (apart : a ≠ b) {c : Sys n P σ V C} (h : c.InLine a b) {src : Fin n}
    {t : Rank n P σ V C} {stream : List (Packet n P)}
    (receive : Receive cfg prog r src (c.rank r) (c.net src r) t stream) :
    Sys.InLine a b
      { rank := Function.update c.rank r t
        net := Function.update c.net src (Function.update (c.net src) r stream) } := by
  obtain ⟨before, m, announcing, shape⟩ := h
  have sender : ∀ q, (Function.update c.rank r t q).issued = (c.rank q).issued ∧
      (Function.update c.rank r t q).sendBuffers = (c.rank q).sendBuffers ∧
      (Function.update c.rank r t q).stack = (c.rank q).stack := by
    intro q
    obtain ⟨listener, queue, eq⟩ := receive.frame q
    simp only [eq, and_self]
  by_cases hb : r = b
  · subst hb
    by_cases ha : src = a
    · subst ha
      obtain ⟨moved, shape'⟩ := receive.line apart shape
      refine ⟨?_, m, by simpa only [(sender src).2.2] using announcing, by simpa using shape'⟩
      simp only [Sys.line, (sender src).1, (sender src).2.1, Function.update_self,
        ← List.append_assoc] at before ⊢
      rw [moved]
      exact before
    · obtain ⟨same, expects⟩ := receive.line_of_ne ha
      refine ⟨?_, m, by simpa only [(sender a).2.2] using announcing, ?_⟩
      · simp only [Sys.line, (sender a).1, (sender a).2.1, Function.update_self, same,
          Function.update_of_ne (Ne.symm ha)] at before ⊢
        exact before
      · simpa [expects, Function.update_of_ne (Ne.symm ha)] using shape
  · have other : Function.update c.net src (Function.update (c.net src) r stream) a b
        = c.net a b := by
      by_cases ha : a = src
      · subst ha
        simp [Ne.symm hb]
      · simp [ha]
    refine ⟨?_, m, by simpa only [(sender a).2.2] using announcing, ?_⟩
    · simp only [Sys.line, (sender a).1, (sender a).2.1, other,
        Function.update_of_ne (Ne.symm hb)] at before ⊢
      exact before
    · simpa only [other, Function.update_of_ne (Ne.symm hb)] using shape

theorem inLine_of_reachable (apart : a ≠ b) {c : Sys n P σ V C}
    (h : (comm cfg prog mem main).ReachableBy
      (fun c x => flushed a b c x ∧ unopened a b c x) c) : c.InLine a b := by
  refine h.invariant (I := InLine a b) ?_ ?_
  · exact ⟨by simp [line, comm, Rank.init, Rank.taken], none,
      .nothing (by simp [comm, Rank.init]), by simp [comm, Rank.init, Listener.expects, scan]⟩
  · intro c x d _ inv allowed taken
    rcases Sys.step_cases taken with
      ⟨r, flag, t, sent, rfl, move, rfl⟩ | ⟨r, src, t, stream, rfl, receive, rfl⟩
    · refine inv.move apart move (fun ha => ?_) fun hb => ?_
      · simpa [flushed, ha] using allowed.1
      · simpa [unopened, hb] using allowed.2
    · exact inv.receive apart receive

/-- In a line that is in order, the calls that `b` has executed are the first ones that `a` has
issued to `b`. -/
theorem InLine.isPrefix_executed {c : Sys n P σ V C} (h : c.InLine a b) :
    (((c.rank b).executed.filter fun e => e.src = a).map Exec.rpc)
      <+: (c.rank a).issued.filter fun m => m.dest = b := by
  rw [← h.line, Sys.line, Rank.taken, List.append_assoc]
  exact List.prefix_append _ _

end Sys

/-- **Execution in issue order.**  If `a` sends no large message to `b` past its send
buffer, and `b` opens no buffer of `a` from within a handler for a call of `a`, then `b` executes
the calls of `a` in the order in which `a` issues them: at any time those executed are a prefix
of those issued. -/
theorem execution_order (apart : a ≠ b) {c : Sys n P σ V C}
    (h : (comm cfg prog mem main).ReachableBy
      (fun c x => Sys.flushed a b c x ∧ Sys.unopened a b c x) c) :
    (((c.rank b).executed.filter fun e => e.src = a).map Exec.rpc)
      <+: (c.rank a).issued.filter fun m => m.dest = b := by
  exact (Sys.inLine_of_reachable apart h).isPrefix_executed

/-- Rank 0 makes a small call, a flush, a large call and a small call, all to rank 1. -/
def mixedMain : Fin 2 → List (Act 2)
  | 0 => [.async 1 0 [], .asyncFlush 1, .async 1 8 [], .async 1 1 [], .barrier]
  | 1 => [.barrier]

/-- A run of `mixedMain` in which every large message finds an empty send buffer, and no handler
opens a buffer. -/
def mixedState : Sys 2 (ℕ × List (Act 2)) Unit Unit (List (Act 2)) :=
  (scriptComm ⟨16, false⟩ mixedMain).drive
    (fun c x => Sys.flushed 0 1 c x ∧ Sys.unopened 0 1 c x)
    (scriptComm ⟨16, false⟩ mixedMain).init
    (mains 0 22 ++ List.replicate 5 (.listen 1 0) ++ mains 1 35)

/-- In `mixedState` all three calls of rank 0 have been executed on rank 1, in the order in
which rank 0 issued them. -/
theorem execution_order_mixed :
    (mixedState.rank 1).executed.map (fun e => e.rpc.payload.1) = [0, 8, 1] ∧
      (((mixedState.rank 1).executed.filter fun e => e.src = 0).map Exec.rpc)
        <+: (mixedState.rank 0).issued.filter fun m => m.dest = 1 :=
  ⟨by decide +kernel, execution_order (by decide) (Machine.ReachableBy.init.drive _)⟩

/-- Rank 0 makes a small call and a large call to rank 1, without a flush between them. -/
def overtakingMain : Fin 2 → List (Act 2)
  | 0 => [.async 1 0 [], .async 1 8 [], .barrier]
  | 1 => [.barrier]

/-- A state of a run of `overtakingMain` in which both calls have been executed. -/
def overtakingState : Sys 2 (ℕ × List (Act 2)) Unit Unit (List (Act 2)) :=
  (scriptComm ⟨16, false⟩ overtakingMain).drive (fun _ _ => True)
    (scriptComm ⟨16, false⟩ overtakingMain).init
    (mains 0 16 ++ List.replicate 5 (.listen 1 0) ++ mains 1 25)

/-- **A large message overtakes.**  The second call, of 16 bytes, is sent past the first
one, of 8 bytes, and executed before it. -/
theorem overtaking :
    (scriptComm ⟨16, false⟩ overtakingMain).Reachable overtakingState ∧
      (overtakingState.rank 0).issued.map (fun m => (m.dest, m.payload.1))
        = [(1, 0), (1, 8)] ∧
      (overtakingState.rank 1).executed.map (fun e => (e.src, e.rpc.payload.1))
        = [(0, 8), (0, 0)] :=
  ⟨Machine.ReachableBy.init.drive _, by decide +kernel, by decide +kernel⟩

/-! ## Handlers that issue no calls -/

/-- **The stack is exposed for `a`**: a buffer of `a` is open at its top only, below nothing but
activations that send. -/
def Exposed (a : Fin n) (stack : List (Frame n P C)) : Prop :=
  ∃ sends rest, stack = sends ++ rest ∧ (∀ f ∈ sends, f.Sends) ∧
    ∀ f ∈ rest.tail, ¬ f.OpenedFrom a

theorem Exposed.of_tail {stack : List (Frame n P C)}
    (h : ∀ f ∈ stack.tail, ¬ f.OpenedFrom a) : Exposed a stack :=
  ⟨[], stack, rfl, by simp, h⟩

theorem Exposed.of_none {stack : List (Frame n P C)}
    (h : ∀ f ∈ stack, ¬ f.OpenedFrom a) : Exposed a stack :=
  .of_tail fun f hf => h f (List.mem_of_mem_tail hf)

/-- In an exposed stack, no buffer of `a` is open below an activation that does not send. -/
theorem Exposed.below {frame : Frame n P C} {rest : List (Frame n P C)}
    (h : Exposed a (frame :: rest)) (top : ¬ frame.Sends) :
    ∀ f ∈ rest, ¬ f.OpenedFrom a := by
  obtain ⟨sends, below, eq, all, none⟩ := h
  cases sends with
  | nil =>
      cases eq
      exact none
  | cons f sends =>
      cases eq
      exact absurd (all frame (by simp)) top

/-- A stack stays exposed when activations that send take the place of its topmost activation. -/
theorem Exposed.replace {frame : Frame n P C} {frames rest : List (Frame n P C)}
    (h : Exposed a (frame :: rest)) (new : ∀ f ∈ frames, f.Sends) :
    Exposed a (frames ++ rest) := by
  obtain ⟨sends, below, eq, all, none⟩ := h
  cases sends with
  | nil =>
      cases eq
      exact ⟨frames, rest, rfl, new, fun f hf => none f (List.mem_of_mem_tail hf)⟩
  | cons f sends =>
      cases eq
      refine ⟨frames ++ sends, below, by simp, ?_, none⟩
      intro f hf
      rcases List.mem_append.mp hf with hf | hf
      · exact new f hf
      · exact all f (List.mem_cons_of_mem _ hf)

/-- The command issues a call, to whichever rank. -/
def Cmd.isAsync : Cmd n P σ V C → Bool
  | .async _ _ _ => true
  | _ => false

/-- The next step of `s` is not one that issues a call from a handler for a call of `a`. -/
def Rank.quiet (prog : Program n P σ V C) (a : Fin n) (s : Rank n P σ V C) : Bool :=
  match s.stack with
  | .user (.remote src _ _) k :: _ => decide (src ≠ a) || !(prog.next k s.mem).isAsync
  | _ => true

/-- After a call has been issued no buffer of `a` is open: the call was not issued by a handler
for a call of `a`, which would be at the top. -/
theorem Running.none_opened {s : Rank n P σ V C} {ctx : Option (Ctx n P)}
    {rest : List (Frame n P C)} {k k' : C} {dest : Fin n} {payload : P}
    (run : Running s ctx rest k) (cmd : prog.next k s.mem = .async dest payload k')
    (quiet : s.quiet prog a) (h : Exposed a s.stack) :
    ∀ f ∈ (s.resume ctx rest k').stack, ¬ f.OpenedFrom a := by
  cases run with
  | main pc stack => simp [Rank.resume]
  | @handler ctx k rest stack =>
      rw [stack] at h
      simp only [Rank.resume, List.forall_mem_cons]
      refine ⟨?_, h.below (by simp [Frame.Sends])⟩
      cases ctx with
      | self m => exact id
      | remote src m tail =>
          rintro rfl
          simp [Rank.quiet, stack, cmd, Cmd.isAsync] at quiet

/-- **Moves keep the stack exposed for `a`**, as long as the handlers that serve `a` issue no
calls. -/
theorem Move.exposed {s t : Rank n P σ V C} {sent : Option (Fin n × Packet n P)}
    (move : Move cfg prog r w s t sent) (quiet : s.quiet prog a)
    (h : Exposed a s.stack) : Exposed a t.stack := by
  cases move with
  | @update ctx rest k k' mem run cmd =>
      cases run with
      | main pc stack => exact .of_none (by simp [Rank.resume])
      | handler stack =>
          rw [stack] at h
          exact .of_tail (h.below (by simp [Frame.Sends]))
  | @asyncSelf ctx rest k k' payload m run cmd call =>
      have below := run.none_opened cmd quiet h
      refine .of_none ?_
      simp only [Rank.call, List.cons_append, List.nil_append, List.forall_mem_cons]
      refine ⟨id, id, fun f hf => below f ?_⟩
      cases ctx <;> exact hf
  | @asyncRemote ctx rest k k' dest payload m frames run cmd call remote path =>
      have below := run.none_opened cmd quiet h
      refine .of_none fun f hf => ?_
      rcases List.mem_append.mp hf with hf | hf
      · cases path <;> simp only [List.mem_cons, List.not_mem_nil, or_false] at hf <;>
          rcases hf with rfl | rfl | rfl <;> exact id
      · exact below f (by cases ctx <;> exact hf)
  | @callFlush ctx rest k k' frame run cmd =>
      have sends : frame.Sends := by
        rcases cmd with ⟨dest, -, rfl⟩ | ⟨-, rfl⟩ <;> trivial
      refine ⟨[frame], (s.resume ctx rest k').stack, rfl, by simpa using sends, ?_⟩
      cases run with
      | main pc stack => simp [Rank.resume]
      | handler stack =>
          rw [stack] at h
          exact h.below (by simp [Frame.Sends])
  | @silent frame frames rest received stack old new sends done =>
      rw [stack] at h
      by_cases send : frame.Sends
      · exact h.replace (sends send)
      · refine .of_none fun f hf => ?_
        rcases List.mem_append.mp hf with hf | hf
        · exact (new f hf).not_opened
        · exact h.below send f hf
  | @flush dest rest stack other nonempty =>
      rw [stack] at h
      have replaced : Exposed a ([.sending dest] ++ rest) := h.replace (by simp [Frame.Sends])
      exact replaced
  | @retSelf m k rest mem stack cmd =>
      rw [stack] at h
      exact .of_none (h.below (by simp [Frame.Sends]))
  | @store m rest stack =>
      rw [stack] at h
      exact .of_none (h.below (by simp [Frame.Sends]))
  | @announce m rest stack =>
      rw [stack] at h
      refine .of_none ?_
      simp only [List.forall_mem_cons]
      exact ⟨id, id, h.below (by simp [Frame.Sends])⟩
  | barrier | pending | retry =>
      refine .of_none ?_
      simp [Frame.OpenedFrom]
  | reduce | reduced | kill | joined | sample | confirm | leave | throw => exact h
  | retRemote stack cmd | pop stack head | parsed stack | parse stack | large stack =>
      rw [stack] at h
      exact .of_tail (h.below (by simp [Frame.Sends]))

/-- In an exposed stack no buffer of `a` is open below the loop of `receive_queue_process`, so
opening another one is permitted by `Rank.unopened`. -/
theorem Exposed.unopened {s : Rank n P σ V C} (h : Exposed a s.stack) : s.unopened a := by
  unfold Rank.unopened
  split
  · rename_i rest _ _ _ stack _
    rw [stack] at h
    simp [flatMap_opened (h.below (by simp [Frame.Sends]))]
  · rfl

/-- The step is none in which a handler that serves `a` on `b` issues a call. -/
def Sys.quiet (prog : Program n P σ V C) (a b : Fin n) (c : Sys n P σ V C) : Action n → Bool
  | .main r _ => decide (r ≠ b) || (c.rank r).quiet prog a
  | .listen _ _ => true

theorem Sys.exposed_of_reachable {c : Sys n P σ V C}
    (h : (comm cfg prog mem main).ReachableBy (fun c x => Sys.quiet prog a b c x) c) :
    Exposed a (c.rank b).stack := by
  refine h.invariant (I := fun c => Exposed a (c.rank b).stack)
    (.of_none (by simp [comm, Rank.init])) ?_
  intro c x d _ inv quiet taken
  rcases Sys.step_cases taken with
    ⟨r, flag, t, sent, rfl, move, rfl⟩ | ⟨r, src, t, stream, rfl, receive, rfl⟩
  · by_cases hb : b = r
    · subst hb
      have quiet : (c.rank b).quiet prog a := by simpa [Sys.quiet] using quiet
      simpa using move.exposed quiet inv
    · simpa [hb] using inv
  · obtain ⟨listener, queue, eq⟩ := receive.frame b
    simp only [eq]
    exact inv

/-- **Handlers that issue no calls** open no buffers.  So if none of the handlers that `b` runs
for calls of `a` issues a call, the condition on large messages is enough for the order. -/
theorem execution_order_of_quiet (apart : a ≠ b) {c : Sys n P σ V C}
    (h : (comm cfg prog mem main).ReachableBy
      (fun c x => Sys.flushed a b c x ∧ Sys.quiet prog a b c x) c) :
    (((c.rank b).executed.filter fun e => e.src = a).map Exec.rpc)
      <+: (c.rank a).issued.filter fun m => m.dest = b := by
  have unopened : (comm cfg prog mem main).ReachableBy
      (fun c x => Sys.flushed a b c x ∧ Sys.unopened a b c x) c := by
    induction h with
    | init => exact .init
    | @step c x d before allowed taken ih =>
        refine ih.step ⟨allowed.1, ?_⟩ taken
        have exposed := Sys.exposed_of_reachable (before.mono fun _ _ both => both.2)
        cases x with
        | listen r src => rfl
        | main r flag =>
            by_cases hb : r = b
            · subst hb
              simpa [Sys.unopened] using exposed.unopened
            · simp [Sys.unopened, hb]
  exact (Sys.inLine_of_reachable apart unopened).isPrefix_executed

end YGM
