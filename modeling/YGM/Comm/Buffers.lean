import YGM.Comm.Pairing

/-!
# Send buffers

This file is about the two size tests of `async` in `include/ygm/detail/comm_impl.hpp`: a
message of less than `m_buffer_capacity` bytes is appended to the send buffer of its
destination, after a flush when it has no room there, and any other is sent by itself.

Between the tests and the append there is only the flush.  It calls no handler, so the room
that was found is still there (`Storing`), and nobody else appends.  What a rank has sent to
another one then is its calls in the order of issue, whole, and the send buffer has the rest
(`Batched`).

Every buffer sent has a call in it and at most `m_buffer_capacity` bytes, so the any-source
receive always has room for the next message (`send_buffers_bounded`).
-/

namespace YGM

variable {n : ℕ} {P σ V C : Type}
variable {cfg : Config} {prog : Program n P σ V C} {mem : Fin n → σ} {main : Fin n → C}
variable {r : Fin n} {w : View n V}

/-! ## The `async` in progress -/

/-- **The place of an `async` between its tests and the end of its send.** At any other time no
call is in its hands. -/
inductive Storing (cfg : Config) (prog : Program n P σ V C) (r : Fin n)
    (buffers : Fin n → List (Rpc n P)) : List (Frame n P C) → Prop
  | nothing {stack : List (Frame n P C)} (clear : ∀ f ∈ stack, f.handed = []) :
      Storing cfg prog r buffers stack
  | store {m : Rpc n P} {rest : List (Frame n P C)} (clear : ∀ f ∈ rest, f.handed = [])
      (small : prog.packedSize m.payload < cfg.bufferCapacity)
      (room : prog.packedSize m.payload + prog.bufferSize (buffers m.dest)
        ≤ cfg.bufferCapacity) :
      Storing cfg prog r buffers (.store m :: rest)
  | flush {m : Rpc n P} {rest : List (Frame n P C)} (clear : ∀ f ∈ rest, f.handed = [])
      (small : prog.packedSize m.payload < cfg.bufferCapacity) (remote : m.dest ≠ r) :
      Storing cfg prog r buffers (.flush m.dest :: .store m :: rest)
  | flushed {m : Rpc n P} {rest : List (Frame n P C)} (clear : ∀ f ∈ rest, f.handed = [])
      (small : prog.packedSize m.payload < cfg.bufferCapacity)
      (empty : buffers m.dest = []) :
      Storing cfg prog r buffers (.sending m.dest :: .store m :: rest)
  | announce {m : Rpc n P} {rest : List (Frame n P C)} (clear : ∀ f ∈ rest, f.handed = [])
      (large : cfg.bufferCapacity ≤ prog.packedSize m.payload) :
      Storing cfg prog r buffers (.announce m :: rest)
  | announced {m : Rpc n P} {rest : List (Frame n P C)} (clear : ∀ f ∈ rest, f.handed = [])
      (large : cfg.bufferCapacity ≤ prog.packedSize m.payload) :
      Storing cfg prog r buffers (.sending m.dest :: .large m :: rest)
  | large {m : Rpc n P} {rest : List (Frame n P C)} (clear : ∀ f ∈ rest, f.handed = [])
      (large : cfg.bufferCapacity ≤ prog.packedSize m.payload) :
      Storing cfg prog r buffers (.large m :: rest)

@[simp] theorem Program.bufferSize_nil : prog.bufferSize [] = 0 :=
  rfl

@[simp] theorem Program.bufferSize_append (msgs msgs' : List (Rpc n P)) :
    prog.bufferSize (msgs ++ msgs') = prog.bufferSize msgs + prog.bufferSize msgs' := by
  simp [Program.bufferSize]

/-- A buffer with a call in it has at least eight bytes, those of the handler's offset. -/
theorem Program.le_bufferSize {msgs : List (Rpc n P)} (nonempty : msgs ≠ []) :
    8 ≤ prog.bufferSize msgs := by
  cases msgs with
  | nil => exact absurd rfl nonempty
  | cons m msgs =>
      have offset := prog.offset_le m.payload
      simp only [Program.bufferSize, List.map_cons, List.sum_cons]
      omega

/-- After the send buffer has been emptied there is room in it for any message that is smaller
than the capacity. -/
theorem Storing.of_empty {buffers : Fin n → List (Rpc n P)} {m : Rpc n P}
    {rest : List (Frame n P C)} (clear : ∀ f ∈ rest, f.handed = [])
    (small : prog.packedSize m.payload < cfg.bufferCapacity) (empty : buffers m.dest = []) :
    Storing cfg prog r buffers (.store m :: rest) := by
  refine .store clear small ?_
  rw [empty, Program.bufferSize_nil]
  omega

/-- When running user code goes on at another code point, no `async` is in progress if none was
before. -/
theorem Running.clear {s : Rank n P σ V C} {ctx : Option (Ctx n P)}
    {rest : List (Frame n P C)} {k : C} (run : Running s ctx rest k) (k' : C)
    (h : ∀ f ∈ s.stack, f.handed = []) :
    ∀ f ∈ (s.resume ctx rest k').stack, f.handed = [] := by
  cases run with
  | main pc stack => simp [Rank.resume]
  | handler stack =>
      rw [stack, List.forall_mem_cons] at h
      exact List.forall_mem_cons.mpr ⟨rfl, h.2⟩

/-- The activations with which an `async` to another rank goes on have found the room that the
message needs, on whichever of the three paths. -/
theorem AsyncPath.storing {s : Rank n P σ V C} {m : Rpc n P} {frames rest : List (Frame n P C)}
    (path : AsyncPath cfg prog s m frames) (remote : m.dest ≠ r)
    (clear : ∀ f ∈ rest, f.handed = []) :
    Storing cfg prog r s.sendBuffers (frames ++ rest) := by
  have below : ∀ f ∈ (Frame.peek : Frame n P C) :: rest, f.handed = [] :=
    List.forall_mem_cons.mpr ⟨rfl, clear⟩
  cases path with
  | store small room => exact .store below small room
  | flush small full => exact .flush below small remote
  | large large => exact .announce below large

/-- **With no `async` in progress** a move can only begin one, and the activations of that one
have found their room. -/
theorem Move.storing {s t : Rank n P σ V C} {sent : Option (Fin n × Packet n P)}
    (move : Move cfg prog r w s t sent) (clear : ∀ f ∈ s.stack, f.handed = []) :
    Storing cfg prog r t.sendBuffers t.stack := by
  cases move with
  | @retSelf m k rest mem stack cmd =>
      rw [stack, List.forall_mem_cons] at clear
      exact .nothing clear.2
  | retRemote stack cmd | pop stack head | parsed stack | parse stack =>
      rw [stack, List.forall_mem_cons] at clear
      exact .nothing (List.forall_mem_cons.mpr ⟨rfl, clear.2⟩)
  | @update ctx rest k k' mem run cmd =>
      have below := run.clear k' clear
      exact .nothing fun f hf => below f (by cases ctx <;> exact hf)
  | @asyncSelf ctx rest k k' payload m run cmd call =>
      have below := run.clear k' clear
      refine .nothing (List.forall_mem_cons.mpr ⟨rfl, List.forall_mem_cons.mpr ⟨rfl, ?_⟩⟩)
      exact fun f hf => below f (by cases ctx <;> exact hf)
  | @asyncRemote ctx rest k k' dest payload m frames run cmd call remote path =>
      have below := run.clear k' clear
      have goes := path.storing (r := r) (by rw [call]; exact remote) below
      cases ctx <;> exact goes
  | @callFlush ctx rest k k' frame run cmd =>
      refine .nothing (List.forall_mem_cons.mpr ⟨?_, run.clear k' clear⟩)
      rcases cmd with ⟨dest, -, rfl⟩ | ⟨-, rfl⟩ <;> rfl
  | @silent frame frames rest received stack old new sends done =>
      rw [stack, List.forall_mem_cons] at clear
      refine .nothing (List.forall_mem_append.mpr ⟨fun f hf => (new f hf).handed, clear.2⟩)
  | @store m rest stack | @announce m rest stack | @large m rest stack =>
      rw [stack, List.forall_mem_cons] at clear
      cases clear.1
  | @flush dest rest stack other nonempty =>
      rw [stack, List.forall_mem_cons] at clear
      exact .nothing (List.forall_mem_cons.mpr ⟨rfl, clear.2⟩)
  | barrier | pending | retry =>
      exact .nothing (by simp [Frame.handed])
  | reduce | reduced | kill | joined | sample | confirm | leave | throw => exact .nothing clear

/-- **One step of the main thread** keeps the room that an `async` in progress has found in its
send buffer. -/
theorem Storing.step {s t : Rank n P σ V C} {sent : Option (Fin n × Packet n P)}
    (h : Storing cfg prog r s.sendBuffers s.stack)
    (taken : mainStep cfg prog r w s = some (t, sent)) :
    Storing cfg prog r t.sendBuffers t.stack := by
  generalize stack : s.stack = frames at h
  cases h with
  | nothing clear => exact (Move.of_mainStep taken).storing (by rw [stack]; exact clear)
  | store clear small room =>
      simp only [mainStep, stack, frameStep, Option.some.injEq, Prod.mk.injEq] at taken
      obtain ⟨rfl, -⟩ := taken
      exact .nothing clear
  | @flush m rest clear small remote =>
      simp only [mainStep, stack, frameStep, asyncFlush, remote, false_or, Option.some.injEq]
        at taken
      split at taken
      · rename_i empty
        cases taken
        exact .of_empty clear small empty
      · cases taken
        exact .flushed clear small (Function.update_self _ _ _)
  | flushed clear small empty =>
      simp only [mainStep, stack, frameStep] at taken
      split at taken
      · cases taken
        exact .of_empty clear small empty
      · cases taken
  | announce clear large =>
      simp only [mainStep, stack, frameStep, Option.some.injEq, Prod.mk.injEq] at taken
      obtain ⟨rfl, -⟩ := taken
      exact .announced clear large
  | announced clear large =>
      simp only [mainStep, stack, frameStep] at taken
      split at taken
      · cases taken
        exact .large clear large
      · cases taken
  | large clear large =>
      simp only [mainStep, stack, frameStep, Option.some.injEq, Prod.mk.injEq] at taken
      obtain ⟨rfl, -⟩ := taken
      exact .nothing (List.forall_mem_cons.mpr ⟨rfl, clear⟩)

theorem storing_of_reachable {c : Sys n P σ V C} (h : (comm cfg prog mem main).Reachable c)
    (r : Fin n) : Storing cfg prog r (c.rank r).sendBuffers (c.rank r).stack := by
  refine h.invariant (I := fun c => Storing cfg prog r (c.rank r).sendBuffers (c.rank r).stack)
    ?_ ?_
  · exact .nothing (by simp [comm, Rank.init])
  · intro c a d _ inv taken
    cases a with
    | main i flag =>
        obtain ⟨⟨t, sent⟩, moved, rfl⟩ := Option.map_eq_some_iff.mp taken
        by_cases hi : r = i
        · subst hi
          simpa using inv.step moved
        · simpa [hi] using inv
    | listen i src =>
        obtain ⟨⟨t, stream⟩, received, rfl⟩ := Option.map_eq_some_iff.mp taken
        by_cases hi : r = i
        · subst hi
          have quiet := (Receive.of_listenStep received).quiet
          simp only [Function.update_self]
          rw [quiet]
          exact inv
        · simpa [hi] using inv

/-! ## What has been stored and sent -/

/-- The calls of an ordinary buffer; other packets store none. -/
def Packet.stored : Packet n P → List (Rpc n P)
  | .buffer msgs => msgs
  | _ => []

/-- The call of a large message, as a list of at most one entry. -/
def Packet.single : Packet n P → List (Rpc n P)
  | .large m => [m]
  | _ => []

/-- The calls for `dest` that are small enough to go into its send buffer, in order. -/
def smallTo (cfg : Config) (prog : Program n P σ V C) (dest : Fin n) (calls : List (Rpc n P)) :
    List (Rpc n P) :=
  calls.filter fun m => m.dest = dest ∧ prog.packedSize m.payload < cfg.bufferCapacity

/-- The calls for `dest` that are too large for a send buffer and are sent by themselves, in
order. -/
def largeTo (cfg : Config) (prog : Program n P σ V C) (dest : Fin n) (calls : List (Rpc n P)) :
    List (Rpc n P) :=
  calls.filter fun m => m.dest = dest ∧ cfg.bufferCapacity ≤ prog.packedSize m.payload

/-- The packet that a step sends, if it sends one to `dest`. -/
def packetsTo (dest : Fin n) (sent : Option (Fin n × Packet n P)) : List (Packet n P) :=
  sent.toList.filterMap fun out => if dest = out.1 then some out.2 else none

theorem packetsTo_self (dest : Fin n) (packet : Packet n P) :
    packetsTo dest (some (dest, packet)) = [packet] := by
  simp [packetsTo]

theorem packetsTo_of_ne {dest other : Fin n} (apart : dest ≠ other) (packet : Packet n P) :
    packetsTo dest (some (other, packet)) = [] := by
  simp [packetsTo, apart]

theorem smallTo_append (dest : Fin n) (calls calls' : List (Rpc n P)) :
    smallTo cfg prog dest (calls ++ calls')
      = smallTo cfg prog dest calls ++ smallTo cfg prog dest calls' := by
  simp [smallTo]

theorem largeTo_append (dest : Fin n) (calls calls' : List (Rpc n P)) :
    largeTo cfg prog dest (calls ++ calls')
      = largeTo cfg prog dest calls ++ largeTo cfg prog dest calls' := by
  simp [largeTo]

/-- **The effect of a step on `dest`**: it issues calls for other ranks, stores a call where
there is room, sends the buffer, or announces or sends a large message. -/
inductive Serves (cfg : Config) (prog : Program n P σ V C) (dest : Fin n)
    (s t : Rank n P σ V C) : List (Packet n P) → Prop
  | others {calls : List (Rpc n P)} (issued : t.issued = s.issued ++ calls)
      (others : ∀ m ∈ calls, m.dest ≠ dest)
      (buffer : t.sendBuffers dest = s.sendBuffers dest) : Serves cfg prog dest s t []
  | store {m : Rpc n P} (issued : t.issued = s.issued ++ [m]) (here : m.dest = dest)
      (small : prog.packedSize m.payload < cfg.bufferCapacity)
      (room : prog.packedSize m.payload + prog.bufferSize (s.sendBuffers dest)
        ≤ cfg.bufferCapacity)
      (buffer : t.sendBuffers dest = s.sendBuffers dest ++ [m]) : Serves cfg prog dest s t []
  | flush (issued : t.issued = s.issued) (nonempty : s.sendBuffers dest ≠ [])
      (buffer : t.sendBuffers dest = []) :
      Serves cfg prog dest s t [.buffer (s.sendBuffers dest)]
  | announce {size : ℕ} (issued : t.issued = s.issued)
      (buffer : t.sendBuffers dest = s.sendBuffers dest) :
      Serves cfg prog dest s t [.announce size]
  | large {m : Rpc n P} (issued : t.issued = s.issued ++ [m]) (here : m.dest = dest)
      (large : cfg.bufferCapacity ≤ prog.packedSize m.payload)
      (buffer : t.sendBuffers dest = s.sendBuffers dest) : Serves cfg prog dest s t [.large m]

/-- An `async` that is about to append its call has a small call in hand, and the send buffer
has room for it. -/
theorem Storing.at_store {buffers : Fin n → List (Rpc n P)} {m : Rpc n P}
    {rest : List (Frame n P C)} (h : Storing cfg prog r buffers (.store m :: rest)) :
    prog.packedSize m.payload < cfg.bufferCapacity ∧
      prog.packedSize m.payload + prog.bufferSize (buffers m.dest) ≤ cfg.bufferCapacity := by
  cases h with
  | nothing clear => cases clear (.store m) (by simp)
  | store clear small room => exact ⟨small, room⟩

theorem Storing.at_large {buffers : Fin n → List (Rpc n P)} {m : Rpc n P}
    {rest : List (Frame n P C)} (h : Storing cfg prog r buffers (.large m :: rest)) :
    cfg.bufferCapacity ≤ prog.packedSize m.payload := by
  cases h with
  | nothing clear => cases clear (.large m) (by simp)
  | large clear large => exact large

/-- A step that issues no call and leaves the send buffer of `dest` alone serves `dest` by
sending nothing. -/
theorem Serves.nothing {dest : Fin n} {s t : Rank n P σ V C} (issued : t.issued = s.issued)
    (buffer : t.sendBuffers dest = s.sendBuffers dest) : Serves cfg prog dest s t [] :=
  .others (issued.trans (List.append_nil _).symm) (List.forall_mem_nil _) buffer

/-- **Every move serves every other rank**: whatever it issues for that rank it stores or sends,
in order and whole. -/
theorem Move.serves {s t : Rank n P σ V C} {sent : Option (Fin n × Packet n P)}
    (move : Move cfg prog r w s t sent) (storing : Storing cfg prog r s.sendBuffers s.stack)
    {dest : Fin n} (other : dest ≠ r) : Serves cfg prog dest s t (packetsTo dest sent) := by
  cases move with
  | @asyncSelf ctx rest k k' payload m run cmd call =>
      have elsewhere : m.dest ≠ dest := by
        rw [call]
        exact other.symm
      exact .others (by simp [Rank.call]) (List.forall_mem_singleton.mpr elsewhere)
        (by simp [Rank.call])
  | asyncRemote | callFlush => exact .nothing (by simp [Rank.call]) (by simp [Rank.call])
  | update => exact .nothing (by simp) (by simp)
  | @store m rest stack =>
      rw [stack] at storing
      obtain ⟨small, room⟩ := storing.at_store
      by_cases here : dest = m.dest
      · subst here
        exact .store rfl rfl small room (Function.update_self _ _ _)
      · exact .others rfl (List.forall_mem_singleton.mpr (Ne.symm here))
          (Function.update_of_ne here _ _)
  | @announce m rest stack =>
      by_cases here : dest = m.dest
      · subst here
        rw [packetsTo_self]
        exact .announce rfl rfl
      · rw [packetsTo_of_ne here]
        exact .nothing rfl rfl
  | @large m rest stack =>
      rw [stack] at storing
      by_cases here : dest = m.dest
      · subst here
        rw [packetsTo_self]
        exact .large rfl rfl storing.at_large rfl
      · rw [packetsTo_of_ne here]
        exact .others rfl (List.forall_mem_singleton.mpr (Ne.symm here)) rfl
  | @flush target rest stack _ nonempty =>
      by_cases here : dest = target
      · subst here
        rw [packetsTo_self]
        exact .flush rfl nonempty (Function.update_self _ _ _)
      · rw [packetsTo_of_ne here]
        exact .nothing rfl (Function.update_of_ne here _ _)
  | kill pc stack cmd =>
      rw [packetsTo_of_ne other]
      exact .nothing rfl rfl
  | _ => exact .nothing rfl rfl

/-- **The calls that a rank has stored and sent for `dest`** in a run, compared with the calls
it has issued for `dest`. -/
structure Batched (cfg : Config) (prog : Program n P σ V C) (dest : Fin n) (s : Rank n P σ V C)
    (sent : List (Packet n P)) : Prop where
  fits : prog.bufferSize (s.sendBuffers dest) ≤ cfg.bufferCapacity
  small : sent.flatMap Packet.stored ++ s.sendBuffers dest = smallTo cfg prog dest s.issued
  large : sent.flatMap Packet.single = largeTo cfg prog dest s.issued
  sends : ∀ msgs, .buffer msgs ∈ sent →
    msgs ≠ [] ∧ prog.bufferSize msgs ≤ cfg.bufferCapacity

theorem Batched.step {dest : Fin n} {s t : Rank n P σ V C} {sent packets : List (Packet n P)}
    (h : Batched cfg prog dest s sent) (serves : Serves cfg prog dest s t packets) :
    Batched cfg prog dest t (sent ++ packets) := by
  obtain ⟨fits, small, large, sends⟩ := h
  cases serves with
  | @others calls issued others buffer =>
      have noSmall : smallTo cfg prog dest calls = [] :=
        List.filter_eq_nil_iff.mpr fun m hm => by simp [others m hm]
      have noLarge : largeTo cfg prog dest calls = [] :=
        List.filter_eq_nil_iff.mpr fun m hm => by simp [others m hm]
      refine ⟨by rwa [buffer], ?_, ?_, by rwa [List.append_nil]⟩
      · rw [issued, smallTo_append, noSmall, buffer, ← small]
        simp
      · rw [issued, largeTo_append, noLarge, ← large]
        simp
  | @store m issued here low room buffer =>
      have one : smallTo cfg prog dest [m] = [m] := by simp [smallTo, here, low]
      have none : largeTo cfg prog dest [m] = [] := by simp [largeTo, Nat.not_le.mpr low]
      refine ⟨?_, ?_, ?_, by rwa [List.append_nil]⟩
      · rw [buffer, Program.bufferSize_append, Nat.add_comm]
        simpa [Program.bufferSize] using room
      · rw [issued, smallTo_append, one, buffer, ← small]
        simp
      · rw [issued, largeTo_append, none, ← large]
        simp
  | flush issued nonempty buffer =>
      refine ⟨by simp [buffer], ?_, ?_, ?_⟩
      · rw [buffer, issued, ← small]
        simp [Packet.stored]
      · rw [issued, ← large]
        simp [Packet.single]
      · simp only [List.mem_append, List.mem_singleton, Packet.buffer.injEq]
        rintro msgs (old | rfl)
        · exact sends msgs old
        · exact ⟨nonempty, fits⟩
  | announce issued buffer =>
      refine ⟨by rwa [buffer], ?_, ?_, by simpa using sends⟩
      · rw [buffer, issued, ← small]
        simp [Packet.stored]
      · rw [issued, ← large]
        simp [Packet.single]
  | @large m issued here high buffer =>
      have none : smallTo cfg prog dest [m] = [] := by simp [smallTo, Nat.not_lt.mpr high]
      have one : largeTo cfg prog dest [m] = [m] := by simp [largeTo, here, high]
      refine ⟨by rwa [buffer], ?_, ?_, by simpa using sends⟩
      · rw [issued, smallTo_append, none, buffer, ← small]
        simp [Packet.stored]
      · rw [issued, largeTo_append, one, ← large]
        simp [Packet.single]

/-- **A rank has stored and sent its calls in order**, each of them whole, in every state of
every run. -/
theorem batched_of_reachable {src dest : Fin n} (apart : src ≠ dest) {c : Sys n P σ V C}
    {t : Traffic n P} (h : (commTraffic cfg prog mem main).Reachable (c, t)) :
    Batched cfg prog dest (c.rank src) (t.sent src dest) := by
  refine h.invariant (I := fun x => Batched cfg prog dest (x.1.rank src) (x.2.sent src dest)) ?_ ?_
  · exact ⟨Nat.zero_le _, rfl, rfl, by simp [commTraffic, Machine.recording]⟩
  · rintro ⟨c, t⟩ a ⟨d, t'⟩ before inv taken
    have storing := storing_of_reachable before.of_recording src
    obtain ⟨moved, record⟩ := Machine.recording_step.mp taken
    simp only at moved record storing inv
    subst record
    rcases Sys.step_cases moved with
      ⟨i, flag, u, out, rfl, move, rfl⟩ | ⟨i, source, u, stream, rfl, receive, rfl⟩
    · simp only [Traffic.record, Sys.send_eq_append, List.drop_left]
      by_cases hi : src = i
      · subst hi
        simpa [packetsTo] using inv.step (move.serves storing apart.symm)
      · simpa [hi] using inv
    · by_cases hi : src = i
      · subst hi
        have same := receive.quiet
        simp only [Traffic.record, Function.update_self]
        simpa using inv.step (.nothing (by rw [same]) (by rw [same]))
      · simpa [Traffic.record, hi] using inv

/-! ## The messages of a run -/

/-- While an `async` to another rank is in progress on a rank, no user code runs there. -/
theorem Storing.not_running {s : Rank n P σ V C}
    (h : Storing cfg prog r s.sendBuffers s.stack) {frame : Frame n P C}
    (member : frame ∈ s.stack) (busy : frame.handed ≠ []) {ctx : Option (Ctx n P)}
    {rest : List (Frame n P C)} {k : C} : ¬ Running s ctx rest k := by
  intro run
  cases run with
  | main pc stack => simp [stack] at member
  | handler stack =>
      rw [stack] at h member
      cases h with
      | nothing clear => exact busy (clear frame member)

/-- **The buffer and the messages of `src` for another rank `dest`**, compared with the calls
that `src` has issued for `dest`. -/
structure Buffering (cfg : Config) (prog : Program n P σ V C) (src dest : Fin n)
    (c : Sys n P σ V C) (t : Traffic n P) : Prop where
  /-- The calls sent in buffers and those in the send buffer are together the calls issued for
  `dest` that are smaller than the capacity, whole and in order. -/
  whole : (t.sent src dest).flatMap Packet.stored ++ (c.rank src).sendBuffers dest
    = smallTo cfg prog dest (c.rank src).issued
  /-- The send buffer has at most `m_buffer_capacity` bytes. -/
  fits : prog.bufferSize ((c.rank src).sendBuffers dest) ≤ cfg.bufferCapacity
  /-- Every buffer that was sent has at most `m_buffer_capacity` bytes, and holds at least one
  call. -/
  sends : ∀ msgs, .buffer msgs ∈ t.sent src dest →
    8 ≤ prog.bufferSize msgs ∧ prog.bufferSize msgs ≤ cfg.bufferCapacity
  /-- All calls that are not smaller than the capacity were sent alone, in order. -/
  large : (t.sent src dest).flatMap Packet.single = largeTo cfg prog dest (c.rank src).issued
  /-- The receive posted for any source has room for the next message. -/
  received : (c.rank dest).listener = .any → c.net src dest ≠ [] →
    ∃ d, Sys.step cfg prog c (.listen dest src) = some d
  /-- Until a call is stored or sent no other call is issued. -/
  alone : ∀ frame ∈ (c.rank src).stack, frame.handed ≠ [] →
    ∀ ctx rest k, ¬ Running (c.rank src) ctx rest k

/-- **Send buffers hold whole messages and never exceed the capacity**, whatever is issued and
flushed, by the main program or by handlers: a rank stores nothing for itself, and its buffer
for every other rank, like every buffer it sends, holds complete calls in the order of their
issue. -/
theorem send_buffers_bounded (capacity : 8 ≤ cfg.bufferCapacity)
    {x : Sys n P σ V C × Traffic n P} (h : (commTraffic cfg prog mem main).Reachable x)
    (src : Fin n) :
    (x.1.rank src).sendBuffers src = [] ∧
      ∀ dest, src ≠ dest → Buffering cfg prog src dest x.1 x.2 := by
  obtain ⟨c, t⟩ := x
  have reached : (comm cfg prog mem main).Reachable c := h.of_recording
  refine ⟨((Sys.routed_of_reachable reached).rank src).own, fun dest apart => ?_⟩
  show Buffering cfg prog src dest c t
  obtain ⟨fits, small, large, sends⟩ := batched_of_reachable apart h
  obtain ⟨before, sent, -, -⟩ := (paired_of_reachable apart h).taken
  obtain ⟨m, -, shape⟩ := (paired_of_reachable apart h).shape
  refine ⟨small, fits, fun msgs member => ?_, large, fun any some => ?_, ?_⟩
  · obtain ⟨nonempty, most⟩ := sends msgs member
    exact ⟨Program.le_bufferSize nonempty, most⟩
  · -- the next message is an announcement or a buffer that was sent
    obtain ⟨packet, stream, head⟩ := List.exists_cons_of_ne_nil some
    cases packet with
    | announce size => simp [Sys.step, listenStep, any, head, capacity]
    | buffer msgs =>
        have member : .buffer msgs ∈ t.sent src dest := by
          rw [sent, head]
          simp
        simp [Sys.step, listenStep, any, head, (sends msgs member).2]
    | large m => simp [any, Listener.awaits, head, pairing] at shape
  · exact fun frame member busy ctx rest k =>
      (storing_of_reachable reached src).not_running member busy

/-- In `mixedTraffic` rank 0 has sent a buffer of eight bytes, an announcement and a large
message of sixteen bytes. -/
theorem send_buffers_bounded_mixed :
    8 ≤ 16 ∧ (mixedTraffic.1.rank 0).sendBuffers 0 = [] ∧
      ∀ dest, 0 ≠ dest → Buffering ⟨16, false⟩ (script 2) 0 dest mixedTraffic.1 mixedTraffic.2 := by
  have reached : (commTraffic ⟨16, false⟩ (script 2) (fun _ => ()) mixedMain).Reachable mixedTraffic :=
    Machine.ReachableBy.init.drive _
  exact ⟨by decide, send_buffers_bounded (by decide) reached 0⟩

end YGM
