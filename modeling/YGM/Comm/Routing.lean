import YGM.Comm.Moves

/-!
# Every call is where its addresses say

`Sys.Routed` ties each place a call can be in to the call's own `src` and `dest`:
a send buffer of `r` for `d` holds calls from `r` to `d`, a receive queue entry
labelled `s` holds calls from `s` to its owner, and a handler called with
`from = s` runs for a call of `s` addressed to the rank it runs on.  Only calls
to other ranks enter a buffer, a stream or a queue (`Sys.remote_of_in_transit`),
and a rank sends itself nothing but the empty kill message.
-/

namespace YGM

variable {n : ℕ} {P σ V C : Type}

/-- All calls of a list are issued by `src` and addressed to `dest`. -/
def Between (src dest : Fin n) (msgs : List (Rpc n P)) : Prop :=
  ∀ m ∈ msgs, m.src = src ∧ m.dest = dest

theorem Between.append {src dest : Fin n} {msgs msgs' : List (Rpc n P)}
    (h : Between src dest msgs) (h' : Between src dest msgs') :
    Between src dest (msgs ++ msgs') := by
  intro m hm
  rcases List.mem_append.mp hm with hm | hm
  · exact h m hm
  · exact h' m hm

theorem Between.nil {src dest : Fin n} : Between src dest ([] : List (Rpc n P)) := by
  simp [Between]

theorem Between.singleton {src dest : Fin n} {m : Rpc n P} (hsrc : m.src = src)
    (hdest : m.dest = dest) : Between src dest [m] := by
  simp [Between, hsrc, hdest]

/-- The calls that an activation of rank `r` carries are addressed as the activation requires:
what `r` executes or parses is addressed to `r`, and what its `async` has in hand is issued by
`r` for another rank. -/
def Frame.Routed (r : Fin n) : Frame n P C → Prop
  | .user (.self m) _ => Between r r [m]
  | .user (.remote src m tail) _ => src ≠ r ∧ Between src r (m :: tail)
  | .parse src tail => src ≠ r ∧ Between src r tail
  | .store m | .announce m | .large m => m.src = r ∧ m.dest ≠ r
  | _ => True

/-- The calls in a packet from `src` to `dest` are issued by `src` and addressed to `dest`, and
`src` is another rank unless the packet is empty. -/
def Packet.Routed (src dest : Fin n) : Packet n P → Prop
  | .buffer msgs => Between src dest msgs ∧ (msgs ≠ [] → src ≠ dest)
  | .announce _ => src ≠ dest
  | .large m => Between src dest [m] ∧ src ≠ dest

/-- The calls that rank `r` holds, wherever it holds them, are there because of their own
addresses. -/
structure Rank.Routed (r : Fin n) (s : Rank n P σ V C) : Prop where
  issued : ∀ m ∈ s.issued, m.src = r
  stack : ∀ frame ∈ s.stack, frame.Routed r
  buffers : ∀ dest, Between r dest (s.sendBuffers dest)
  own : s.sendBuffers r = []
  queue : ∀ entry ∈ s.receiveQueue, entry.2 ≠ r ∧ Between entry.2 r entry.1
  executed : ∀ e ∈ s.executed, e.src = e.rpc.src ∧ e.rpc.dest = r
  listener : ∀ src size, s.listener = .large src size → src ≠ r

/-- In the system `c`, all ranks and all streams hold only calls whose addresses belong there. -/
structure Sys.Routed (c : Sys n P σ V C) : Prop where
  rank : ∀ r, (c.rank r).Routed r
  net : ∀ src dest, ∀ packet ∈ c.net src dest, packet.Routed src dest

/-! ## Moves keep calls in place -/

theorem Frame.Silent.routed {r : Fin n} {frame : Frame n P C} (h : frame.Silent) :
    frame.Routed r := by
  cases frame <;> trivial

/-- Code that goes on at another code point leaves every activation's calls where they are. -/
theorem Running.resume_routed {s : Rank n P σ V C} {r : Fin n} {ctx : Option (Ctx n P)}
    {rest : List (Frame n P C)} {k : C} (run : Running s ctx rest k)
    (h : ∀ frame ∈ s.stack, frame.Routed r) (k' : C) :
    ∀ frame ∈ (s.resume ctx rest k').stack, frame.Routed r := by
  cases run with
  | main pc stack => simp [Rank.resume]
  | @handler ctx k rest stack =>
      rw [stack] at h
      simp only [Rank.resume, List.forall_mem_cons] at h ⊢
      refine ⟨?_, h.2⟩
      cases ctx <;> exact h.1

variable {cfg : Config} {prog : Program n P σ V C} {r : Fin n} {w : View n V}

/-- The activations with which an `async` to another rank goes on carry the packed call and no
other. -/
theorem AsyncPath.routed {s : Rank n P σ V C} {m : Rpc n P}
    {frames : List (Frame n P C)} (path : AsyncPath cfg prog s m frames)
    (src : m.src = r) (dest : m.dest ≠ r) : ∀ frame ∈ frames, frame.Routed r := by
  cases path <;> simp [Frame.Routed, src, dest]

/-- **A move keeps every call in place**, and what it hands to MPI is addressed
correctly. -/
theorem Move.routed {s t : Rank n P σ V C} {sent : Option (Fin n × Packet n P)}
    (move : Move cfg prog r w s t sent) (h : s.Routed r) :
    t.Routed r ∧ ∀ dest packet, sent = some (dest, packet) → packet.Routed r dest := by
  cases move with
  | @retSelf m k rest mem stack cmd =>
      have top := h.stack
      rw [stack, List.forall_mem_cons] at top
      refine ⟨⟨h.issued, top.2, h.buffers, h.own, h.queue, ?_, h.listener⟩, by simp⟩
      intro e he
      rcases List.mem_append.mp he with he | he
      · exact h.executed e he
      · obtain ⟨src, dest⟩ := top.1 m (by simp)
        rw [List.mem_singleton] at he
        subst he
        exact ⟨src.symm, dest⟩
  | @retRemote src m tail k rest mem stack cmd =>
      have top := h.stack
      rw [stack, List.forall_mem_cons] at top
      obtain ⟨⟨other, between⟩, below⟩ := top
      refine ⟨⟨h.issued, ?_, h.buffers, h.own, h.queue, ?_, h.listener⟩, by simp⟩
      · exact List.forall_mem_cons.mpr
          ⟨⟨other, fun x hx => between x (List.mem_cons_of_mem _ hx)⟩, below⟩
      · intro e he
        rcases List.mem_append.mp he with he | he
        · exact h.executed e he
        · obtain ⟨hsrc, hdest⟩ := between m (by simp)
          rw [List.mem_singleton] at he
          subst he
          exact ⟨hsrc.symm, hdest⟩
  | @update ctx rest k k' mem run cmd =>
      refine ⟨⟨?_, ?_, ?_, ?_, ?_, ?_, ?_⟩, by simp⟩
      · simpa using h.issued
      · cases ctx <;> exact run.resume_routed h.stack k'
      · simpa using h.buffers
      · simpa using h.own
      · simpa using h.queue
      · simpa using h.executed
      · simpa using h.listener
  | @asyncSelf ctx rest k k' payload m run cmd call =>
      have stack := run.resume_routed h.stack k'
      refine ⟨⟨?_, ?_, ?_, ?_, ?_, ?_, ?_⟩, by simp⟩
      · simp only [Rank.call, Rank.resume_issued]
        intro x hx
        rcases List.mem_append.mp hx with hx | hx
        · exact h.issued x hx
        · rw [List.mem_singleton] at hx
          rw [hx, call]
      · simp only [Rank.call, List.cons_append, List.nil_append, List.forall_mem_cons]
        refine ⟨?_, trivial, ?_⟩
        · rw [call]
          exact Between.singleton rfl rfl
        · cases ctx <;> exact stack
      · simpa [Rank.call] using h.buffers
      · simpa [Rank.call] using h.own
      · simpa [Rank.call] using h.queue
      · simpa [Rank.call] using h.executed
      · simpa [Rank.call] using h.listener
  | @asyncRemote ctx rest k k' dest payload m frames run cmd call remote path =>
      have stack := run.resume_routed h.stack k'
      refine ⟨⟨?_, ?_, ?_, ?_, ?_, ?_, ?_⟩, by simp⟩
      · simpa [Rank.call] using h.issued
      · intro frame hframe
        rcases List.mem_append.mp hframe with hframe | hframe
        · exact path.routed (by rw [call]) (by rw [call]; exact remote) frame hframe
        · exact stack frame (by cases ctx <;> exact hframe)
      · simpa [Rank.call] using h.buffers
      · simpa [Rank.call] using h.own
      · simpa [Rank.call] using h.queue
      · simpa [Rank.call] using h.executed
      · simpa [Rank.call] using h.listener
  | @callFlush ctx rest k k' frame run cmd =>
      have stack := run.resume_routed h.stack k'
      refine ⟨⟨?_, ?_, ?_, ?_, ?_, ?_, ?_⟩, by simp⟩
      · simpa [Rank.call] using h.issued
      · refine List.forall_mem_cons.mpr ⟨?_, stack⟩
        rcases cmd with ⟨dest, -, rfl⟩ | ⟨-, rfl⟩ <;> trivial
      · simpa [Rank.call] using h.buffers
      · simpa [Rank.call] using h.own
      · simpa [Rank.call] using h.queue
      · simpa [Rank.call] using h.executed
      · simpa [Rank.call] using h.listener
  | barrier pc stack cmd =>
      exact ⟨⟨h.issued, by simp [Frame.Routed], h.buffers, h.own, h.queue, h.executed,
        h.listener⟩, by simp⟩
  | reduce pc stack cmd =>
      exact ⟨⟨h.issued, h.stack, h.buffers, h.own, h.queue, h.executed, h.listener⟩, by simp⟩
  | reduced pc stack result =>
      exact ⟨⟨h.issued, h.stack, h.buffers, h.own, h.queue, h.executed, h.listener⟩, by simp⟩
  | kill pc stack cmd =>
      refine ⟨⟨h.issued, h.stack, h.buffers, h.own, h.queue, h.executed, h.listener⟩, ?_⟩
      intro dest packet sent
      cases sent
      exact ⟨Between.nil, by simp⟩
  | joined pc stack stopped =>
      exact ⟨⟨h.issued, h.stack, h.buffers, h.own, h.queue, h.executed, h.listener⟩, by simp⟩
  | @silent frame frames rest received stack old new sends done =>
      have below := h.stack
      rw [stack, List.forall_mem_cons] at below
      refine ⟨⟨h.issued, ?_, h.buffers, h.own, h.queue, h.executed, h.listener⟩, by simp⟩
      exact List.forall_mem_append.mpr ⟨fun f hf => (new f hf).routed, below.2⟩
  | @store m rest stack =>
      have top := h.stack
      rw [stack, List.forall_mem_cons] at top
      obtain ⟨⟨src, dest⟩, below⟩ := top
      refine ⟨⟨?_, below, ?_, ?_, h.queue, h.executed, h.listener⟩, by simp⟩
      · exact List.forall_mem_append.mpr ⟨h.issued, by simpa using src⟩
      · intro d
        by_cases hd : d = m.dest
        · subst hd
          simp only [Function.update_self]
          exact (h.buffers _).append (Between.singleton src rfl)
        · simp only [Function.update_of_ne hd]
          exact h.buffers d
      · simp only [Function.update_of_ne dest.symm]
        exact h.own
  | @announce m rest stack =>
      have top := h.stack
      rw [stack, List.forall_mem_cons] at top
      obtain ⟨⟨src, dest⟩, below⟩ := top
      refine ⟨⟨h.issued, ?_, h.buffers, h.own, h.queue, h.executed, h.listener⟩, ?_⟩
      · exact List.forall_mem_cons.mpr
          ⟨trivial, List.forall_mem_cons.mpr ⟨⟨src, dest⟩, below⟩⟩
      · intro d packet sent
        cases sent
        exact dest.symm
  | @large m rest stack =>
      have top := h.stack
      rw [stack, List.forall_mem_cons] at top
      obtain ⟨⟨src, dest⟩, below⟩ := top
      refine ⟨⟨?_, List.forall_mem_cons.mpr ⟨trivial, below⟩, h.buffers, h.own, h.queue,
        h.executed, h.listener⟩, ?_⟩
      · exact List.forall_mem_append.mpr ⟨h.issued, by simpa using src⟩
      · intro d packet sent
        cases sent
        exact ⟨Between.singleton src rfl, dest.symm⟩
  | @flush dest rest stack other nonempty =>
      have below := h.stack
      rw [stack, List.forall_mem_cons] at below
      refine ⟨⟨h.issued, List.forall_mem_cons.mpr ⟨trivial, below.2⟩, ?_, ?_, h.queue,
        h.executed, h.listener⟩, ?_⟩
      · intro d
        by_cases hd : d = dest
        · subst hd
          simp only [Function.update_self]
          exact Between.nil
        · simp only [Function.update_of_ne hd]
          exact h.buffers d
      · simp only [Function.update_of_ne other.symm]
        exact h.own
      · intro d packet sent
        cases sent
        exact ⟨h.buffers dest, fun _ => other.symm⟩
  | @pop received msgs src queue rest stack head =>
      have below := h.stack
      rw [stack, List.forall_mem_cons] at below
      have entries := h.queue
      rw [head, List.forall_mem_cons] at entries
      exact ⟨⟨h.issued, List.forall_mem_cons.mpr ⟨entries.1, below.2⟩, h.buffers, h.own,
        entries.2, h.executed, h.listener⟩, by simp⟩
  | @parsed src rest stack =>
      have below := h.stack
      rw [stack, List.forall_mem_cons] at below
      exact ⟨⟨h.issued, List.forall_mem_cons.mpr ⟨trivial, below.2⟩, h.buffers, h.own, h.queue,
        h.executed, h.listener⟩, by simp⟩
  | @parse src m tail rest stack =>
      have top := h.stack
      rw [stack, List.forall_mem_cons] at top
      exact ⟨⟨h.issued, List.forall_mem_cons.mpr top, h.buffers, h.own, h.queue, h.executed,
        h.listener⟩, by simp⟩
  | pending pc stack =>
      exact ⟨⟨h.issued, by simp [Frame.Routed], h.buffers, h.own, h.queue, h.executed,
        h.listener⟩, by simp⟩
  | retry pc stack result nonzero =>
      exact ⟨⟨h.issued, by simp [Frame.Routed], h.buffers, h.own, h.queue, h.executed,
        h.listener⟩, by simp⟩
  | _ =>
      exact ⟨⟨h.issued, h.stack, h.buffers, h.own, h.queue, h.executed, h.listener⟩, by simp⟩

/-! ## Receives keep calls in place -/

/-- A receive with the large message's tag matches the first large message of the stream and
leaves the packets before and behind it. -/
theorem takeLarge_spec {stream stream' : List (Packet n P)} {m : Rpc n P} :
    takeLarge stream = some (m, stream') →
      ∃ before after, stream = before ++ .large m :: after ∧ stream' = before ++ after := by
  induction stream generalizing stream' with
  | nil => simp [takeLarge]
  | cons packet stream ih =>
      intro taken
      cases packet with
      | large m' =>
          simp only [takeLarge, Option.some.injEq, Prod.mk.injEq] at taken
          obtain ⟨rfl, rfl⟩ := taken
          exact ⟨[], stream, rfl, rfl⟩
      | buffer msgs =>
          simp only [takeLarge, Option.map_eq_some_iff, Prod.exists, Prod.mk.injEq] at taken
          obtain ⟨_, rest, found, rfl, rfl⟩ := taken
          obtain ⟨before, after, rfl, rfl⟩ := ih found
          exact ⟨.buffer msgs :: before, after, rfl, rfl⟩
      | announce size =>
          simp only [takeLarge, Option.map_eq_some_iff, Prod.exists, Prod.mk.injEq] at taken
          obtain ⟨_, rest, found, rfl, rfl⟩ := taken
          obtain ⟨before, after, rfl, rfl⟩ := ih found
          exact ⟨.announce size :: before, after, rfl, rfl⟩

theorem Rank.Routed.push {s : Rank n P σ V C} {src : Fin n} {msgs : List (Rpc n P)}
    (h : s.Routed r) (other : src ≠ r) (between : Between src r msgs) :
    ({ s with
        listener := .any
        receiveQueue := s.receiveQueue ++ [(msgs, src)] } : Rank n P σ V C).Routed r where
  issued := h.issued
  stack := h.stack
  buffers := h.buffers
  own := h.own
  queue := List.forall_mem_append.mpr ⟨h.queue, by simpa using ⟨other, between⟩⟩
  executed := h.executed
  listener := by simp

/-- **A receive keeps every call in place**: what it moves from the stream to the receive queue
has the addresses that the queue requires. -/
theorem Receive.routed {src : Fin n} {s t : Rank n P σ V C}
    {stream stream' : List (Packet n P)}
    (receive : Receive cfg prog r src s stream t stream') (h : s.Routed r)
    (net : ∀ packet ∈ stream, packet.Routed src r) :
    t.Routed r ∧ ∀ packet ∈ stream', packet.Routed src r := by
  cases receive with
  | @announced size stream' listener head fits =>
      subst head
      rw [List.forall_mem_cons] at net
      refine ⟨⟨h.issued, h.stack, h.buffers, h.own, h.queue, h.executed, ?_⟩, net.2⟩
      intro source size' eq
      cases eq
      exact net.1
  | @stop packet stream' listener head data own =>
      subst head
      rw [List.forall_mem_cons] at net
      exact ⟨⟨h.issued, h.stack, h.buffers, h.own, h.queue, h.executed, by simp⟩, net.2⟩
  | @buffer msgs stream' listener head fits other =>
      subst head
      rw [List.forall_mem_cons] at net
      exact ⟨h.push other net.1.1, net.2⟩
  | @stray m stream' listener head fits other =>
      subst head
      rw [List.forall_mem_cons] at net
      exact ⟨h.push other net.1.1, net.2⟩
  | @large size m stream' listener taken announced =>
      obtain ⟨before, after, rfl, rfl⟩ := takeLarge_spec taken
      rw [List.forall_mem_append, List.forall_mem_cons] at net
      exact ⟨h.push (h.listener src size listener) net.2.1.1,
        List.forall_mem_append.mpr ⟨net.1, net.2.2⟩⟩

/-! ## Every reachable state is routed -/

namespace Sys

variable {mem : Fin n → σ} {main : Fin n → C}

theorem send_eq_append (net : Fin n → Fin n → List (Packet n P)) (src : Fin n)
    (sent : Option (Fin n × Packet n P)) (s d : Fin n) :
    send net src sent s d =
      net s d ++ (sent.toList.filterMap fun out =>
        if s = src ∧ d = out.1 then some out.2 else none) := by
  cases sent with
  | none => simp [send]
  | some out =>
      obtain ⟨dest, packet⟩ := out
      by_cases hs : s = src
      · subst hs
        by_cases hd : d = dest
        · subst hd
          simp [send]
        · simp [send, hd]
      · simp [send, hs]

/-- **Routing.**  In every reachable state every call is where its addresses say. -/
theorem routed_of_reachable {c : Sys n P σ V C}
    (h : (comm cfg prog mem main).Reachable c) : c.Routed := by
  refine h.invariant (I := Sys.Routed) ⟨fun r => ?_, by simp [comm]⟩ ?_
  · exact ⟨by simp [comm, Rank.init], by simp [comm, Rank.init], fun dest => Between.nil,
      rfl, by simp [comm, Rank.init], by simp [comm, Rank.init], by simp [comm, Rank.init]⟩
  · intro c a d _ inv taken
    rcases Sys.step_cases taken with
      ⟨r, flag, t, sent, -, move, rfl⟩ | ⟨r, src, t, stream, -, receive, rfl⟩
    · obtain ⟨rank, packets⟩ := move.routed (inv.rank r)
      refine ⟨fun i => ?_, fun s d packet hp => ?_⟩
      · by_cases hi : i = r
        · subst hi
          simpa using rank
        · simpa [hi] using inv.rank i
      · simp only [send_eq_append] at hp
        rcases List.mem_append.mp hp with hp | hp
        · exact inv.net s d packet hp
        · simp only [List.mem_filterMap, Option.mem_toList] at hp
          obtain ⟨out, hout, matched⟩ := hp
          split at matched
          · rename_i same
            obtain ⟨rfl, rfl⟩ := same
            cases matched
            exact packets out.1 out.2 hout
          · cases matched
    · obtain ⟨rank, packets⟩ := receive.routed (inv.rank r) (inv.net src r)
      refine ⟨fun i => ?_, fun s d packet hp => ?_⟩
      · by_cases hi : i = r
        · subst hi
          simpa using rank
        · simpa [hi] using inv.rank i
      · by_cases hs : s = src
        · subst hs
          by_cases hd : d = r
          · subst hd
            exact packets packet (by simpa using hp)
          · exact inv.net s d packet (by simpa [hd] using hp)
        · exact inv.net s d packet (by simpa [hs] using hp)

end Sys

end YGM
