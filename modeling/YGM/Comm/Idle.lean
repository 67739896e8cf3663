import YGM.Comm.Barrier

/-!
# What `wait_local_idle` leaves behind

`wait_local_idle` flushes all send buffers, processes the receive queue, and starts over if that
has run any handler, because a handler may have filled a send buffer again.  It may be entered
with anything in the buffers and handlers run in the middle of it, so that the buffers are empty
when it returns is a property of the whole stack of activations: of what the activations on it
will still flush, and of the value that the last `receive_queue_process` will return
(`Clears`).

`barrier` calls it before each first sample and each `MPI_Test`.  So whenever a rank in `barrier`
samples its counters or waits for a sum, what it has asked of other ranks is in the network or has
arrived there (`sent_off_in_barrier`).
-/

namespace YGM

variable {n : ℕ} {P σ V C : Type}
variable {cfg : Config} {prog : Program n P σ V C} {mem : Fin n → σ} {main : Fin n → C}

/-! ## What the activations leave alone -/

/-- Between two states a rank has not moved in its main program and in its collectives, whatever
its activations have done. -/
structure Rank.SameTop (s t : Rank n P σ V C) : Prop where
  pc : t.pc = s.pc
  code : t.code = s.code
  barrierPosts : t.barrierPosts = s.barrierPosts
  otherPosts : t.otherPosts = s.otherPosts
  epoch : t.epoch = s.epoch

theorem Rank.SameTop.trans {s t u : Rank n P σ V C} (h : s.SameTop t) (h' : t.SameTop u) :
    s.SameTop u :=
  ⟨h'.pc.trans h.pc, h'.code.trans h.code, h'.barrierPosts.trans h.barrierPosts,
    h'.otherPosts.trans h.otherPosts, h'.epoch.trans h.epoch⟩

theorem Move.sameTop {r : Fin n} {w : View n V} {s t : Rank n P σ V C}
    {sent : Option (Fin n × Packet n P)} (move : Move cfg prog r w s t sent)
    (busy : s.stack ≠ []) : s.SameTop t := by
  cases move with
  | update run | asyncSelf run | asyncRemote run | callFlush run =>
      cases run with
      | main _ stack => exact absurd stack busy
      | handler => exact ⟨rfl, rfl, rfl, rfl, rfl⟩
  | barrier _ stack | reduce _ stack | reduced _ stack | kill _ stack | joined _ stack
  | sample _ stack | pending _ stack | confirm _ stack | retry _ stack | leave _ stack
  | throw _ stack => exact absurd stack busy
  | _ => exact ⟨rfl, rfl, rfl, rfl, rfl⟩

/-! ## What the activations will flush -/

/-- **The activations will have cleared the send buffers** when the last of them returns, if now
at most the buffers for `dirty` have anything in them and the last `receive_queue_process` has
returned `received`. -/
def Clears (r : Fin n) : Bool → (Fin n → Prop) → List (Frame n P C) → Prop
  | _, dirty, [] => ∀ d, ¬ dirty d
  -- the loop goes on until a round of it has found nothing
  | _, _, .idle :: rest => rest = []
  | received, dirty, .idleTest :: rest => rest = [] ∧ (received = false → ∀ d, ¬ dirty d)
  | received, dirty, .flush dest :: rest => Clears r received (fun d => dirty d ∧ d ≠ dest) rest
  | received, dirty, .flushAll i :: rest =>
      Clears r received (fun d => dirty d ∧ ∀ j, i ≤ j → j < n → d ≠ flushDest r j) rest
  | received, dirty, .store m :: rest => Clears r received (fun d => dirty d ∨ d = m.dest) rest
  | received, dirty, .announce _ :: rest | received, dirty, .large _ :: rest
  | received, dirty, .sending _ :: rest => Clears r received dirty rest
  -- handlers may store anything, but then `receive_queue_process` returns true
  | _, dirty, .recv received :: rest =>
      Clears r received dirty rest ∧ Clears r true (fun _ => True) rest
  | _, _, .parse .. :: rest | _, _, .user (.remote ..) _ :: rest =>
      Clears r true (fun _ => True) rest
  | _, _, .peek :: rest | _, _, .user (.self _) _ :: rest =>
      ∀ received, Clears r received (fun _ => True) rest

/-- A stack that clears the buffers in `dirty` also clears any smaller set of buffers. -/
theorem Clears.mono {r : Fin n} {received : Bool} {dirty dirty' : Fin n → Prop}
    {stack : List (Frame n P C)} (h : Clears r received dirty stack)
    (fewer : ∀ d, dirty' d → dirty d) : Clears r received dirty' stack := by
  induction stack generalizing received dirty dirty' with
  | nil => exact fun d hd => h d (fewer d hd)
  | cons frame rest ih =>
      cases frame with
      | idle | parse | peek => exact h
      | user ctx k => cases ctx <;> exact h
      | idleTest => exact ⟨h.1, fun last d hd => h.2 last d (fewer d hd)⟩
      | flush dest => exact ih h fun d hd => ⟨fewer d hd.1, hd.2⟩
      | flushAll i => exact ih h fun d hd => ⟨fewer d hd.1, hd.2⟩
      | store m => exact ih h fun d hd => hd.imp_left (fewer d)
      | announce | large | sending => exact ih h fewer
      | recv received' => exact ⟨ih h.1 fewer, h.2⟩

/-- The loop of `async_flush_all` visits every rank at some index. -/
theorem exists_flushDest (r d : Fin n) : ∃ j, j < n ∧ d = flushDest r j := by
  have hr := r.isLt
  have hd := d.isLt
  by_cases above : r ≤ d
  · refine ⟨d - r, by omega, Fin.ext ?_⟩
    rw [Fin.le_def] at above
    show d.val = (r.val + (d.val - r.val)) % n
    rw [Nat.add_sub_cancel' above, Nat.mod_eq_of_lt hd]
  · refine ⟨d + n - r, by omega, Fin.ext ?_⟩
    show d.val = (r.val + (d.val + n - r.val)) % n
    rw [Nat.add_sub_cancel' (by omega), Nat.add_mod_right, Nat.mod_eq_of_lt hd]

/-- The send buffer for `d` has something in it. -/
def Rank.dirty (s : Rank n P σ V C) (d : Fin n) : Prop :=
  s.sendBuffers d ≠ []

section Steps

variable {r : Fin n} {w : View n V} {s t : Rank n P σ V C}
variable {sent : Option (Fin n × Packet n P)}

/-- A step of a handler that `receive_queue_process` or `local_receive` has called keeps the
promise of the stack to clear the send buffers: the activations below flush whatever the handler
leaves in them. -/
theorem userStep_clears {ctx : Ctx n P} {rest : List (Frame n P C)} {k : C} {cmd : Cmd n P σ V C}
    (stack : s.stack = .user ctx k :: rest) (h : Clears r s.received s.dirty s.stack)
    (taken : userStep cfg prog r s (some ctx) rest cmd = some (t, sent)) :
    Clears r t.received t.dirty t.stack := by
  rw [stack] at h
  have again : ∀ received dirty k', Clears r received dirty (.user ctx k' :: rest) := by
    intro received dirty k'
    cases ctx <;> exact h
  cases cmd with
  | ret mem =>
      cases ctx <;> cases taken
      · exact (h s.received).mono fun _ _ => trivial
      · exact h
  | update mem k' => cases taken; exact again _ _ k'
  | asyncFlush dest k' => cases taken; exact again _ _ k'
  | asyncFlushAll k' => cases taken; exact again _ _ k'
  | async dest payload k' =>
      cases taken
      unfold async
      dsimp only
      split_ifs
      · exact fun _ _ => again _ _ k'
      all_goals exact fun _ => again _ _ k'
  | barrier k' | allReduce value k' | kill k' => cases taken

/-- **Every activation clears what it has to**: a step of the main thread with activations on
its stack keeps the promise of the stack to clear the send buffers. -/
theorem mainStep_clears (own : s.sendBuffers r = []) (busy : s.stack ≠ [])
    (h : Clears r s.received s.dirty s.stack)
    (taken : mainStep cfg prog r w s = some (t, sent)) : Clears r t.received t.dirty t.stack := by
  obtain ⟨frame, rest, stack⟩ := List.exists_cons_of_ne_nil busy
  simp only [mainStep, stack] at taken
  cases frame with
  | user ctx k => exact userStep_clears stack h taken
  | store m =>
      cases taken
      rw [stack] at h
      refine Clears.mono h fun d hd => ?_
      by_cases here : d = m.dest
      · exact .inr here
      · exact .inl (by simpa [Rank.dirty, here] using hd)
  | announce m | large m =>
      cases taken
      rw [stack] at h
      exact h
  | sending dest =>
      simp only [frameStep] at taken
      rw [stack] at h
      split at taken <;> cases taken
      exact h
  | peek =>
      simp only [frameStep] at taken
      rw [stack] at h
      split at taken <;> cases taken
      · exact (h s.received).mono fun _ _ => trivial
      · exact ⟨(h false).mono fun _ _ => trivial, h true⟩
  | flush dest =>
      simp only [frameStep, asyncFlush] at taken
      rw [stack] at h
      split at taken <;> cases taken
      · rename_i nothing
        refine Clears.mono h fun d hd => ⟨hd, ?_⟩
        rintro rfl
        rcases nothing with rfl | empty
        · exact hd own
        · exact hd empty
      · refine Clears.mono h fun d hd => ?_
        by_cases here : d = dest
        · subst here
          simp [Rank.dirty] at hd
        · exact ⟨by simpa [Rank.dirty, here] using hd, here⟩
  | flushAll i =>
      simp only [frameStep] at taken
      rw [stack] at h
      split at taken <;> cases taken
      · show Clears r s.received (fun d => (s.dirty d ∧ d ≠ flushDest r i) ∧
          ∀ j, i + 1 ≤ j → j < n → d ≠ flushDest r j) rest
        have passed : Clears r s.received
            (fun d => s.dirty d ∧ ∀ j, i ≤ j → j < n → d ≠ flushDest r j) rest := h
        refine passed.mono fun d hd => ⟨hd.1.1, fun j from_ below => ?_⟩
        rcases from_.eq_or_lt with rfl | later
        · exact hd.1.2
        · exact hd.2 j later below
      · exact Clears.mono h fun d hd => ⟨hd, fun j from_ below => by omega⟩
  | recv received =>
      simp only [frameStep] at taken
      rw [stack] at h
      split at taken <;> cases taken
      · exact h.1
      · exact h.2
  | parse src tail =>
      rw [stack] at h
      cases tail <;> cases taken
      · exact ⟨Clears.mono h fun _ _ => trivial, h⟩
      · exact h
  | idle =>
      cases taken
      rw [stack] at h
      obtain rfl : rest = [] := h
      refine ⟨⟨rfl, fun _ d hd => ?_⟩, rfl, fun last => absurd last (by decide)⟩
      obtain ⟨j, below, rfl⟩ := exists_flushDest r d
      exact hd.2 j (Nat.zero_le j) below rfl
  | idleTest =>
      simp only [frameStep] at taken
      rw [stack] at h
      obtain ⟨rfl, last⟩ := h
      split at taken <;> cases taken
      · rfl
      · rename_i found
        exact last (by simpa using found)

end Steps

namespace Sys

/-- **A rank in `barrier` will have cleared its send buffers** when its stack is empty again and
control is back in `barrier` itself. -/
theorem clears_of_reachable {c : Sys n P σ V C} (h : (comm cfg prog mem main).Reachable c)
    (r : Fin n) (inside : (c.rank r).pc.inBarrier = true) :
    Clears r (c.rank r).received (c.rank r).dirty (c.rank r).stack := by
  refine h.invariant (I := fun c => ∀ r, (c.rank r).pc.inBarrier = true →
    Clears r (c.rank r).received (c.rank r).dirty (c.rank r).stack) ?_ ?_ r inside
  · simp [comm, Rank.init, Pc.inBarrier]
  · intro c a d before inv taken i inside
    cases a with
    | main r flag =>
        obtain ⟨⟨t, sent⟩, moved, rfl⟩ := Option.map_eq_some_iff.mp taken
        by_cases hi : i = r
        · subst hi
          simp only [Function.update_self] at inside ⊢
          have move := Move.of_mainStep moved
          by_cases busy : (c.rank i).stack = []
          · have clear := inv i
            rw [busy] at clear
            cases move with
            | barrier | pending | retry => exact ⟨rfl, rfl⟩
            | sample pc stack | confirm pc stack | throw pc stack =>
                show Clears i _ _ (c.rank i).stack
                rw [busy]
                exact clear (by simp [pc, Pc.inBarrier])
            | update run | asyncSelf run | asyncRemote run | callFlush run =>
                cases run with
                | main pc => simp [Rank.resume, Rank.call, pc, Pc.inBarrier] at inside
                | handler stack => simp [busy] at stack
            | leave | reduce | reduced | kill | joined => cases inside
            | _ => simp [busy] at *
          · rw [(move.sameTop busy).pc] at inside
            exact mainStep_clears ((routed_of_reachable before).rank i).own busy (inv i inside) moved
        · simpa [hi] using inv i (by simpa [hi] using inside)
    | listen r src =>
        obtain ⟨⟨t, stream⟩, received, rfl⟩ := Option.map_eq_some_iff.mp taken
        by_cases hi : i = r
        · subst hi
          simp only [Function.update_self] at inside ⊢
          have quiet := (Receive.of_listenStep received).quiet
          rw [quiet] at inside ⊢
          exact inv i inside
        · simpa [hi] using inv i (by simpa [hi] using inside)

end Sys

/-- **Outside `wait_local_idle` the send buffers are empty**, on every rank that is in
`barrier`. -/
theorem buffers_of_idle {c : Sys n P σ V C} (h : (comm cfg prog mem main).Reachable c) {r : Fin n}
    (inside : (c.rank r).pc.inBarrier = true) (idle : (c.rank r).stack = []) (d : Fin n) :
    (c.rank r).sendBuffers d = [] := by
  have clear := Sys.clears_of_reachable h r inside
  rw [idle] at clear
  exact not_not.mp (clear d)

/-! ## What a rank has asked for -/

/-- **The calls that rank `r` has issued to other ranks have left it**: none is in its send
buffers, and the unfinished ones are on their way or at their destination. -/
structure Sys.SentOff (c : Sys n P σ V C) (r : Fin n) : Prop where
  /-- The send buffers of the rank are empty. -/
  buffers : ∀ d, (c.rank r).sendBuffers d = []
  /-- The unfinished calls of the rank are addressed to other ranks, and are in the network or
  at their destination. -/
  away : ∀ m ∈ c.pending, m.src = r → m.dest ≠ r ∧
    (m ∈ c.stream r m.dest ∨ m ∈ (c.rank m.dest).queued ∨ m ∈ (c.rank m.dest).unparsed ∨
      m ∈ (c.rank m.dest).executing)

/-- **Before `barrier` samples, everything is sent off.**  Whenever a rank in `barrier` is not
inside `wait_local_idle`, that is at both its samples, at `MPI_Test` and in the second reduction,
none of its calls is still in its own hands. -/
theorem sent_off_in_barrier {c : Sys n P σ V C} (h : (comm cfg prog mem main).Reachable c)
    {r : Fin n} (inside : (c.rank r).pc.inBarrier = true) (idle : (c.rank r).stack = []) :
    c.SentOff r := by
  have routed := Sys.routed_of_reachable h
  have buffers := buffers_of_idle h inside idle
  have busy : ∀ i, ∀ frame ∈ (c.rank i).stack, i ≠ r := by
    rintro i frame inStack rfl
    simp [idle] at inStack
  -- what an activation parses or executes is for its own rank
  have carried : ∀ i, ∀ frame ∈ (c.rank i).stack, ∀ m : Rpc n P,
      m ∈ frame.executing ∨ m ∈ frame.unparsed → m.dest = i := by
    intro i frame inStack m hm
    have addresses := (routed.rank i).stack frame inStack
    cases frame with
    | user ctx k =>
        cases ctx with
        | self m' =>
            obtain rfl : m = m' := by simpa [Frame.executing, Frame.unparsed, Ctx.rpc] using hm
            exact (addresses m (by simp)).2
        | remote src m' tail =>
            refine (addresses.2 m ?_).2
            simpa [Frame.executing, Frame.unparsed, Ctx.rpc] using hm
    | parse src tail => exact (addresses.2 m (hm.resolve_left (by simp [Frame.executing]))).2
    | _ => simp [Frame.executing, Frame.unparsed] at hm
  refine ⟨buffers, fun m hm src => ?_⟩
  simp only [Sys.pending, Sys.unfinished, Multiset.mem_add] at hm
  rcases hm with ((((executing | buffered) | network) | queued) | unparsed) | handed
  · obtain ⟨i, -, hi⟩ := Multiset.mem_sum.mp executing
    obtain ⟨frame, inStack, inFrame⟩ := List.mem_flatMap.mp (Multiset.mem_coe.mp hi)
    obtain rfl := carried i frame inStack m (.inl inFrame)
    exact ⟨busy _ frame inStack, .inr (.inr (.inr hi))⟩
  · obtain ⟨i, -, hi⟩ := Multiset.mem_sum.mp buffered
    obtain ⟨d, -, hd⟩ := Multiset.mem_sum.mp hi
    obtain ⟨own, -⟩ := (routed.rank i).buffers d m hd
    obtain rfl : i = r := own.symm.trans src
    simp [buffers d] at hd
  · obtain ⟨i, -, hi⟩ := Multiset.mem_sum.mp network
    obtain ⟨d, -, hd⟩ := Multiset.mem_sum.mp hi
    have far := Sys.remote_of_in_transit h m (by simp [network])
    obtain ⟨packet, inStream, inPacket⟩ := List.mem_flatMap.mp (Multiset.mem_coe.mp hd)
    have addresses : m.src = i ∧ m.dest = d := by
      have packets := routed.net i d packet inStream
      cases packet with
      | buffer msgs => exact packets.1 m inPacket
      | announce size => cases inPacket
      | large m' => exact packets.1 m inPacket
    obtain ⟨rfl, rfl⟩ := addresses
    subst src
    exact ⟨fun same => far same.symm, .inl hd⟩
  · obtain ⟨i, -, hi⟩ := Multiset.mem_sum.mp queued
    obtain ⟨entry, inQueue, inEntry⟩ := List.mem_flatMap.mp (Multiset.mem_coe.mp hi)
    obtain ⟨other, between⟩ := (routed.rank i).queue entry inQueue
    obtain ⟨own, rfl⟩ := between m inEntry
    exact ⟨fun same => other (own.symm.trans (src.trans same.symm)), .inr (.inl hi)⟩
  · obtain ⟨i, -, hi⟩ := Multiset.mem_sum.mp unparsed
    obtain ⟨frame, inStack, inFrame⟩ := List.mem_flatMap.mp (Multiset.mem_coe.mp hi)
    obtain rfl := carried i frame inStack m (.inr inFrame)
    exact ⟨busy _ frame inStack, .inr (.inr (.inl hi))⟩
  · obtain ⟨i, -, hi⟩ := Multiset.mem_sum.mp handed
    obtain ⟨frame, inStack, inFrame⟩ := List.mem_flatMap.mp (Multiset.mem_coe.mp hi)
    have addresses := (routed.rank i).stack frame inStack
    refine absurd ?_ (busy i frame inStack)
    cases frame with
    | store m' | announce m' | large m' =>
        obtain rfl : m = m' := by simpa [Frame.handed] using inFrame
        exact addresses.1.symm.trans src
    | _ => cases inFrame

/-- Rank 0 of `pingMain` is at `MPI_Test`, and its call to rank 1 is in the network. -/
def pingTesting : Sys 2 (ℕ × List (Act 2)) Unit Unit (List (Act 2)) :=
  (scriptComm ⟨16, false⟩ pingMain).drive (fun _ _ => True)
    (scriptComm ⟨16, false⟩ pingMain).init (mains 0 24)

theorem sent_off_in_barrier_ping :
    (pingTesting.rank 0).pc.waiting = some .first ∧ (pingTesting.net 0 1).length = 1 ∧
      pingTesting.SentOff 0 :=
  ⟨by decide +kernel, by decide +kernel,
    sent_off_in_barrier (Machine.ReachableBy.init.drive _) (by decide +kernel)
      (List.eq_nil_of_length_eq_zero (by decide +kernel))⟩

end YGM
