import YGM.Comm.SameOrder

/-!
# Deadlock freedom

The system of `joint`, with buffered or blocking sends and the message-level reduction, run by
main programs that call their collectives in the same order (`Joint.Follows`).  If nobody can
move, all main programs are at their end (`finished_of_stuck`).

The argument goes from the inside out.  A rank with activations above its main program is not
stuck (`moves_of_busy`), so every rank stands in its main program or in a collective.  Of the
ranks that are not finished one has entered the fewest collectives (`Joint.exists_least`); all
others have entered what it has entered.  If it waits in `barrier` for the second sum, then a
rank that has not contributed has left as many barriers and entered more, so it is in `barrier`
too and not blocked there.  If it is in a reduction, then nobody has returned from it, and one of
the ranks in it can move.
-/

namespace YGM

variable {n : ℕ} {P σ V C τ : Type} [NeZero n] {cfg : Config} {prog : Program n P σ V C}
variable {ops : Reductions V τ} {mem : Fin n → σ} {main : Fin n → C} {x : Joint n P σ V C τ}

omit [NeZero n] in
/-- **Of the ranks that are not finished, one has entered the fewest collectives**: all others
have entered what it has entered. -/
theorem Joint.exists_least {plan : List (Collective τ)} (follows : x.Follows prog plan) {r : Fin n}
    (unfinished : ¬ (x.sys.rank r).Finished prog) :
    ∃ least, ¬ (x.sys.rank least).Finished prog ∧ ∀ i, x.history least <+: x.history i := by
  obtain ⟨least, notDone, fewest⟩ := (measure fun i => (x.history i).length).wf.has_min
    {i | ¬ (x.sys.rank i).Finished prog} ⟨r, unfinished⟩
  refine ⟨least, notDone, fun i => ?_⟩
  refine List.prefix_of_prefix_length_le (follows least).1 (follows i).1 ?_
  by_cases done : (x.sys.rank i).Finished prog
  · rw [(follows i).2 done]
    exact (follows least).1.length_le
  · exact not_lt.mp (fewest i done)

/-- A plain program stays plain when its reductions return what the tree computes. -/
theorem Program.Plain.reductions (plain : prog.Plain) (ops : Reductions V τ) :
    (ops.program prog).Plain :=
  ⟨plain.handlers, plain.alive⟩

/-! ## Nobody is stuck -/

/-- **The system is stuck**: no main thread and no listener can move. -/
def Joint.Stuck (cfg : Config) (prog : Program n P σ V C) (ops : Reductions V τ)
    (x : Joint n P σ V C τ) : Prop :=
  ∀ a, Joint.step cfg prog ops x a = none

/-- In a stuck system, a rank that is in no reduction cannot move in `comm` either. -/
theorem Joint.Stuck.sys (stuck : x.Stuck cfg prog ops) {r : Fin n} {flag : Bool}
    (outside : (x.sys.rank r).reducing = none) :
    Sys.step cfg (ops.program prog) x.sys (.main r flag) = none := by
  simpa [Joint.step, outside] using stuck (.main r flag)

/-- In a stuck system no rank has an activation on its stack: all are in their main programs, or
in a collective called there. -/
theorem Joint.Stuck.idle (stuck : x.Stuck cfg prog ops) (plain : prog.Plain)
    (h : (comm cfg (ops.program prog) mem main).Reachable x.sys)
    (untruncated : x.sys.Untruncated cfg) (r : Fin n) : (x.sys.rank r).stack = [] := by
  by_contra busy
  have plain' : (ops.program prog).Plain := plain.reductions ops
  obtain ⟨a, d, taken, above⟩ := moves_of_busy plain' h untruncated busy
  cases a with
  | listen i src =>
      have none := stuck (.listen i src)
      simp [Joint.step, taken] at none
  | main i flag =>
      have outside : (x.sys.rank i).reducing = none := by
        by_contra inside
        obtain ⟨k, reducing⟩ := Option.ne_none_iff_exists'.mp inside
        exact above i flag rfl (Rank.reducing_eq_some.mp reducing).1
      rw [stuck.sys outside] at taken
      cases taken

/-- **A rank without activations is stuck** at its end, or in the second sum of `barrier` or in
a reduction, in which a contribution is missing. -/
theorem Joint.Stuck.waits (stuck : x.Stuck cfg prog ops) {r : Fin n}
    (idle : (x.sys.rank r).stack = []) (alive : (x.sys.rank r).pc ≠ .join)
    (passes : (x.sys.rank r).pc.isThrown = false) :
    (x.sys.rank r).Finished prog ∨
      (∃ first second, (x.sys.rank r).pc = .second first second) ∧ x.sys.allCount r = none ∨
      ∃ k, (x.sys.rank r).pc = .reduce k := by
  have blocked : (∀ k, (x.sys.rank r).pc ≠ .reduce k) →
      topStep cfg (ops.program prog) r (x.sys.view (ops.program prog) r false) (x.sys.rank r)
        = none := by
    intro out
    have outside : (x.sys.rank r).reducing = none := by
      by_contra inside
      obtain ⟨k, reducing⟩ := Option.ne_none_iff_exists'.mp inside
      exact out k (Rank.reducing_eq_some.mp reducing).2
    have none : Sys.step cfg (ops.program prog) x.sys (.main r false) = none :=
      stuck.sys outside
    simpa [Sys.step, mainStep, idle] using none
  cases pc : (x.sys.rank r).pc with
  | user =>
      have none := blocked (by simp [pc])
      simp only [topStep, pc] at none
      cases cmd : prog.next (x.sys.rank r).code (x.sys.rank r).mem with
      | ret mem => exact .inl ⟨idle, pc, mem, cmd⟩
      | _ =>
          change userStep cfg (ops.program prog) r (x.sys.rank r) .none []
            (prog.next (x.sys.rank r).code (x.sys.rank r).mem) = .none at none
          rw [cmd] at none
          cases none
  | sample =>
      have none := blocked (by simp [pc])
      simp [topStep, pc] at none
  | test first =>
      have none := blocked (by simp [pc])
      simp only [topStep, pc] at none
      split at none <;> simp [Sys.view] at none
  | second first second =>
      have none := blocked (by simp [pc])
      simp only [topStep, pc, Sys.view] at none
      cases sum : x.sys.allCount r with
      | none => exact .inr (.inl ⟨⟨_, _, rfl⟩, rfl⟩)
      | some sum =>
          simp only [sum] at none
          repeat' split at none
          all_goals cases none
  | reduce k => exact .inr (.inr ⟨k, rfl⟩)
  | join => exact absurd pc alive
  | thrown first second => simp [pc, Pc.isThrown] at passes

/-- **The least rank does not wait in `barrier`**: in a stuck system, a rank that has entered no
more collectives than any other has the result of its second sum. -/
theorem Joint.Stuck.not_second (stuck : x.Stuck cfg prog ops)
    (reached : (comm cfg (ops.program prog) mem main).Reachable x.sys) (recorded : x.Recorded ops)
    (idle : ∀ r, (x.sys.rank r).stack = []) (alive : ∀ r, (x.sys.rank r).pc ≠ .join)
    (passes : ∀ r, (x.sys.rank r).pc.isThrown = false) {least : Fin n}
    (entered : ∀ i, x.history least <+: x.history i) {first second : ℤ}
    (pc : (x.sys.rank least).pc = .second first second) : x.sys.allCount least ≠ none := by
  intro missing
  have aligned := Sys.aligned_of_reachable reached
  have waits : (x.sys.rank least).party.waiting ≠ none := by simp [pc, Pc.waiting]
  obtain ⟨i, ⟨free, rounds⟩ | ⟨waits', sum, seen⟩⟩ := aligned.of_missing waits missing
  · -- a rank outside `barrier` has entered fewer barriers
    have count := (entered i).sublist.countP_le (p := Collective.isBarrier)
    rw [recorded.barriers, recorded.barriers] at count
    change (x.sys.rank i).epoch = (x.sys.rank least).epoch at rounds
    change (x.sys.rank i).pc.waiting = none at free
    simp only [Rank.entered, rounds, pc, Pc.inBarrier] at count
    rcases stuck.waits (idle i) (alive i) (passes i) with
      ⟨-, user, -⟩ | ⟨⟨first', second', pc'⟩, -⟩ | ⟨k, pc'⟩
    · simp [user] at count
    · simp [pc', Pc.waiting] at free
    · simp [pc'] at count
  · -- a rank that has its sum can go on
    change (x.sys.rank i).pc.waiting ≠ none at waits'
    change x.sys.allCount i = some sum at seen
    rcases stuck.waits (idle i) (alive i) (passes i) with
      ⟨-, user, -⟩ | ⟨-, none⟩ | ⟨k, pc'⟩
    · simp [user, Pc.waiting] at waits'
    · simp [seen] at none
    · simp [pc', Pc.waiting] at waits'

/-- **A reduction to which all have contributed** goes on: one of the ranks in it can move. -/
theorem Joint.Sound.reduces_some {calls : List (Reduce.Call n V)}
    (sound : x.Sound cfg prog ops mem main calls) (lists : Lists ops calls x.sys) {r : Fin n}
    {k : V → C} (pc : (x.sys.rank r).pc = .reduce k)
    (posted : ∀ i, (x.tree.node r).calls < (x.sys.rank i).otherPosts.length) :
    ∃ i k, (x.sys.rank i).pc = .reduce k ∧ ∃ y, Joint.step cfg prog ops x (.main i true) = some y := by
  by_contra blocked
  simp only [not_exists, not_and] at blocked
  obtain ⟨own, call, -, at_call, -⟩ := sound.at_call lists pc
  have idle := fun i k pc => ((inTurn_of_reachable sound.sys).entered i k pc).1
  have calls_eq : ∀ i, ((x.told calls).node i).calls = (x.tree.node i).calls := by
    intro i
    unfold Joint.told Reduce.Node.begin
    dsimp only
    split <;> rfl
  -- all are in it or past it, and who is in it cannot move
  have stuck : Reduce.Stuck cfg.synchronous calls (x.told calls) (x.tree.node r).calls call := by
    refine ⟨fun i same => ?_, fun i => ?_, at_call⟩
    · rw [calls_eq] at same
      obtain ⟨k', pc'⟩ : ∃ k, (x.sys.rank i).pc = .reduce k := by
        by_contra out
        have free := sound.free i fun k pc => out ⟨k, pc⟩
        have more := posted i
        omega
      rw [sound.told_step lists pc', Option.map_eq_none_iff]
      have reducing := Rank.reducing_eq_some.mpr ⟨idle i k' pc', pc'⟩
      simpa [Joint.step, reducing] using Option.eq_none_iff_forall_ne_some.mpr (blocked i k' pc')
    · rw [calls_eq]
      by_cases inside : ∃ k, (x.sys.rank i).pc = .reduce k
      · obtain ⟨k', pc'⟩ := inside
        have := sound.reducing i k' pc'
        have := posted i
        omega
      · have := sound.free i fun k pc => inside ⟨k, pc⟩
        have := posted i
        omega
  exact stuck.absurd sound.inStep (calls_eq r)

omit [NeZero n] in
/-- Every rank has contributed to at least as many reductions as a rank that has entered no more
collectives than any other. -/
theorem Joint.Recorded.posts_le (recorded : x.Recorded ops) {least : Fin n}
    (entered : ∀ i, x.history least <+: x.history i) (i : Fin n) :
    (x.sys.rank least).otherPosts.length ≤ (x.sys.rank i).otherPosts.length := by
  have length := ((entered i).filterMap Collective.op).length_le
  rwa [recorded.reductions, recorded.reductions, List.length_map, List.length_map] at length

/-- **The least rank is in no reduction**: in a stuck system, a rank that has entered no more
collectives than any other does not wait for one. -/
theorem Joint.Stuck.not_reduce {calls : List (Reduce.Call n V)} (stuck : x.Stuck cfg prog ops)
    (sound : x.Sound cfg prog ops mem main calls) (lists : Lists ops calls x.sys)
    (recorded : x.Recorded ops) {least : Fin n} (entered : ∀ i, x.history least <+: x.history i)
    (k : V → C) : (x.sys.rank least).pc ≠ .reduce k := by
  intro pc
  have inside := sound.reducing least k pc
  obtain ⟨i, -, -, y, taken⟩ := sound.reduces_some lists pc fun i => by
    have := recorded.posts_le entered i
    omega
  rw [stuck] at taken
  cases taken

/-- **When the system is stuck, all main programs are finished**, if they follow one plan and no
assertion has failed. -/
theorem finished_of_stuck [Inhabited V] (plain : prog.Plain)
    (h : (joint cfg prog ops mem main).ReachableBy (Joint.Passes cfg prog ops) x)
    {plan : List (Collective τ)} (follows : x.Follows prog plan) (stuck : x.Stuck cfg prog ops)
    (r : Fin n) : (x.sys.rank r).Finished prog := by
  have recorded := recorded_of_reachable h.reachable
  obtain ⟨passes, untruncated⟩ := unthrown_of_reachable h
  obtain ⟨calls, lists⟩ := exists_lists follows recorded
  have sound := sound_of_reachable h lists
  have idle := stuck.idle plain sound.sys untruncated
  have plain' : (ops.program prog).Plain := plain.reductions ops
  have opened := open_of_reachable plain' sound.sys
  by_contra unfinished
  obtain ⟨least, notDone, entered⟩ := Joint.exists_least follows unfinished
  rcases stuck.waits (idle least) (opened.join least) (passes least).1 with
    done | ⟨⟨first, second, pc⟩, missing⟩ | ⟨k, pc⟩
  · exact notDone done
  · exact stuck.not_second sound.sys recorded idle opened.join (fun i => (passes i).1) entered pc
      missing
  · exact stuck.not_reduce sound lists recorded entered k pc

/-- As long as the main program of some rank is not finished, some main thread or listener can
move. -/
theorem moves_of_unfinished [Inhabited V] (plain : prog.Plain)
    (h : (joint cfg prog ops mem main).ReachableBy (Joint.Passes cfg prog ops) x)
    {plan : List (Collective τ)} (follows : x.Follows prog plan) {r : Fin n}
    (unfinished : ¬ (x.sys.rank r).Finished prog) :
    ∃ a y, Joint.step cfg prog ops x a = some y := by
  by_contra none
  refine unfinished (finished_of_stuck plain h follows (fun a => ?_) r)
  rw [Option.eq_none_iff_forall_ne_some]
  exact fun y taken => none ⟨a, y, taken⟩

/-- Without its tree, a state of a run whose main programs keep to a plan is one of `comm`. -/
theorem comm_reachable [Inhabited V]
    (h : (joint cfg prog ops mem main).ReachableBy (Joint.Passes cfg prog ops) x)
    {plan : List (Collective τ)} (follows : x.Follows prog plan) :
    (comm cfg (ops.program prog) mem main).Reachable x.sys := by
  obtain ⟨calls, lists⟩ := exists_lists follows (recorded_of_reachable h.reachable)
  exact (sound_of_reachable h lists).sys

omit [NeZero n] in
/-- The collectives of `m_comm_barrier` are of the same kinds on all ranks: the `j`-th of one
rank is of the kind of the `j`-th of any other. -/
theorem barrierPosts_kind {c : Sys n P σ V C} (h : (comm cfg prog mem main).Reachable c)
    (r i : Fin n) (j : ℕ) (post post' : Kind × ℤ) (mine : (c.rank r).barrierPosts[j]? = some post)
    (other : (c.rank i).barrierPosts[j]? = some post') : post.1 = post'.1 := by
  have aligned := Sys.aligned_of_reachable h
  rw [aligned.kind r j post mine, aligned.kind i j post' other]

/-- **The liveness of one state of a run**: the collectives are matched, a listener that awaits
a large message has its sender, and some thread can move. -/
structure Joint.Live (cfg : Config) (prog : Program n P σ V C) (ops : Reductions V τ)
    (x : Joint n P σ V C τ) : Prop where
  /-- If sends block, a listener that has taken an announcement waits for a rank that is at the
  send of the message. -/
  payload : cfg.synchronous = true → ∀ r src size, (x.sys.rank r).listener = .large src size →
    AtPayload (ops.program prog) r size (x.sys.rank src) (x.sys.net src r)
  /-- The collectives of `m_comm_barrier` are the same for all ranks. -/
  kinds : ∀ (r i : Fin n) (j : ℕ) (post post' : Kind × ℤ), (x.sys.rank r).barrierPosts[j]? = some post →
    (x.sys.rank i).barrierPosts[j]? = some post' → post.1 = post'.1
  /-- As long as a main program is not finished, wherever its main thread is blocked, some
  thread can move. -/
  moves : ∀ r, ¬ (x.sys.rank r).Finished prog → ∃ a y, Joint.step cfg prog ops x a = some y

/-- **No deadlock**, whether sends are buffered or block.  Main threads block in sends to each
other, in the messages of the tree reduction and in the second sum of `barrier`, listeners block
on large messages; but there is always a thread that can move until all main programs are
finished. -/
theorem no_deadlock [Inhabited V] (plain : prog.Plain)
    (h : (joint cfg prog ops mem main).ReachableBy (Joint.Passes cfg prog ops) x)
    {plan : List (Collective τ)} (follows : x.Follows prog plan) : x.Live cfg prog ops where
  payload synchronous _ _ _ awaits :=
    payload_of_reachable synchronous (plain.reductions ops) (comm_reachable h follows) awaits
  kinds := barrierPosts_kind (comm_reachable h follows)
  moves _ := moves_of_unfinished plain h follows

/-- **A main thread that is blocked**, as far as the calls of MPI go that do not return at once. -/
inductive Joint.Blocked (x : Joint n P σ V C τ) (r : Fin n) : Prop
  /-- In an `MPI_Send` of a buffer, an announcement or a large message that no listener has
  received. -/
  | send {dest : Fin n} {rest : List (Frame n P C)}
      (stack : (x.sys.rank r).stack = .sending dest :: rest) (unmatched : x.sys.net r dest ≠ [])
  /-- In a send, a receive or a broadcast of `all_reduce`. -/
  | reduce {k : V → C} (pc : (x.sys.rank r).pc = .reduce k)
  /-- In the `MPI_Allreduce` of the second count of `barrier`, to which not all have contributed. -/
  | barrier {first second : ℤ} (stack : (x.sys.rank r).stack = [])
      (pc : (x.sys.rank r).pc = .second first second) (missing : x.sys.allCount r = none)

omit [NeZero n] in
/-- A main program whose main thread is blocked is not finished. -/
theorem Joint.Blocked.not_finished {r : Fin n} (blocked : x.Blocked r) :
    ¬ (x.sys.rank r).Finished prog := by
  rintro ⟨idle, user, -⟩
  cases blocked with
  | send stack => simp [idle] at stack
  | reduce pc => simp [user] at pc
  | barrier _ pc => simp [user] at pc

/-- **Blocking sends and collectives never deadlock.**  Let every `MPI_Send` return only when it is
matched.  In every state of a run without a failed assertion, a listener that has taken the
announcement of a large message waits for a rank whose main thread is at the send of that message;
the collectives on `m_comm_barrier` are of the same kinds on all ranks; and when some main thread
is blocked there is a thread that can move. -/
theorem blocking_sends_never_deadlock [Inhabited V] (synchronous : cfg.synchronous = true)
    (plain : prog.Plain)
    (h : (joint cfg prog ops mem main).ReachableBy (Joint.Passes cfg prog ops) x)
    {plan : List (Collective τ)} (follows : x.Follows prog plan) :
    (∀ r src size, (x.sys.rank r).listener = .large src size →
      AtPayload (ops.program prog) r size (x.sys.rank src) (x.sys.net src r)) ∧
    (∀ (r i : Fin n) (j : ℕ) (post post' : Kind × ℤ), (x.sys.rank r).barrierPosts[j]? = some post →
      (x.sys.rank i).barrierPosts[j]? = some post' → post.1 = post'.1) ∧
    ∀ r, x.Blocked r → ∃ a y, Joint.step cfg prog ops x a = some y := by
  have reached := comm_reachable h follows
  refine ⟨fun r src size awaits => ?_, barrierPosts_kind reached, fun r blocked => ?_⟩
  · exact payload_of_reachable synchronous (plain.reductions ops) reached awaits
  · exact moves_of_unfinished plain h follows blocked.not_finished

/-! ## A run -/

theorem errands_plain (n : ℕ) : (errands n).Plain := by
  refine ⟨⟨fun code => code = [], fun _ _ => rfl, ?_⟩, ?_⟩
  · rintro code mem rfl
    trivial
  · rintro (_ | ⟨_ | _ | _, _⟩) mem k' <;> simp [errands]

/-- Rank 0 is sending a large message to rank 1, which is in a reduction that rank 0 has not
entered. -/
def crossing : Joint 2 ℕ Unit ℕ (List (Errand 2)) Unit :=
  (joint ⟨8, true⟩ (errands 2) sums (fun _ => ())
    ![[.async 1 0, .allReduce 5], [.allReduce 7]]).drive
      (Joint.Passes ⟨8, true⟩ (errands 2) sums)
    (joint ⟨8, true⟩ (errands 2) sums (fun _ => ())
      ![[.async 1 0, .allReduce 5], [.allReduce 7]]).init
    (mains 0 2 ++ [.listen 1 0] ++ mains 0 2 ++ mains 1 4)

/-- The main program of rank 0 has entered no collective, and that of rank 1 its reduction. -/
theorem crossing_follows : crossing.Follows (errands 2) [.allReduce ()] := by
  have histories : crossing.history 0 = [] ∧ crossing.history 1 = [.allReduce ()] := by
    decide +kernel
  have busy : (crossing.sys.rank 0).stack.length = 2 := by decide +kernel
  refine Fin.forall_fin_two.mpr ⟨⟨by simp [histories], fun done => ?_⟩,
    ⟨by simp [histories], fun _ => histories.2⟩⟩
  simp [done.1] at busy

theorem no_deadlock_crossing :
    ((crossing.sys.rank 0).stack.length = 2 ∧ (crossing.sys.rank 1).pc.isUser = false) ∧
      crossing.Live ⟨8, true⟩ (errands 2) sums := by
  have busy : (crossing.sys.rank 0).stack.length = 2 ∧
      (crossing.sys.rank 1).pc.isUser = false := by decide +kernel
  exact ⟨busy, no_deadlock (errands_plain 2) (Machine.ReachableBy.init.drive _) crossing_follows⟩

/-- Rank 0 of `crossing` is blocked in the send of its large message, and there is a thread that
can move. -/
theorem blocking_sends_never_deadlock_crossing :
    crossing.Blocked 0 ∧ ∃ a y, Joint.step ⟨8, true⟩ (errands 2) sums crossing a = some y := by
  have sending : (crossing.sys.rank 0).stack.head?.any (fun frame =>
      match frame with
      | .sending dest => !(crossing.sys.net 0 dest).isEmpty
      | _ => false) = true := by decide +kernel
  have blocked : crossing.Blocked 0 := by
    cases stack : (crossing.sys.rank 0).stack with
    | nil => simp [stack] at sending
    | cons frame rest =>
        cases frame with
        | sending dest =>
            refine .send stack fun empty => ?_
            simp [stack, empty] at sending
        | _ => simp [stack] at sending
  exact ⟨blocked, (blocking_sends_never_deadlock rfl (errands_plain 2)
    (Machine.ReachableBy.init.drive _) crossing_follows).2.2 0 blocked⟩

end YGM
