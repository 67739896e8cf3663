import YGM.Comm.Barrier

/-!
# Blocking reductions on `m_comm_other`

A rank in a reduction does nothing at all until all ranks have contributed: it executes no
call and receives nothing from its queue.  So ranks are at most one reduction apart
(`InTurn`), and when the last rank contributes all the others stand where they were when
they contributed (`exists_moment`).
-/

namespace YGM

variable {n : ℕ} {P σ V C : Type} {cfg : Config} {prog : Program n P σ V C}

/-- **The effect of a move on reductions**, on a rank that has no activations while it is in
one: there is none, or the rank enters a reduction, or a reduction completes. -/
theorem Move.reductions {r : Fin n} {w : View n V} {s t : Rank n P σ V C}
    {sent : Option (Fin n × Packet n P)} (move : Move cfg prog r w s t sent)
    (idle : ∀ k, s.pc = .reduce k → s.stack = []) :
    ((∀ k, s.pc ≠ .reduce k) ∧ (∀ k, t.pc ≠ .reduce k) ∧ t.otherPosts = s.otherPosts) ∨
    (∃ value k, s.pc = .user ∧ s.stack = [] ∧ prog.next s.code s.mem = .allReduce value k ∧
      t = { s with pc := .reduce k, otherPosts := s.otherPosts ++ [value] } ∧ sent = none) ∨
    ∃ value k, s.pc = .reduce k ∧ w.reduced = some value ∧ t.otherPosts = s.otherPosts ∧
      t.pc = .user := by
  have active : ∀ {ctx rest k}, Running s ctx rest k → ∀ k, s.pc ≠ .reduce k := by
    intro ctx rest k run k' pc
    cases run with
    | main user stack => simp [user] at pc
    | handler stack => simp [idle k' pc] at stack
  cases move with
  | @reduce value k pc stack cmd => exact .inr (.inl ⟨value, k, pc, stack, cmd, rfl, rfl⟩)
  | @reduced value k pc stack result => exact .inr (.inr ⟨value, k, pc, result, rfl, rfl⟩)
  | @update ctx rest k k' mem run cmd =>
      exact .inl ⟨active run, by simpa using active run, by simp⟩
  | @asyncSelf ctx rest k k' payload m run cmd call =>
      exact .inl ⟨active run, by simpa [Rank.call] using active run, by simp [Rank.call]⟩
  | @asyncRemote ctx rest k k' dest payload m frames run cmd call remote path =>
      exact .inl ⟨active run, by simpa [Rank.call] using active run, by simp [Rank.call]⟩
  | @callFlush ctx rest k k' frame run cmd =>
      exact .inl ⟨active run, by simpa [Rank.call] using active run, by simp [Rank.call]⟩
  | barrier pc stack cmd | kill pc stack cmd | joined pc stack stopped | sample pc stack
  | pending pc stack | confirm pc stack zero | leave pc stack zero agree
  | throw pc stack zero differ =>
      exact .inl ⟨by simp [pc], by simp, rfl⟩
  | retry pc stack seen nonzero =>
      refine .inl ⟨fun k => ?_, by simp, rfl⟩
      rcases pc with ⟨first, pc⟩ | ⟨first, second, pc⟩ <;> simp [pc]
  | _ =>
      -- an activation moves, so the rank is in no reduction
      have out : ∀ k, s.pc ≠ .reduce k := fun k pc => by simp [*] at idle
      exact .inl ⟨out, out, rfl⟩

/-- The contributions of a rank to reductions stay where they are: a move can only add one. -/
theorem Move.otherPosts {r : Fin n} {w : View n V} {s t : Rank n P σ V C}
    {sent : Option (Fin n × Packet n P)} (move : Move cfg prog r w s t sent) :
    s.otherPosts <+: t.otherPosts := by
  cases move with
  | reduce pc stack cmd => exact List.prefix_append _ _
  | _ => simp [Rank.finish, Rank.call]

/-- **The ranks take their reductions in turn**: none contributes to a reduction before all have
contributed to the one before. -/
structure InTurn (prog : Program n P σ V C) (c : Sys n P σ V C) : Prop where
  /-- A rank in a reduction stands where it entered it. -/
  entered : ∀ r k, (c.rank r).pc = .reduce k → (c.rank r).stack = [] ∧
    ∃ value, (c.rank r).otherPosts.getLast? = some value ∧
      prog.next (c.rank r).code (c.rank r).mem = .allReduce value k
  /-- A rank that is ahead is in a reduction. -/
  ahead : ∀ i j, (c.rank j).otherPosts.length < (c.rank i).otherPosts.length →
    ∃ k, (c.rank i).pc = .reduce k
  close : ∀ i j, (c.rank i).otherPosts.length ≤ (c.rank j).otherPosts.length + 1

variable {mem : Fin n → σ} {main : Fin n → C} {c : Sys n P σ V C}

section Steps

variable {r : Fin n} {t : Rank n P σ V C} {net : Fin n → Fin n → List (Packet n P)}

/-- If a step of rank `r` adds no contribution of this rank, all ranks have contributed as often
as before. -/
theorem length_update (posts : t.otherPosts = (c.rank r).otherPosts) (i : Fin n) :
    (Function.update c.rank r t i).otherPosts.length = (c.rank i).otherPosts.length := by
  by_cases hi : i = r
  · subst hi
    simp [posts]
  · simp [hi]

/-- A rank outside of reductions is behind all others, or level with them. -/
theorem InTurn.behind (h : InTurn prog c) (outside : ∀ k, (c.rank r).pc ≠ .reduce k) (j : Fin n) :
    (c.rank r).otherPosts.length ≤ (c.rank j).otherPosts.length := by
  by_contra lt
  obtain ⟨k, pc⟩ := h.ahead r j (not_le.mp lt)
  exact outside k pc

/-- The ranks stay in turn in a step of a rank that is in no reduction after it and contributes
nothing, if the rank is not ahead of another one. -/
theorem InTurn.leaves (h : InTurn prog c)
    (behind : ∀ j, (c.rank r).otherPosts.length ≤ (c.rank j).otherPosts.length)
    (after : ∀ k, t.pc ≠ .reduce k) (posts : t.otherPosts = (c.rank r).otherPosts) :
    InTurn prog { rank := Function.update c.rank r t, net := net } := by
  refine ⟨fun i k pc => ?_, fun i j lt => ?_, fun i j => ?_⟩
  · by_cases hi : i = r
    · subst hi
      simp only [Function.update_self] at pc
      exact absurd pc (after k)
    · simpa [hi] using h.entered i k (by simpa [hi] using pc)
  · simp only [length_update posts] at lt
    by_cases hi : i = r
    · subst hi
      exact absurd lt (not_lt.mpr (behind j))
    · simpa [hi] using h.ahead i j lt
  · simp only [length_update posts]
    exact h.close i j

/-- The ranks stay in turn when a rank enters a reduction with its contribution. -/
theorem InTurn.enters (h : InTurn prog c) {value : V} {k : V → C} (pc : (c.rank r).pc = .user)
    (stack : (c.rank r).stack = [])
    (cmd : prog.next (c.rank r).code (c.rank r).mem = .allReduce value k) :
    InTurn prog
      { rank := Function.update c.rank r { c.rank r with
          pc := .reduce k, otherPosts := (c.rank r).otherPosts ++ [value] }
        net := net } := by
  have behind := h.behind (r := r) fun k' pc' => by simp [pc] at pc'
  refine ⟨fun i k' pc' => ?_, fun i j lt => ?_, fun i j => ?_⟩
  · by_cases hi : i = r
    · subst hi
      simp only [Function.update_self, Pc.reduce.injEq] at pc' ⊢
      exact ⟨stack, value, by simp, pc' ▸ cmd⟩
    · simpa [hi] using h.entered i k' (by simpa [hi] using pc')
  · by_cases hi : i = r
    · subst hi
      exact ⟨k, by simp⟩
    · by_cases hj : j = r
      · subst hj
        simp only [Function.update_self, Function.update_of_ne hi, List.length_append,
          List.length_singleton] at lt ⊢
        exact h.ahead i j (by omega)
      · simpa [hi] using h.ahead i j (by simpa [hi, hj] using lt)
  · have old := h.close i j
    have low := behind j
    by_cases hi : i = r <;> by_cases hj : j = r
    · subst hi hj
      simp
    · subst hi
      simpa [hj] using low
    · subst hj
      simp only [Function.update_self, Function.update_of_ne hi, List.length_append,
        List.length_singleton]
      omega
    · simpa [hi, hj] using old

/-- The ranks stay in turn when a listener receives, which changes no main thread. -/
theorem InTurn.receives (h : InTurn prog c) {src : Fin n} {stream stream' : List (Packet n P)}
    (receive : Receive cfg prog r src (c.rank r) stream t stream') :
    InTurn prog { rank := Function.update c.rank r t, net := net } := by
  have same : ∀ i, (Function.update c.rank r t i).pc = (c.rank i).pc ∧
      (Function.update c.rank r t i).otherPosts = (c.rank i).otherPosts ∧
      (Function.update c.rank r t i).stack = (c.rank i).stack ∧
      (Function.update c.rank r t i).code = (c.rank i).code ∧
      (Function.update c.rank r t i).mem = (c.rank i).mem := by
    intro i
    obtain ⟨listener, queue, eq⟩ := receive.frame i
    simp [eq]
  refine ⟨fun i k pc => ?_, fun i j lt => ?_, fun i j => ?_⟩
  · simp only [same] at pc ⊢
    exact h.entered i k pc
  · simp only [same] at lt ⊢
    exact h.ahead i j lt
  · simp only [same]
    exact h.close i j

end Steps

theorem inTurn_of_reachable (h : (comm cfg prog mem main).Reachable c) : InTurn prog c := by
  refine h.invariant (I := InTurn prog) ⟨by simp [comm, Rank.init], by simp [comm, Rank.init],
    by simp [comm, Rank.init]⟩ ?_
  intro c a d _ inv taken
  rcases Sys.step_cases taken with
    ⟨r, flag, t, sent, -, move, rfl⟩ | ⟨r, src, t, stream, -, receive, rfl⟩
  · rcases move.reductions (fun k pc => (inv.entered r k pc).1) with
      ⟨before, after, posts⟩ | ⟨value, k, pc, stack, cmd, rfl, -⟩ | ⟨value, k, pc, seen, posts, user⟩
    · exact inv.leaves (inv.behind before) after posts
    · exact inv.enters pc stack cmd
    · refine inv.leaves (fun j => ?_) (by simp [user]) posts
      -- the reduction is complete, so all ranks have contributed to it
      change c.reduced prog r = some value at seen
      simp only [Sys.reduced] at seen
      split at seen
      case isTrue posted =>
        have := posted j
        omega
      case isFalse => cases seen
  · exact inv.receives receive

theorem step_otherPosts {d : Sys n P σ V C} {a : Action n}
    (taken : Sys.step cfg prog c a = some d) (i : Fin n) :
    (c.rank i).otherPosts <+: (d.rank i).otherPosts := by
  rcases Sys.step_cases taken with
    ⟨r, flag, t, sent, -, move, rfl⟩ | ⟨r, src, t, stream, -, receive, rfl⟩
  · by_cases hi : i = r
    · subst hi
      simpa using move.otherPosts
    · simp [hi]
  · obtain ⟨listener, queue, eq⟩ := receive.frame i
    simp [eq]

theorem leads_otherPosts {d : Sys n P σ V C} (leads : (comm cfg prog mem main).Leads c d)
    (i : Fin n) : (c.rank i).otherPosts <+: (d.rank i).otherPosts := by
  induction leads with
  | refl => exact List.prefix_rfl
  | tail _ taken ih =>
      obtain ⟨a, taken⟩ := taken
      exact ih.trans (step_otherPosts taken i)

/-- **Every value contributed to a reduction** has all properties that the values handed over by
the program have. -/
theorem otherPosts_of_reachable (good : V → Prop)
    (hands : ∀ code mem value k, prog.next code mem = .allReduce value k → good value)
    (h : (comm cfg prog mem main).Reachable c) :
    ∀ i, ∀ value ∈ (c.rank i).otherPosts, good value := by
  refine h.invariant (I := fun c => ∀ i, ∀ value ∈ (c.rank i).otherPosts, good value)
    (by simp [comm, Rank.init]) ?_
  intro c a d before posts taken i
  rcases Sys.step_cases taken with
    ⟨r, flag, t, sent, -, move, rfl⟩ | ⟨r, src, t, stream, -, receive, rfl⟩
  · by_cases hi : i = r
    · subst hi
      simp only [Function.update_self]
      rcases move.reductions (fun k pc => ((inTurn_of_reachable before).entered i k pc).1) with
        ⟨-, -, same⟩ | ⟨value, k, -, -, cmd, rfl, -⟩ | ⟨value, k, -, -, same, -⟩
      · exact same ▸ posts i
      · intro value' hvalue
        rcases List.mem_append.mp hvalue with old | new
        · exact posts i value' old
        · rw [List.mem_singleton.mp new]
          exact hands _ _ _ _ cmd
      · exact same ▸ posts i
    · simpa [hi] using posts i
  · obtain ⟨listener, queue, eq⟩ := receive.frame i
    simp only [eq]
    exact posts i

/-- **The last contribution** to reduction `j`: rank `r` enters it at `b`, and in `d` all
ranks are in it. -/
structure Moment (cfg : Config) (prog : Program n P σ V C) (j : ℕ) (r : Fin n)
    (b d : Sys n P σ V C) : Prop where
  /-- The main program of rank `r` contributes its value in this step. -/
  enters : (b.rank r).pc = .user ∧ (b.rank r).stack = [] ∧
    ∃ value k, prog.next (b.rank r).code (b.rank r).mem = .allReduce value k ∧
      d = { b with rank := Function.update b.rank r { b.rank r with
        pc := .reduce k, otherPosts := (b.rank r).otherPosts ++ [value] } }
  last : ∀ i, i ≠ r → (b.rank r).otherPosts.length < (b.rank i).otherPosts.length
  inside : ∀ i, (d.rank i).otherPosts.length = j + 1 ∧ ∃ k, (d.rank i).pc = .reduce k

/-- **A reduction that is complete** has a moment at which its last contribution was made, in
the same run. -/
theorem exists_moment {ok : Sys n P σ V C → Action n → Prop}
    (h : (comm cfg prog mem main).ReachableBy ok c) {j : ℕ} (ranks : 0 < n)
    (posted : ∀ i, j < (c.rank i).otherPosts.length) :
    ∃ r flag b d, (comm cfg prog mem main).ReachableBy ok b ∧ ok b (.main r flag) ∧
      Sys.step cfg prog b (.main r flag) = some d ∧
      (comm cfg prog mem main).Leads d c ∧ Moment cfg prog j r b d := by
  induction h with
  | init => exact absurd (posted ⟨0, ranks⟩) (by simp [comm, Rank.init])
  | @step b a d before allowed taken ih =>
      by_cases old : ∀ i, j < (b.rank i).otherPosts.length
      · obtain ⟨r, flag, b', d', reached, allowed', taken', leads, moment⟩ := ih old
        exact ⟨r, flag, b', d', reached, allowed', taken', leads.tail ⟨a, taken⟩, moment⟩
      · obtain ⟨r, low⟩ := not_forall.mp old
        have inv := inTurn_of_reachable before.reachable
        change Sys.step cfg prog b a = some d at taken
        have here := taken
        rcases Sys.step_cases taken with
          ⟨i, flag, t, sent, rfl, move, rfl⟩ | ⟨i, src, t, stream, -, receive, rfl⟩
        · have more := posted r
          have mine : r = i := by
            by_contra other
            simp only [Function.update_of_ne other] at more
            exact low more
          subst mine
          simp only [Function.update_self] at more
          rcases move.reductions (fun k pc => (inv.entered r k pc).1) with
            ⟨-, -, posts⟩ | ⟨value, k, pc, stack, cmd, rfl, rfl⟩ | ⟨value, k, pc, -, posts, -⟩
          · exact absurd (posts ▸ more) low
          · simp only [List.length_append, List.length_singleton] at more
            have others : ∀ i, i ≠ r → j < (b.rank i).otherPosts.length := by
              intro i hi
              simpa [hi] using posted i
            refine ⟨r, flag, b, _, before, allowed, here, .refl,
              ⟨pc, stack, value, k, cmd, rfl⟩, fun i hi => ?_, fun i => ?_⟩
            · have := others i hi
              omega
            · by_cases hi : i = r
              · subst hi
                simp only [Function.update_self, List.length_append, List.length_singleton]
                exact ⟨by omega, k, rfl⟩
              · have more' := others i hi
                have close := inv.close i r
                obtain ⟨k', pc'⟩ := inv.ahead i r (by omega)
                simp only [Function.update_of_ne hi]
                exact ⟨by omega, k', pc'⟩
          · exact absurd (posts ▸ more) low
        · have more := posted r
          by_cases mine : r = i
          · subst mine
            simp only [Function.update_self] at more
            rw [receive.quiet] at more
            exact absurd more low
          · simp only [Function.update_of_ne mine] at more
            exact absurd more low

/-- Entering a reduction starts and finishes no call, so the pending calls stay the same. -/
theorem Moment.pending {j : ℕ} {r : Fin n} {b d : Sys n P σ V C}
    (moment : Moment cfg prog j r b d) : d.pending = b.pending := by
  obtain ⟨-, -, value, k, -, rfl⟩ := moment.enters
  have sums : ∀ (f : Rank n P σ V C → Multiset (Rpc n P)) {t : Rank n P σ V C},
      f t = f (b.rank r) → ∑ i, f (Function.update b.rank r t i) = ∑ i, f (b.rank i) :=
    fun f _ same => sum_update_eq f b.rank r same
  simp only [Sys.pending, Sys.unfinished, Sys.executing, Sys.buffered, Sys.inNetwork,
    Sys.stream, Sys.queued, Sys.unparsed, Sys.handed]
  congr 1
  · congr 1
    · congr 1
      · congr 1
        exact congrArg₂ (· + ·) (sums (fun s => s.executing) rfl) (sums (fun s => s.buffered) rfl)
      · exact sums (fun s => s.queued) rfl
    · exact sums (fun s => s.unparsed) rfl
  · exact sums (fun s => s.handed) rfl

end YGM
