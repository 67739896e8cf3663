import YGM.Comm.Outline
import YGM.Comm.Reductions

/-!
# All ranks at the end of a barrier

When a barrier is about to let its ranks go there is a state in which all of them stand
still in it and no call is pending (`Meeting`).  Every rank leaves that barrier from where it
stands in this state (`Meeting.stays`), so what a rank finds in the code behind its barrier
is what it had there (`Meeting.found`), and what all ranks contribute to a reduction they
enter right behind it are values of one state (`Meeting.posted`).
-/

namespace YGM

variable {n : ℕ} {P σ V C : Type} {cfg : Config} {prog : Program n P σ V C}
variable {mem : Fin n → σ} {main : Fin n → C}

/-- **The end of the barrier that ends epoch `e`**: all ranks wait in it with an empty stack, no
call is pending, and its second sum is complete. -/
structure Meeting (d : Sys n P σ V C) (e : ℕ) : Prop where
  epoch : ∀ r, (d.rank r).epoch = e
  inside : ∀ r, (d.rank r).pc.waiting = some .second
  stack : ∀ r, (d.rank r).stack = []
  pending : d.pending = 0
  complete : e < d.round

/-- Rank `t` stands where rank `s` stood: at the same code point, with the same memory, an empty
stack and the same contributions to reductions. -/
structure Still (s t : Rank n P σ V C) : Prop where
  code : t.code = s.code
  mem : t.mem = s.mem
  stack : t.stack = []
  posts : t.otherPosts = s.otherPosts

/-- The number of complete rounds does not decrease in a step. -/
theorem Sys.round_le {c d : Sys n P σ V C} {a : Action n}
    (before : (comm cfg prog mem main).Reachable c)
    (taken : Sys.step cfg prog c a = some d) : c.round ≤ d.round := by
  rcases Sys.round_step before taken with same | ⟨next, -⟩ <;> omega

/-- **The step that completes a round** leads to the meeting of that round. -/
theorem Meeting.of_step {c d : Sys n P σ V C} {a : Action n}
    (before : (comm cfg prog mem main).Reachable c)
    (taken : Sys.step cfg prog c a = some d) {e : ℕ} (open_ : c.round ≤ e) (complete : e < d.round) :
    Meeting d e := by
  rcases Sys.round_step before taken with same | ⟨next, epochs, first, second, all⟩
  · omega
  · have after := before.step taken
    have still := fun r => (Sys.sampled_of_reachable after r).second _ _ (all.pc r)
    refine ⟨fun r => ?_, fun r => ?_, fun r => (still r).1, all.pending_eq_zero after, complete⟩
    · rw [epochs r]
      omega
    · rcases all.pc r with pc | pc <;> simp [pc, Pc.waiting]

/-- A state in which all ranks wait with an empty stack for their second sum, that sum is zero
and no call is pending, is a meeting. -/
theorem Meeting.of_waiting {d : Sys n P σ V C} (h : (comm cfg prog mem main).Reachable d) {e : ℕ}
    (epoch : ∀ r, (d.rank r).epoch = e) (inside : ∀ r, (d.rank r).pc.waiting = some .second)
    (stack : ∀ r, (d.rank r).stack.isEmpty) (pending : d.pending.card = 0) {r : Fin n}
    (zero : d.allCount r = some 0) : Meeting d e where
  epoch := epoch
  inside := inside
  stack r := List.isEmpty_iff.mp (stack r)
  pending := Multiset.card_eq_zero.mp pending
  complete := epoch r ▸ (Sys.aligned_of_reachable h).rounds_lt (i := r) (inside r) zero

/-- **A round that is complete** has had its meeting, in a run whose steps were allowed as in
the whole run. -/
theorem exists_meeting {ok : Sys n P σ V C → Action n → Prop} {c : Sys n P σ V C} (ranks : 0 < n)
    (h : (comm cfg prog mem main).ReachableBy ok c) {e : ℕ} (complete : e < c.round) :
    ∃ d, (comm cfg prog mem main).ReachableBy ok d ∧ (comm cfg prog mem main).Leads d c ∧
      Meeting d e := by
  induction h with
  | init =>
      have zero := Sys.epoch_eq_round (Machine.Reachable.init (M := comm cfg prog mem main))
        (r := ⟨0, ranks⟩) (by simp [comm, Rank.init, Pc.waiting])
      simp only [comm, Rank.init] at zero complete
      omega
  | @step b a d before allowed taken ih =>
      by_cases old : e < b.round
      · obtain ⟨d', reached, leads, meeting⟩ := ih old
        exact ⟨d', reached, leads.tail ⟨a, taken⟩, meeting⟩
      · exact ⟨d, before.step allowed taken, .refl,
          .of_step before.reachable taken (not_lt.mp old) complete⟩

/-- **The meeting after a meeting**: when the round after a meeting is complete, it has had its
own meeting in between. -/
theorem Meeting.next {c d : Sys n P σ V C} {e : ℕ} (meeting : Meeting d e) (ranks : 0 < n)
    (h : (comm cfg prog mem main).Reachable d) (leads : (comm cfg prog mem main).Leads d c)
    (complete : e + 1 < c.round) :
    ∃ d', (comm cfg prog mem main).Leads d d' ∧ (comm cfg prog mem main).Leads d' c ∧
      Meeting d' (e + 1) := by
  induction leads with
  | refl =>
      have least := (Sys.aligned_of_reachable h).current_le_succ ⟨0, ranks⟩
      have epoch := meeting.epoch ⟨0, ranks⟩
      change d.round ≤ (d.rank ⟨0, ranks⟩).epoch + 1 at least
      omega
  | @tail b c before taken ih =>
      by_cases old : e + 1 < b.round
      · obtain ⟨d', first, second, meeting'⟩ := ih old
        exact ⟨d', first, second.tail taken, meeting'⟩
      · obtain ⟨a, taken⟩ := taken
        exact ⟨c, before.tail ⟨a, taken⟩, .refl,
          .of_step (h.leads before) taken (not_lt.mp old) complete⟩

/-- The epoch of a rank does not decrease along a run. -/
theorem Sys.epoch_le_of_leads {c d : Sys n P σ V C} (leads : (comm cfg prog mem main).Leads d c)
    (r : Fin n) : (d.rank r).epoch ≤ (c.rank r).epoch := by
  induction leads with
  | refl => exact le_rfl
  | @tail b c _ taken ih =>
      obtain ⟨a, taken⟩ := taken
      refine ih.trans ?_
      rcases Sys.step_cases taken with
        ⟨i, flag, t, sent, -, move, rfl⟩ | ⟨i, src, t, stream, -, receive, rfl⟩
      · by_cases hi : r = i
        · subst hi
          simpa using move.epoch_le
        · simp [hi]
      · obtain ⟨listener, queue, eq⟩ := receive.frame r
        simp [eq]

/-- At a meeting every call that has been issued has been executed. -/
theorem Meeting.executed {d : Sys n P σ V C} {e : ℕ} (meeting : Meeting d e)
    (h : (comm cfg prog mem main).Reachable d) : d.issued = d.executed := by
  have nothing : d.unfinished ≤ 0 := meeting.pending ▸ Multiset.le_add_right _ _
  rw [Sys.conservation h, Multiset.le_zero.mp nothing, add_zero]

/-! ## After the meeting -/

/-- A rank that waits for its second sum, when that sum is zero, can only leave the barrier or
throw. -/
theorem Move.leaves {r : Fin n} {w : View n V} {s t : Rank n P σ V C}
    {sent : Option (Fin n × Packet n P)} (move : Move cfg prog r w s t sent)
    (waits : s.pc.waiting = some .second) (stack : s.stack = [])
    (zero : ∀ x, w.allCount = some x → x = 0) :
    (∃ first second, t = { s with pc := .thrown first second }) ∨
      t = { s with pc := .user, epoch := s.epoch + 1 } := by
  obtain ⟨first, second, pc⟩ := Pc.waiting_second waits
  have active : ∀ {ctx rest k}, ¬ Running s ctx rest k := by
    intro ctx rest k run
    cases run with
    | main user _ => rcases pc with pc | pc <;> simp [user] at pc
    | handler busy => simp [stack] at busy
  cases move with
  | throw => exact .inl ⟨_, _, rfl⟩
  | leave => exact .inr rfl
  | retry _ _ seen nonzero => exact absurd (zero _ seen) nonzero
  | update run | asyncSelf run | asyncRemote run | callFlush run => exact (active run).elim
  | barrier pc' | reduce pc' | reduced pc' | kill pc' | joined pc' | sample pc' | pending pc'
  | confirm pc' =>
      rcases pc with pc | pc <;> simp [pc'] at pc
  | _ => simp [*] at stack

/-- A rank that comes back from `barrier` changes nothing else than its epoch and its place. -/
theorem Move.returns {r : Fin n} {w : View n V} {s t : Rank n P σ V C}
    {sent : Option (Fin n × Packet n P)} (move : Move cfg prog r w s t sent)
    (waits : s.pc.waiting = some .second) (stack : s.stack = []) (returns : t.pc = .user) :
    t = { s with pc := .user, epoch := s.epoch + 1 } := by
  obtain ⟨first, second, pc⟩ := Pc.waiting_second waits
  cases move with
  | leave => rfl
  | throw | retry => simp at returns
  | @update ctx rest k k' mem run | @asyncSelf ctx rest k k' payload m run
  | @asyncRemote ctx rest k k' dest payload m frames run | @callFlush ctx rest k k' frame run =>
      cases run with
      | main user => rcases pc with pc | pc <;> simp [user] at pc
      | handler busy => simp [stack] at busy
  | barrier pc' | reduce pc' | reduced pc' | kill pc' | joined pc' | sample pc' | pending pc'
  | confirm pc' => rcases pc with pc | pc <;> simp [pc'] at pc
  | _ => simp [*] at stack

/-- **No rank moves before it leaves**: after a meeting, a rank of that epoch still stands where
it stood at the meeting. -/
theorem Meeting.stays {c d : Sys n P σ V C} {e : ℕ} (meeting : Meeting d e)
    (h : (comm cfg prog mem main).Reachable d) (leads : (comm cfg prog mem main).Leads d c)
    (r : Fin n) :
    e < c.round ∧
      ((c.rank r).epoch = e ∧ (c.rank r).pc.waiting = some .second ∧
          Still (d.rank r) (c.rank r) ∨
        e < (c.rank r).epoch) := by
  induction leads with
  | refl =>
      exact ⟨meeting.complete, .inl ⟨meeting.epoch r, meeting.inside r, rfl, rfl,
        meeting.stack r, rfl⟩⟩
  | @tail b c before taken ih =>
      obtain ⟨a, taken⟩ := taken
      change Sys.step cfg prog b a = some c at taken
      have reached := h.leads before
      obtain ⟨complete, here⟩ := ih
      refine ⟨complete.trans_le (Sys.round_le reached taken), ?_⟩
      rcases Sys.step_cases taken with
        ⟨i, flag, t, sent, -, move, rfl⟩ | ⟨i, src, t, stream, -, receive, rfl⟩
      · by_cases hi : r = i
        · subst hi
          simp only [Function.update_self]
          rcases here with ⟨epoch, waits, still⟩ | gone
          · have zero : ∀ x, b.allCount r = some x → x = 0 := fun x seen =>
              (Sys.aligned_of_reachable reached).result_of_rounds_lt (i := r) waits
                (by change (b.rank r).epoch < b.round; omega) seen
            rcases move.leaves waits still.stack zero with ⟨first, second, rfl⟩ | rfl
            · exact .inl ⟨epoch, rfl, still.code, still.mem, still.stack, still.posts⟩
            · exact .inr (by simp only; omega)
          · exact .inr (gone.trans_le move.epoch_le)
        · simpa [hi] using here
      · obtain ⟨listener, queue, eq⟩ := receive.frame r
        simp only [eq]
        rcases here with ⟨epoch, waits, still⟩ | gone
        · exact .inl ⟨epoch, waits, still.code, still.mem, still.stack, still.posts⟩
        · exact .inr gone

/-- A rank whose main program is about to reduce contributes the value of that command. -/
theorem Move.posts {r : Fin n} {w : View n V} {s t : Rank n P σ V C}
    {sent : Option (Fin n × Packet n P)} (move : Move cfg prog r w s t sent) (pc : s.pc = .user)
    (stack : s.stack = []) {value : V} {k : V → C}
    (cmd : prog.next s.code s.mem = .allReduce value k) :
    t.otherPosts = s.otherPosts ++ [value] := by
  have code : ∀ {ctx rest k'}, Running s ctx rest k' → k' = s.code := by
    intro ctx rest k' run
    cases run with
    | main => rfl
    | handler busy => simp [stack] at busy
  cases move with
  | reduce _ _ cmd' =>
      rw [cmd] at cmd'
      cases cmd'
      rfl
  | update run cmd' | asyncSelf run cmd' | asyncRemote run cmd' =>
      rw [code run, cmd] at cmd'
      cases cmd'
  | callFlush run cmd' =>
      rw [code run, cmd] at cmd'
      rcases cmd' with ⟨_, cmd', -⟩ | ⟨cmd', -⟩ <;> cases cmd'
  | barrier _ _ cmd' | kill _ _ cmd' =>
      rw [cmd] at cmd'
      cases cmd'
  | retry pc' => rcases pc' with ⟨_, pc'⟩ | ⟨_, _, pc'⟩ <;> simp [pc] at pc'
  | reduced pc' | joined pc' | sample pc' | pending pc' | confirm pc' | leave pc' | throw pc' =>
      simp [pc] at pc'
  | _ => simp [*] at stack

/-- **A rank that enters a reduction right behind the barrier** contributes to it the value it
had at the meeting. -/
theorem Meeting.posted {c d : Sys n P σ V C} {e : ℕ} (meeting : Meeting d e)
    (h : (comm cfg prog mem main).Reachable d) {r : Fin n} {value : V} {k : V → C}
    (cmd : prog.next (d.rank r).code (d.rank r).mem = .allReduce value k)
    (leads : (comm cfg prog mem main).Leads d c) :
    Still (d.rank r) (c.rank r) ∧ ((c.rank r).epoch = e ∧ (c.rank r).pc.waiting = some .second ∨
        (c.rank r).pc = .user) ∨
      (d.rank r).otherPosts ++ [value] <+: (c.rank r).otherPosts := by
  induction leads with
  | refl =>
      exact .inl ⟨⟨rfl, rfl, meeting.stack r, rfl⟩, .inl ⟨meeting.epoch r, meeting.inside r⟩⟩
  | @tail b c before taken ih =>
      obtain ⟨a, taken⟩ := taken
      change Sys.step cfg prog b a = some c at taken
      have reached := h.leads before
      have complete := (meeting.stays h before r).1
      rcases Sys.step_cases taken with
        ⟨i, flag, t, sent, -, move, rfl⟩ | ⟨i, src, t, stream, -, receive, rfl⟩
      · by_cases hi : r = i
        · subst hi
          simp only [Function.update_self]
          rcases ih with ⟨still, ⟨epoch, waits⟩ | user⟩ | posted
          · have zero : ∀ x, b.allCount r = some x → x = 0 := fun x seen =>
              (Sys.aligned_of_reachable reached).result_of_rounds_lt (i := r) waits
                (by change (b.rank r).epoch < b.round; omega) seen
            rcases move.leaves waits still.stack zero with ⟨first, second, rfl⟩ | rfl
            · exact .inl ⟨⟨still.code, still.mem, still.stack, still.posts⟩, .inl ⟨epoch, rfl⟩⟩
            · exact .inl ⟨⟨still.code, still.mem, still.stack, still.posts⟩, .inr rfl⟩
          · right
            rw [← still.code, ← still.mem] at cmd
            rw [move.posts user still.stack cmd, still.posts]
          · exact .inr (posted.trans move.otherPosts)
        · simpa [hi] using ih
      · obtain ⟨listener, queue, eq⟩ := receive.frame r
        simp only [eq]
        rcases ih with ⟨⟨code, mem, stack, posts⟩, there⟩ | posted
        · exact .inl ⟨⟨code, mem, stack, posts⟩, there⟩
        · exact .inr posted

/-- **The result of a reduction right behind the barrier** is the combination of the values that
all ranks had at the meeting. -/
theorem Meeting.reduced_eq {c d : Sys n P σ V C} {e : ℕ} (meeting : Meeting d e)
    (h : (comm cfg prog mem main).Reachable d) {value : Fin n → V}
    (cmd : ∀ i, ∃ k, prog.next (d.rank i).code (d.rank i).mem = .allReduce (value i) k)
    {turn : ℕ} (same : ∀ i, (d.rank i).otherPosts.length = turn)
    (leads : (comm cfg prog mem main).Leads d c) {r : Fin n}
    (waits : (c.rank r).otherPosts.length = turn + 1) {result : V}
    (returned : c.reduced prog r = some result) : result = prog.combine value := by
  simp only [Sys.reduced, waits, Nat.add_sub_cancel] at returned
  split at returned
  case isTrue posted =>
    have found : ∀ i, (c.rank i).otherPosts.get ⟨turn, posted i⟩ = value i := by
      intro i
      obtain ⟨k, cmd⟩ := cmd i
      rcases meeting.posted h cmd leads with ⟨still, -⟩ | posts
      · have more := posted i
        rw [still.posts, same i] at more
        exact absurd more (Nat.lt_irrefl _)
      · have at_turn := posts.getElem (i := turn) (by simp [same i])
        rw [List.get_eq_getElem, ← at_turn]
        simp [← same i]
    cases returned
    exact congrArg prog.combine (funext found)
  case isFalse => cases returned

/-! ## Code behind a barrier -/

section Fresh

variable {o : Outline prog} {fresh : C → Prop}

/-- The rank is at fresh code, or in a reduction that fresh code has entered. -/
def Rank.AtFresh (fresh : C → Prop) (s : Rank n P σ V C) : Prop :=
  fresh s.code ∧ (s.pc = .user ∨ ∃ k, s.pc = .reduce k)

/-- **A rank comes to fresh code** by leaving a barrier, and stays with it in a
reduction. -/
theorem Move.arrives (avoids : ∀ cause k mem, o.code cause k → (prog.next k mem).Avoids fresh)
    {r : Fin n} {w : View n V} {s t : Rank n P σ V C} {sent : Option (Fin n × Packet n P)}
    (move : Move cfg prog r w s t sent) (holds : o.Holds s) (h : s.Fresh fresh)
    (idle : ∀ k, s.pc = .reduce k → s.stack = []) (arrives : t.AtFresh fresh) :
    (s.pc.waiting = some .second ∧ w.allCount = some 0 ∧ s.stack = [] ∧
        t = { s with pc := .user, epoch := s.epoch + 1 }) ∨
      s.pc = .user ∧ s.stack = [] ∧ fresh s.code ∧ ∃ value k,
        prog.next s.code s.mem = .allReduce value k ∧
          t = { s with pc := .reduce k, otherPosts := s.otherPosts ++ [value] } := by
  obtain ⟨isFresh, pc⟩ := arrives
  -- with fresh code, the rank has no activations in the main program or in a reduction
  have quiet : fresh s.code → (s.pc = .user ∨ ∃ k, s.pc = .reduce k) → s.stack = [] := by
    rintro isFresh (pc | ⟨k, pc⟩)
    · exact (h.user pc isFresh).1
    · exact idle k pc
  have resumed : ∀ {ctx rest k k'}, Running s ctx rest k → ¬ fresh k' →
      t.pc = s.pc → t.code = (s.resume ctx rest k').code → False := by
    intro ctx rest k k' run stale samePc code
    rw [code] at isFresh
    rw [samePc] at pc
    cases run with
    | main user stack => exact stale isFresh
    | handler stack => simp [quiet isFresh pc] at stack
  cases move with
  | leave pc' stack zero agree => exact .inl ⟨by simp [pc', Pc.waiting], zero, stack, rfl⟩
  | @reduce value k pc' stack cmd =>
      exact .inr ⟨pc', stack, isFresh, value, k, cmd, rfl⟩
  | @update ctx rest k k' mem run cmd =>
      have stale := avoids _ k s.mem (holds.running run)
      rw [cmd] at stale
      exact (resumed run stale (by simp) (by cases ctx <;> rfl)).elim
  | @asyncSelf ctx rest k k' payload m run cmd call =>
      have stale := avoids _ k s.mem (holds.running run)
      rw [cmd] at stale
      exact (resumed run stale (by simp [Rank.call]) (by cases ctx <;> rfl)).elim
  | @asyncRemote ctx rest k k' dest payload m frames run cmd call remote path =>
      have stale := avoids _ k s.mem (holds.running run)
      rw [cmd] at stale
      exact (resumed run stale (by simp [Rank.call]) (by cases ctx <;> rfl)).elim
  | @callFlush ctx rest k k' frame run cmd =>
      have stale := avoids _ k s.mem (holds.running run)
      have stale' : ¬ fresh k' := by
        rcases cmd with ⟨dest, cmd, -⟩ | ⟨cmd, -⟩ <;>
        · rw [cmd] at stale
          exact stale
      exact (resumed run stale' (by simp [Rank.call]) (by cases ctx <;> rfl)).elim
  | reduced pc' stack result => exact (h.reduce _ pc' _ isFresh).elim
  | joined pc' stack stopped => exact (h.join pc' isFresh).elim
  | barrier | kill | sample | pending | confirm | retry | throw => simp at pc
  | _ =>
      have idle := quiet isFresh pc
      simp_all

/-- **Code behind the barrier of a meeting** finds the memory that the rank had at the meeting. -/
theorem Meeting.found {c d : Sys n P σ V C} {e : ℕ} (meeting : Meeting d e)
    (avoids : ∀ cause k mem, o.code cause k → (prog.next k mem).Avoids fresh)
    (codes : ∀ r, o.code none (main r)) (start : ∀ r, ¬ fresh (main r))
    (h : (comm cfg prog mem main).Reachable d) (leads : (comm cfg prog mem main).Leads d c)
    {r : Fin n} (isFresh : fresh (c.rank r).code) (pc : (c.rank r).pc = .user)
    (epoch : (c.rank r).epoch = e + 1) : Still (d.rank r) (c.rank r) := by
  induction leads with
  | refl =>
      obtain ⟨first, second, inside | inside⟩ := Pc.waiting_second (meeting.inside r) <;>
        simp [inside] at pc
  | @tail b c before taken ih =>
      obtain ⟨a, taken⟩ := taken
      change Sys.step cfg prog b a = some c at taken
      have reached := h.leads before
      rcases Sys.step_cases taken with
        ⟨i, flag, t, sent, -, move, rfl⟩ | ⟨i, src, t, stream, -, receive, rfl⟩
      · by_cases hi : r = i
        · subst hi
          simp only [Function.update_self] at isFresh pc epoch ⊢
          have holds := (o.of_reachable codes reached r).1
          have fresh' := freshRank_of_reachable avoids codes start reached r
          have idle := fun k pc => ((inTurn_of_reachable reached).entered r k pc).1
          rcases move.arrives avoids holds fresh' idle ⟨isFresh, .inl pc⟩ with
            ⟨waits, zero, stack, rfl⟩ | ⟨user, stack, isFresh', value, k, cmd, rfl⟩
          · have here : (b.rank r).epoch = e := by simpa using epoch
            obtain ⟨-, -, still⟩ := (((meeting.stays h before) r).2).resolve_right (by omega)
            exact ⟨still.code, still.mem, still.stack, still.posts⟩
          · cases pc
        · simp only [Function.update_of_ne hi] at isFresh pc epoch ⊢
          exact ih isFresh pc epoch
      · obtain ⟨listener, queue, eq⟩ := receive.frame r
        simp only [eq] at isFresh pc epoch ⊢
        obtain ⟨code, mem, stack, posts⟩ := ih isFresh pc epoch
        exact ⟨code, mem, stack, posts⟩

end Fresh

end YGM
