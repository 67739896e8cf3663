import YGM.Comm.Settle
import YGM.Comm.Script

/-!
# Barriers complete

Once all ranks are in a barrier they can all get out of it, whatever has happened before: handlers
with a budget come to an end, and `barrier` then finds that nothing is outstanding
(`barrier_completes`).  Together with `barrier_quiescence` this is what `barrier` is for: it is
left, and not too early.

The way out is the same from every state (`Sys.Held.gathers`).  Ranks that have posted fewer
values than others catch up, which nobody hinders, as their results are complete.  If the sum
they then share closes the round, all leave.  If not, they all sample again; nobody is blocked any
more, so what is in the network is received and executed until nothing is pending, and from
there on the samples add up to zero.
-/

namespace YGM

open scoped BigOperators

variable {n : ℕ} {P σ V C : Type}
variable {cfg : Config} {prog : Program n P σ V C} {mem : Fin n → σ} {main : Fin n → C}
variable {c d : Sys n P σ V C} {e : ℕ}

/-! ## Ranks in one barrier -/

/-- The main program is in `barrier`, and the assertion of `barrier` has not failed. -/
def Pc.Waits : Pc V C → Prop
  | .sample | .test _ | .second .. => True
  | _ => False

instance (pc : Pc V C) : Decidable pc.Waits :=
  match pc with
  | .sample | .test _ | .second .. => .isTrue trivial
  | .user | .reduce _ | .join | .thrown .. => .isFalse fun inside => inside

theorem Pc.Waits.inBarrier {pc : Pc V C} (h : pc.Waits) : pc.inBarrier = true := by
  cases pc <;> first | rfl | exact h.elim

theorem Pc.Waits.not_user {pc : Pc V C} (h : pc.Waits) : pc ≠ .user := by
  rintro rfl
  exact h

theorem Pc.waiting_first {pc : Pc V C} (h : pc.waiting = some .first) :
    ∃ first, pc = .test first := by
  cases pc with
  | test first => exact ⟨first, rfl⟩
  | _ => simp [Pc.waiting] at h

/-- **All ranks are in one barrier**, the one that ends epoch `e`. -/
structure Sys.Gathered (c : Sys n P σ V C) (e : ℕ) : Prop where
  inside : ∀ r, (c.rank r).pc.Waits
  epoch : ∀ r, (c.rank r).epoch = e

/-- **A rank is through with it**: `barrier` has returned, or its assertion has failed. -/
def Rank.Dismissed (s : Rank n P σ V C) (e : ℕ) : Prop :=
  s.pc = .user ∧ s.epoch = e + 1 ∨ ∃ first second, s.pc = .thrown first second

def Sys.Dismissed (c : Sys n P σ V C) (e : ℕ) : Prop :=
  ∀ r, (c.rank r).Dismissed e

theorem Sys.Gathered.of_sameTop (gathered : c.Gathered e)
    (same : ∀ r, (c.rank r).SameTop (d.rank r)) : d.Gathered e :=
  ⟨fun r => (same r).pc ▸ gathered.inside r, fun r => (same r).epoch.trans (gathered.epoch r)⟩

/-- In a step from a state in which no rank runs its main program and nothing is pending,
nothing becomes pending. -/
theorem pending_of_step (h : (comm cfg prog mem main).Reachable c) {a : Action n}
    (taken : Sys.step cfg prog c a = some d) (outside : ∀ r, (c.rank r).pc ≠ .user)
    (none : c.pending = 0) : d.pending = 0 := by
  refine Multiset.eq_zero_of_forall_notMem fun m hm => ?_
  rcases Sys.pending_step h taken hm with old | ⟨r, can⟩
  · simp [none] at old
  · cases can with
    | main src cut epoch pc stack => exact outside r pc
    | handler src cut running epoch =>
        have running := Sys.executing_pending running
        simp [none] at running

theorem Sys.InnerRun.pending (h : (comm cfg prog mem main).Reachable c)
    (run : Sys.InnerRun cfg prog c d) (outside : ∀ r, (c.rank r).pc ≠ .user)
    (none : c.pending = 0) : d.pending = 0 := by
  induction run with
  | refl => exact none
  | @tail x y before inner ih =>
      obtain ⟨a, taken, -⟩ := inner
      have run : Sys.InnerRun cfg prog c x := before
      refine pending_of_step (h.leads run.leads) taken (fun r => ?_) ih
      rw [(run.sameTop r).pc]
      exact outside r

/-- **A schedule of steps above the main programs**, followed to its end. -/
theorem exists_ended (b : Budget prog) (h : (comm cfg prog mem main).Reachable c) :
    ∃ d, Sys.InnerRun cfg prog c d ∧ (∀ x, ¬ Sys.Inner cfg prog d x) ∧ d.cost b ≤ c.cost b := by
  induction c using (InvImage.wf (Sys.cost b) wellFounded_lt).induction with
  | _ c ih =>
      by_cases ended : ∀ x, ¬ Sys.Inner cfg prog c x
      · exact ⟨c, .refl, ended, le_rfl⟩
      · simp only [not_forall, not_not] at ended
        obtain ⟨x, inner⟩ := ended
        have less := inner.cost b h
        obtain ⟨a, taken, -⟩ := id inner
        obtain ⟨d, run, ended, le⟩ := ih x less (h.step taken)
        exact ⟨d, .head inner run, ended, le.trans less.le⟩

/-! ## The states between two steps of `barrier` -/

/-- **All ranks are in the barrier of epoch `e` and nothing is in the network**; nor is anything
pending, if `drained`. -/
structure Sys.Held (cfg : Config) (prog : Program n P σ V C) (mem : Fin n → σ) (main : Fin n → C)
    (e : ℕ) (drained : Prop) (c : Sys n P σ V C) : Prop where
  reachable : (comm cfg prog mem main).Reachable c
  gathered : c.Gathered e
  quiet : c.Quiet
  drained : drained → c.pending = 0

section Steps

variable {drained : Prop}

/-- From a gathered state, the activations and listeners can run to their end, after which the
ranks are held in their barrier. -/
theorem exists_held (b : Budget prog) (alive : ∀ k mem k', prog.next k mem ≠ .kill k')
    (room : 8 ≤ cfg.bufferCapacity) (h : (comm cfg prog mem main).Reachable c)
    (gathered : c.Gathered e) (none : drained → c.pending = 0) :
    ∃ d, (comm cfg prog mem main).Leads c d ∧ d.Held cfg prog mem main e drained ∧
      (∀ r, (c.rank r).SameTop (d.rank r)) ∧ d.cost b ≤ c.cost b := by
  obtain ⟨d, run, ended, le⟩ := exists_ended b h
  have reached := h.leads run.leads
  exact ⟨d, run.leads, ⟨reached, gathered.of_sameTop run.sameTop,
    quiet_of_ended (b.plain alive) room reached ended,
    fun drained => run.pending h (fun r => (gathered.inside r).not_user) (none drained)⟩,
    run.sameTop, le⟩

/-- The main thread of a rank has moved on in `barrier` only: its stack, its buffers and its
listener are as they were. -/
structure Rank.SameBelow (s t : Rank n P σ V C) : Prop where
  stack : t.stack = s.stack
  sendBuffers : t.sendBuffers = s.sendBuffers
  receiveQueue : t.receiveQueue = s.receiveQueue
  listener : t.listener = s.listener

theorem Sys.pending_eq_of_sameBelow {new : Fin n → Rank n P σ V C}
    (below : ∀ r, (c.rank r).SameBelow (new r)) :
    Sys.pending { c with rank := new } = c.pending := by
  simp only [Sys.pending, Sys.unfinished, Sys.executing, Sys.buffered, Sys.inNetwork, Sys.stream,
    Sys.queued, Sys.unparsed, Sys.handed, Rank.executing, Rank.buffered, Rank.queued,
    Rank.unparsed, Rank.handed, (below _).stack, (below _).sendBuffers, (below _).receiveQueue]

/-- A rank posts its counter to the next collective of `barrier`. -/
def Rank.post (s : Rank n P σ V C) (kind : Kind) (pc : Pc V C) : Rank n P σ V C :=
  { s with pc := pc, barrierPosts := s.barrierPosts ++ [(kind, s.localCount)] }

namespace Sys.Held

/-- Ranks that move on in `barrier` stay held there. -/
theorem of_ranks (held : c.Held cfg prog mem main e drained) {new : Fin n → Rank n P σ V C}
    (leads : (comm cfg prog mem main).Leads c { c with rank := new })
    (below : ∀ r, (c.rank r).SameBelow (new r))
    (inside : ∀ r, (new r).pc.Waits ∧ (new r).epoch = e) :
    Sys.Held cfg prog mem main e drained { c with rank := new } where
  reachable := held.reachable.leads leads
  gathered := ⟨fun r => (inside r).1, fun r => (inside r).2⟩
  quiet := ⟨fun r => (below r).stack.trans (held.quiet.stack r), held.quiet.net,
    fun r => (below r).listener.trans (held.quiet.listener r)⟩
  drained := fun h => (pending_eq_of_sameBelow below).trans (held.drained h)

/-- When one rank moves on in `barrier`, all ranks stay held there and the state costs no more. -/
theorem step (held : c.Held cfg prog mem main e drained) {r : Fin n} {flag : Bool}
    {t : Rank n P σ V C}
    (moved : mainStep cfg prog r (c.view prog r flag) (c.rank r) = some (t, none))
    (below : (c.rank r).SameBelow t) (inside : t.pc.Waits) (epoch : t.epoch = (c.rank r).epoch) :
    (comm cfg prog mem main).Leads c { c with rank := Function.update c.rank r t } ∧
      Sys.Held cfg prog mem main e drained { c with rank := Function.update c.rank r t } := by
  have leads : (comm cfg prog mem main).Leads c { c with rank := Function.update c.rank r t } := by
    refine .single ⟨.main r flag, ?_⟩
    show Sys.step cfg prog c (.main r flag) = _
    rw [Sys.step, moved]
    rfl
  refine ⟨leads, held.of_ranks leads (fun i => ?_) fun i => ?_⟩
  · by_cases hi : i = r
    · subst hi
      simpa using below
    · simpa [hi] using ⟨rfl, rfl, rfl, rfl⟩
  · by_cases hi : i = r
    · subst hi
      simpa [inside] using epoch.trans (held.gathered.epoch i)
    · simpa [hi] using ⟨held.gathered.inside i, held.gathered.epoch i⟩

/-- **A rank starts over** when a sum is not zero, and the other ranks stay where they are in
their barrier. -/
theorem retry (b : Budget prog) (alive : ∀ k mem k', prog.next k mem ≠ .kill k')
    (room : 8 ≤ cfg.bufferCapacity) (held : c.Held cfg prog mem main e drained) {r : Fin n}
    (waits : (c.rank r).pc.waiting ≠ none) {sum : ℤ} (seen : c.allCount r = some sum)
    (nonzero : sum ≠ 0) :
    ∃ d, (comm cfg prog mem main).Leads c d ∧ d.Held cfg prog mem main e drained ∧
      (d.rank r).pc = .sample ∧ (d.rank r).barrierPosts = (c.rank r).barrierPosts ∧
      ∀ i, i ≠ r → (c.rank i).SameTop (d.rank i) := by
  set t : Rank n P σ V C := { c.rank r with pc := .sample, stack := [.recv false, .idle] } with ht
  have taken : Sys.step cfg prog c (.main r true)
      = some { c with rank := Function.update c.rank r t } := by
    have moved : mainStep cfg prog r (c.view prog r true) (c.rank r) = some (t, none) := by
      have inside := held.gathered.inside r
      cases pc : (c.rank r).pc <;>
        simp_all [Pc.Waits, Pc.waiting, mainStep, topStep, held.quiet.stack r, Sys.view]
    rw [Sys.step, moved]
    rfl
  have gathered : Sys.Gathered { c with rank := Function.update c.rank r t } e := by
    refine ⟨fun i => ?_, fun i => ?_⟩
    · by_cases hi : i = r
      · subst hi
        simp [ht, Pc.Waits]
      · simpa [hi] using held.gathered.inside i
    · by_cases hi : i = r
      · subst hi
        simpa [ht] using held.gathered.epoch i
      · simpa [hi] using held.gathered.epoch i
  have none : drained → Sys.pending { c with rank := Function.update c.rank r t } = 0 := fun h =>
    pending_of_step held.reachable taken (fun i => (held.gathered.inside i).not_user)
      (held.drained h)
  obtain ⟨d, leads, held', same, -⟩ := exists_held b alive room
    (held.reachable.step (a := .main r true) taken) gathered none
  refine ⟨d, .head ⟨.main r true, taken⟩ leads, held', ?_, ?_, fun i hi => ?_⟩
  · simpa [ht] using (same r).pc
  · simpa [ht] using (same r).barrierPosts
  · simpa [hi] using same i

/-- A rank that is to take its first sample can take and post it, and nothing else changes. -/
theorem sample (held : c.Held cfg prog mem main e drained) {r : Fin n}
    (pc : (c.rank r).pc = .sample) :
    ∃ d, (comm cfg prog mem main).Leads c d ∧ d.Held cfg prog mem main e drained ∧
      (d.rank r).barrierPosts.length = (c.rank r).barrierPosts.length + 1 ∧
      ∀ i, i ≠ r → (c.rank i).SameTop (d.rank i) := by
  have moved : mainStep cfg prog r (c.view prog r true) (c.rank r)
      = some ((c.rank r).post .first (.test (c.rank r).localCount), none) := by
    simp [mainStep, held.quiet.stack r, topStep, pc, Rank.post]
  obtain ⟨leads, held'⟩ := held.step moved ⟨rfl, rfl, rfl, rfl⟩ trivial rfl
  refine ⟨_, leads, held', by simp [Rank.post], fun i hi => ?_⟩
  simpa [hi] using ⟨rfl, rfl, rfl, rfl, rfl⟩

/-- **A rank posts its next value**, once it has the sum before that. -/
theorem advance (b : Budget prog) (alive : ∀ k mem k', prog.next k mem ≠ .kill k')
    (room : 8 ≤ cfg.bufferCapacity) (held : c.Held cfg prog mem main e drained) {r : Fin n}
    (seen : (c.rank r).pc.waiting ≠ none → ∃ sum, c.allCount r = some sum ∧
      ((c.rank r).pc.waiting = some .second → sum ≠ 0)) :
    ∃ d, (comm cfg prog mem main).Leads c d ∧ d.Held cfg prog mem main e drained ∧
      (d.rank r).barrierPosts.length = (c.rank r).barrierPosts.length + 1 ∧
      ∀ i, i ≠ r → (c.rank i).SameTop (d.rank i) := by
  have restart : (c.rank r).pc.waiting ≠ none → ∀ sum, c.allCount r = some sum → sum ≠ 0 →
      ∃ d, (comm cfg prog mem main).Leads c d ∧ d.Held cfg prog mem main e drained ∧
        (d.rank r).barrierPosts.length = (c.rank r).barrierPosts.length + 1 ∧
        ∀ i, i ≠ r → (c.rank i).SameTop (d.rank i) := by
    intro waits sum seen nonzero
    obtain ⟨x, leads, held, pc, posts, same⟩ := held.retry b alive room waits seen nonzero
    obtain ⟨d, leads', held', length, same'⟩ := held.sample pc
    exact ⟨d, leads.trans leads', held', by rw [length, posts],
      fun i hi => (same i hi).trans (same' i hi)⟩
  have inside := held.gathered.inside r
  cases pc : (c.rank r).pc with
  | sample => exact held.sample pc
  | test first =>
      have waits : (c.rank r).pc.waiting ≠ none := by simp [pc, Pc.waiting]
      obtain ⟨sum, seen, -⟩ := seen waits
      by_cases zero : sum = 0
      · subst zero
        have moved : mainStep cfg prog r (c.view prog r true) (c.rank r)
            = some ((c.rank r).post .second (.second first (c.rank r).localCount), none) := by
          simp [mainStep, held.quiet.stack r, topStep, pc, Sys.view, seen, Rank.post]
        obtain ⟨leads, held'⟩ := held.step moved ⟨rfl, rfl, rfl, rfl⟩ trivial rfl
        refine ⟨_, leads, held', by simp [Rank.post], fun i hi => ?_⟩
        simpa [hi] using ⟨rfl, rfl, rfl, rfl, rfl⟩
      · exact restart waits sum seen zero
  | second first second =>
      have waits : (c.rank r).pc.waiting ≠ none := by simp [pc, Pc.waiting]
      obtain ⟨sum, seen, nonzero⟩ := seen waits
      exact restart waits sum seen (nonzero (by simp [pc, Pc.waiting]))
  | user | reduce | join | thrown => simp [pc, Pc.Waits] at inside

/-! ### Catching up -/

/-- **The ranks that are behind catch up**: a held state leads to one in which all ranks have
posted equally often. -/
theorem level (b : Budget prog) (alive : ∀ k mem k', prog.next k mem ≠ .kill k')
    (room : 8 ≤ cfg.bufferCapacity) (held : c.Held cfg prog mem main e drained) :
    ∃ d, (comm cfg prog mem main).Leads c d ∧ d.Held cfg prog mem main e drained ∧
      ∃ length, ∀ r, (d.rank r).barrierPosts.length = length := by
  rcases isEmpty_or_nonempty (Fin n) with empty | some_
  · exact ⟨c, .refl, held, 0, fun r => empty.elim r⟩
  obtain ⟨most, -, hmost⟩ := Finset.exists_max_image Finset.univ
    (fun r => (c.rank r).barrierPosts.length) Finset.univ_nonempty
  refine (Machine.exists_leads_forall (M := comm cfg prog mem main)
    (fun d => d.Held cfg prog mem main e drained ∧
      (∀ r, (d.rank r).barrierPosts.length ≤ (c.rank most).barrierPosts.length) ∧
      (d.rank most).barrierPosts.length = (c.rank most).barrierPosts.length)
    (fun r d => (d.rank r).barrierPosts.length = (c.rank most).barrierPosts.length) ?_
    ⟨held, fun r => hmost r (Finset.mem_univ r), rfl⟩).imp
      fun d h => ⟨h.1, h.2.1.1, _, h.2.2⟩
  rintro d ⟨held, atMost, top⟩ r behind
  have aligned := Sys.aligned_of_reachable held.reachable
  have below := lt_of_le_of_ne (atMost r) behind
  have near : ∀ k, (d.rank most).barrierPosts.length ≤ (d.rank k).barrierPosts.length + 1 :=
    fun k => aligned.length_le k most
  have least : ∀ k, (d.rank r).barrierPosts.length ≤ (d.rank k).barrierPosts.length := by
    intro k
    have := near k
    omega
  obtain ⟨x, leads, held', length, same⟩ := held.advance b alive room (r := r) fun waits => by
    obtain ⟨sum, seen⟩ := aligned.exists_result waits least
    refine ⟨sum, seen, ?_⟩
    rintro second rfl
    have ahead : (d.party r).posts.length ≤ (d.party most).handled := by
      by_cases free : (d.party most).waiting = none
      · rw [Party.handled, if_pos free]
        exact atMost r |>.trans top.ge
      · have length := aligned.length_of_waiting free
        change (d.rank most).barrierPosts.length = _ at length
        show (d.rank r).barrierPosts.length ≤ _
        omega
    have rounds := aligned.rounds_lt_of_handled second seen ahead
    change (d.rank r).epoch < (d.rank most).epoch at rounds
    rw [held.gathered.epoch r, held.gathered.epoch most] at rounds
    exact lt_irrefl e rounds
  have kept : ∀ i, i ≠ r → (x.rank i).barrierPosts.length = (d.rank i).barrierPosts.length :=
    fun i hi => congrArg _ (same i hi).barrierPosts
  have := near r
  refine ⟨x, leads, ⟨held', fun i => ?_, ?_⟩, by omega, fun i hi => ?_⟩
  · by_cases hi : i = r
    · subst hi
      omega
    · rw [kept i hi]
      exact atMost i
  · rw [kept most (by rintro rfl; omega), top]
  · rw [kept i (by rintro rfl; exact behind hi), hi]

/-! ### All together -/

/-- **All ranks post** their counters together, if each of them can whichever of the others
have. -/
theorem post (held : c.Held cfg prog mem main e drained) {length : ℕ}
    (level : ∀ r, (c.rank r).barrierPosts.length = length) (kind : Kind) (pc : Fin n → Pc V C)
    (waits : ∀ r, (pc r).Waits)
    (steps : ∀ d : Sys n P σ V C,
      (∀ i, d.rank i = c.rank i ∨ d.rank i = (c.rank i).post kind (pc i)) → ∀ r,
        d.rank r = c.rank r → ∃ flag, mainStep cfg prog r (d.view prog r flag) (c.rank r)
          = some ((c.rank r).post kind (pc r), none)) :
    ∃ d, (comm cfg prog mem main).Leads c d ∧ d.Held cfg prog mem main e drained ∧
      (∀ r, d.rank r = (c.rank r).post kind (pc r)) ∧
      ∀ r, d.allCount r = some (∑ i, (c.rank i).localCount) := by
  have leads : (comm cfg prog mem main).Leads c
      { c with rank := fun r => (c.rank r).post kind (pc r) } := leads_all _ steps
  refine ⟨_, leads, held.of_ranks leads (fun r => ⟨rfl, rfl, rfl, rfl⟩)
    fun r => ⟨waits r, held.gathered.epoch r⟩, fun r => rfl, fun r => ?_⟩
  have last : ∀ i, ((c.rank i).post kind (pc i)).barrierPosts
      = (c.rank i).barrierPosts ++ [(kind, (c.rank i).localCount)] := fun i => rfl
  exact result_of_last last (fun i k => (level i).trans (level k).symm) r

/-- All ranks together can take and post their first samples, whose sum is then complete. -/
theorem samples (held : c.Held cfg prog mem main e drained) {length : ℕ}
    (level : ∀ r, (c.rank r).barrierPosts.length = length)
    (pc : ∀ r, (c.rank r).pc = .sample) :
    ∃ d, (comm cfg prog mem main).Leads c d ∧ d.Held cfg prog mem main e drained ∧
      (∀ r, d.rank r = (c.rank r).post .first (.test (c.rank r).localCount)) ∧
      ∀ r, d.allCount r = some (∑ i, (c.rank i).localCount) := by
  refine held.post level .first _ (fun _ => trivial) fun d _ r _ => ⟨true, ?_⟩
  simp [mainStep, held.quiet.stack r, topStep, pc r, Rank.post]

/-- All ranks together can take and post their second samples, after a first sum of zero. -/
theorem confirms (held : c.Held cfg prog mem main e drained) {length : ℕ}
    (level : ∀ r, (c.rank r).barrierPosts.length = length) {first : Fin n → ℤ}
    (pc : ∀ r, (c.rank r).pc = .test (first r)) (zero : ∀ r, c.allCount r = some 0) :
    ∃ d, (comm cfg prog mem main).Leads c d ∧ d.Held cfg prog mem main e drained ∧
      (∀ r, d.rank r = (c.rank r).post .second (.second (first r) (c.rank r).localCount)) ∧
      ∀ r, d.allCount r = some (∑ i, (c.rank i).localCount) := by
  refine held.post level .second _ (fun _ => trivial) fun d ranks r still => ⟨true, ?_⟩
  have grown : ∀ i, (c.rank i).barrierPosts <+: (d.rank i).barrierPosts := by
    intro i
    rcases ranks i with same | moved
    · rw [same]
    · rw [moved]
      exact List.prefix_append _ _
  have seen : d.allCount r = some 0 :=
    result_of_prefix grown (congrArg Rank.barrierPosts still) (zero r)
  simp [mainStep, held.quiet.stack r, topStep, pc r, Sys.view, seen, Rank.post]

/-- **A round that ends with zero is left**: all ranks can go on from their second sum and are
dismissed. -/
theorem dismiss (held : c.Held cfg prog mem main e drained)
    (pc : ∀ r, (c.rank r).pc.waiting = some .second) (zero : ∀ r, c.allCount r = some 0) :
    ∃ d, (comm cfg prog mem main).Leads c d ∧ d.Dismissed e := by
  have second : ∀ r, ∃ a b, (c.rank r).pc = .second a b := by
    intro r
    obtain ⟨a, b, here | thrown⟩ := Pc.waiting_second (pc r)
    · exact ⟨a, b, here⟩
    · have inside := held.gathered.inside r
      simp [thrown, Pc.Waits] at inside
  choose a b pc using second
  refine ⟨_, leads_all (fun r => if a r = b r
    then { c.rank r with pc := .user, epoch := (c.rank r).epoch + 1 }
    else { c.rank r with pc := .thrown (a r) (b r) }) fun d ranks r _ => ⟨true, ?_⟩, fun r => ?_⟩
  · have seen : d.allCount r = some 0 := by
      rw [← zero r]
      refine congrArg (fun posts => result posts r) (funext fun i => ?_)
      rcases ranks i with same | moved
      · rw [same]
      · rw [moved]
        split <;> rfl
    simp only [mainStep, held.quiet.stack r, topStep, pc r, Sys.view, seen, ↓reduceIte]
    split <;> rfl
  · by_cases agree : a r = b r
    · left
      simp [agree, held.gathered.epoch r]
    · right
      exact ⟨a r, b r, by simp [agree]⟩

/-- **After a sum that is not zero all sample again.** -/
theorem restart (b : Budget prog) (alive : ∀ k mem k', prog.next k mem ≠ .kill k')
    (room : 8 ≤ cfg.bufferCapacity) (held : c.Held cfg prog mem main e drained)
    (again : ∀ r, (c.rank r).pc.waiting ≠ none → ∃ sum, c.allCount r = some sum ∧ sum ≠ 0) :
    ∃ d, (comm cfg prog mem main).Leads c d ∧ d.Held cfg prog mem main e drained ∧
      (∀ r, (d.rank r).pc = .sample) ∧
      ∀ r, (d.rank r).barrierPosts = (c.rank r).barrierPosts := by
  refine (Machine.exists_leads_forall (M := comm cfg prog mem main)
    (fun d => d.Held cfg prog mem main e drained ∧
      (∀ r, (d.rank r).barrierPosts = (c.rank r).barrierPosts) ∧
      ∀ r, (d.rank r).pc = .sample ∨ (d.rank r).pc = (c.rank r).pc)
    (fun r d => (d.rank r).pc = .sample) ?_ ⟨held, fun _ => rfl, fun _ => .inr rfl⟩).imp
      fun d h => ⟨h.1, h.2.1.1, h.2.2, h.2.1.2.1⟩
  rintro d ⟨held, posts, pcs⟩ r notYet
  have waits : (d.rank r).pc.waiting ≠ none := by
    have inside := held.gathered.inside r
    cases pc : (d.rank r).pc <;> simp_all [Pc.Waits, Pc.waiting]
  obtain ⟨sum, seen, nonzero⟩ := again r ((pcs r).resolve_left notYet ▸ waits)
  have seen' : d.allCount r = some sum := by
    rw [← seen]
    exact congrArg (fun posts => result posts r) (funext posts)
  obtain ⟨x, leads, held', pc, same, others⟩ := held.retry b alive room waits seen' nonzero
  refine ⟨x, leads, ⟨held', fun i => ?_, fun i => ?_⟩, pc, fun i before => ?_⟩
  · by_cases hi : i = r
    · rw [hi, same, posts]
    · rw [(others i hi).barrierPosts, posts]
  · by_cases hi : i = r
    · exact .inl (hi ▸ pc)
    · rw [(others i hi).pc]
      exact pcs i
  · rw [(others i (by rintro rfl; exact notYet before)).pc]
    exact before

/-- **A collective with a result.**  All ranks leave, or all are to sample again. -/
def Resolves (cfg : Config) (prog : Program n P σ V C) (mem : Fin n → σ) (main : Fin n → C) (e : ℕ)
    (drained : Prop) (c : Sys n P σ V C) : Prop :=
  ∃ d, (comm cfg prog mem main).Leads c d ∧ (d.Dismissed e ∨
    d.Held cfg prog mem main e drained ∧ (∀ r, (d.rank r).pc = .sample) ∧
      ∃ length, ∀ r, (d.rank r).barrierPosts.length = length)

/-- When all ranks have posted equally often, they all see the same sum. -/
theorem allCount_eq {length : ℕ} (level : ∀ r, (c.rank r).barrierPosts.length = length)
    (r i : Fin n) : c.allCount r = c.allCount i :=
  result_congr ((level r).trans (level i).symm)

theorem exists_allCount (held : c.Held cfg prog mem main e drained) {length : ℕ}
    (level : ∀ r, (c.rank r).barrierPosts.length = length) {r : Fin n}
    (waits : (c.rank r).pc.waiting ≠ none) : ∃ sum, c.allCount r = some sum :=
  (Sys.aligned_of_reachable held.reachable).exists_result waits fun i =>
    ((level r).trans (level i).symm).le

theorem resolves_of_ne_zero (b : Budget prog) (alive : ∀ k mem k', prog.next k mem ≠ .kill k')
    (room : 8 ≤ cfg.bufferCapacity) (held : c.Held cfg prog mem main e drained) {length : ℕ}
    (level : ∀ r, (c.rank r).barrierPosts.length = length) {r : Fin n} {sum : ℤ}
    (seen : c.allCount r = some sum) (nonzero : sum ≠ 0) :
    Resolves cfg prog mem main e drained c := by
  obtain ⟨d, leads, held, pc, posts⟩ := held.restart b alive room fun i _ =>
    ⟨sum, (allCount_eq level i r).trans seen, nonzero⟩
  exact ⟨d, leads, .inr ⟨held, pc, length, fun i => by rw [posts, level]⟩⟩

/-- From a state in which all ranks have posted equally often and one waits for a second sum,
all leave or all are to sample again. -/
theorem resolves_of_second (b : Budget prog) (alive : ∀ k mem k', prog.next k mem ≠ .kill k')
    (room : 8 ≤ cfg.bufferCapacity) (held : c.Held cfg prog mem main e drained) {length : ℕ}
    (level : ∀ r, (c.rank r).barrierPosts.length = length) {r : Fin n}
    (waits : (c.rank r).pc.waiting = some .second) : Resolves cfg prog mem main e drained c := by
  have aligned := Sys.aligned_of_reachable held.reachable
  obtain ⟨sum, seen⟩ := held.exists_allCount level (r := r) (by simp [waits])
  by_cases zero : sum = 0
  · subst zero
    have all : ∀ i, (c.rank i).pc.waiting = some .second := by
      intro i
      cases waits' : (c.rank i).pc.waiting with
      | some kind => rw [← aligned.waiting_eq waits waits' ((level r).trans (level i).symm)]
      | none =>
          -- it would be in the barrier after this one
          have ahead : (c.party r).posts.length ≤ (c.party i).handled := by
            rw [Party.handled, if_pos (show (c.party i).waiting = none from waits')]
            exact ((level r).trans (level i).symm).le
          have rounds := aligned.rounds_lt_of_handled waits seen ahead
          change (c.rank r).epoch < (c.rank i).epoch at rounds
          rw [held.gathered.epoch r, held.gathered.epoch i] at rounds
          exact absurd rounds (lt_irrefl e)
    obtain ⟨d, leads, left⟩ := held.dismiss all fun i => (allCount_eq level i r).trans seen
    exact ⟨d, leads, .inl left⟩
  · exact held.resolves_of_ne_zero b alive room level seen zero

/-- From a state in which all ranks have posted equally often and one waits for a first sum, all
leave or all are to sample again. -/
theorem resolves_of_first (b : Budget prog) (alive : ∀ k mem k', prog.next k mem ≠ .kill k')
    (room : 8 ≤ cfg.bufferCapacity) (held : c.Held cfg prog mem main e drained) {length : ℕ}
    (level : ∀ r, (c.rank r).barrierPosts.length = length) {r : Fin n}
    (waits : (c.rank r).pc.waiting = some .first) : Resolves cfg prog mem main e drained c := by
  have aligned := Sys.aligned_of_reachable held.reachable
  obtain ⟨sum, seen⟩ := held.exists_allCount level (r := r) (by simp [waits])
  by_cases zero : sum = 0
  · subst zero
    have test : ∀ i, ∃ first, (c.rank i).pc = .test first := fun i =>
      Pc.waiting_first (aligned.waiting_of_confirmed waits seen ((level r).trans (level i).symm))
    choose first pc using test
    obtain ⟨x, leads, held, rank, -⟩ := held.confirms level pc fun i =>
      (allCount_eq level i r).trans seen
    have level : ∀ i, (x.rank i).barrierPosts.length = length + 1 := by
      intro i
      rw [rank, Rank.post, List.length_append, level]
      rfl
    obtain ⟨d, leads', resolved⟩ := held.resolves_of_second b alive room level (r := r) (by
      rw [rank]
      rfl)
    exact ⟨d, leads.trans leads', resolved⟩
  · exact held.resolves_of_ne_zero b alive room level seen zero

/-- **From any held state all leave or all are to sample again.** -/
theorem resolves (b : Budget prog) (alive : ∀ k mem k', prog.next k mem ≠ .kill k')
    (room : 8 ≤ cfg.bufferCapacity) (held : c.Held cfg prog mem main e drained) :
    Resolves cfg prog mem main e drained c := by
  obtain ⟨x, leads, held, length, level⟩ := held.level b alive room
  suffices Resolves cfg prog mem main e drained x by
    obtain ⟨d, leads', resolved⟩ := this
    exact ⟨d, leads.trans leads', resolved⟩
  by_cases some_ : ∃ r, (x.rank r).pc.waiting ≠ none
  · obtain ⟨r, waits⟩ := some_
    cases kind : (x.rank r).pc.waiting with
    | none => exact absurd kind waits
    | some kind' =>
        cases kind' with
        | first => exact held.resolves_of_first b alive room level kind
        | second => exact held.resolves_of_second b alive room level kind
  · simp only [not_exists, not_not] at some_
    refine ⟨x, .refl, .inr ⟨held, fun r => ?_, length, level⟩⟩
    have inside := held.gathered.inside r
    have free := some_ r
    cases pc : (x.rank r).pc <;> simp_all [Pc.Waits, Pc.waiting]

/-! ### Emptying the receive queues -/

/-- **A rank that tests takes a buffer from its receive queue**, if there is one, and the state
becomes cheaper. -/
theorem pop (b : Budget prog) (alive : ∀ k mem k', prog.next k mem ≠ .kill k')
    (room : 8 ≤ cfg.bufferCapacity) (held : c.Held cfg prog mem main e False) {r : Fin n}
    {first : ℤ} (pc : (c.rank r).pc = .test first) (queue : (c.rank r).receiveQueue ≠ []) :
    ∃ d, (comm cfg prog mem main).Leads c d ∧ d.Held cfg prog mem main e False ∧
      (∀ i, (c.rank i).SameTop (d.rank i)) ∧ d.cost b < c.cost b := by
  obtain ⟨⟨msgs, src⟩, queue', queue⟩ := List.exists_cons_of_ne_nil queue
  set polled : Rank n P σ V C := { c.rank r with stack := [.recv false, .idle] } with hpolled
  set t : Rank n P σ V C := { c.rank r with
    receiveQueue := queue'
    stack := [.parse src msgs, .idle] } with ht
  have polls : Sys.step cfg prog c (.main r false)
      = some { c with rank := Function.update c.rank r polled } := by
    have moved : mainStep cfg prog r (c.view prog r false) (c.rank r) = some (polled, none) := by
      simp only [mainStep, held.quiet.stack r, topStep, pc]
      split <;> simp [Sys.view, hpolled, pc]
    rw [Sys.step, moved]
    rfl
  have takes : Sys.step cfg prog { c with rank := Function.update c.rank r polled } (.main r true)
      = some { c with rank := Function.update c.rank r t } := by
    simp [Sys.step, mainStep, frameStep, hpolled, queue, Sys.send, ht]
  have leads : (comm cfg prog mem main).Leads c { c with rank := Function.update c.rank r t } :=
    .head ⟨.main r false, polls⟩ (.single ⟨.main r true, takes⟩)
  have same : ∀ i, (c.rank i).SameTop (Function.update c.rank r t i) := by
    intro i
    by_cases hi : i = r
    · subst hi
      simpa [ht] using ⟨rfl, rfl, rfl, rfl, rfl⟩
    · simpa [hi] using ⟨rfl, rfl, rfl, rfl, rfl⟩
  have less : t.work b < (c.rank r).work b := by
    simp only [Rank.work, Rank.load, Rank.places, ht, held.quiet.stack r, queue,
      Prod.Lex.toLex_lt_toLex, List.map_cons, List.map_nil, List.sum_cons, List.sum_nil,
      Frame.load, Frame.places]
    omega
  have none : False → Sys.pending { c with rank := Function.update c.rank r t } = 0 := False.elim
  obtain ⟨d, leads', held', same', le⟩ := exists_held b alive room (held.reachable.leads leads)
    (held.gathered.of_sameTop same) none
  refine ⟨d, leads.trans leads', held', fun i => (same i).trans (same' i), le.trans_lt ?_⟩
  refine Sys.cost_lt_of_work (lt_of_add_lt_add_right (a := (c.rank r).work b) ?_)
  calc _ = c.work b + t.work b := by
          rw [← add_zero (t.work b)]
          exact Sys.work_main b r t .none
    _ < _ := add_lt_add_right less _

/-- **While all ranks test, whatever is pending is executed**: a held state leads to one in
which nothing is pending. -/
theorem drain (b : Budget prog) (alive : ∀ k mem k', prog.next k mem ≠ .kill k')
    (room : 8 ≤ cfg.bufferCapacity) (held : c.Held cfg prog mem main e False)
    (pc : ∀ r, ∃ first, (c.rank r).pc = .test first) :
    ∃ d, (comm cfg prog mem main).Leads c d ∧ d.Held cfg prog mem main e True := by
  refine (Machine.exists_leads_of_variant (M := comm cfg prog mem main) (Sys.cost b)
    (fun d => d.Held cfg prog mem main e False ∧ ∀ r, ∃ first, (d.rank r).pc = .test first)
    (fun d => d.pending = 0) ?_ ⟨held, pc⟩).imp
      fun d h => ⟨h.1, { h.2.1.1 with drained := fun _ => h.2.2 }⟩
  rintro d ⟨held, pc⟩ outstanding
  obtain ⟨r, queue⟩ : ∃ r, (d.rank r).receiveQueue ≠ [] := by
    by_contra empty
    simp only [not_exists, not_not] at empty
    refine outstanding ?_
    have buffers : ∀ r i, (d.rank r).sendBuffers i = [] := fun r =>
      buffers_of_idle held.reachable (held.gathered.inside r).inBarrier (held.quiet.stack r)
    rw [held.quiet.pending]
    simp [Sys.buffered, Sys.queued, Rank.buffered, Rank.queued, buffers, empty]
  obtain ⟨first, test⟩ := pc r
  obtain ⟨x, leads, held', same, less⟩ := held.pop b alive room test queue
  refine ⟨x, leads, ⟨held', fun i => ?_⟩, less⟩
  rw [(same i).pc]
  exact pc i

/-- **Once nothing is pending all leave**: a held state without pending calls leads to one in
which all ranks are dismissed. -/
theorem dismissed_of_drained (b : Budget prog) (alive : ∀ k mem k', prog.next k mem ≠ .kill k')
    (room : 8 ≤ cfg.bufferCapacity) (held : c.Held cfg prog mem main e True) :
    ∃ d, (comm cfg prog mem main).Leads c d ∧ d.Dismissed e := by
  obtain ⟨x, leads, left | ⟨held, pc, length, level⟩⟩ := held.resolves b alive room
  · exact ⟨x, leads, left⟩
  -- a first sum of zero
  obtain ⟨y, leads', held, rank, first⟩ := held.samples level pc
  have level : ∀ i, (y.rank i).barrierPosts.length = length + 1 := by
    intro i
    rw [rank, Rank.post, List.length_append, level]
    rfl
  have balanced : ∑ i, (y.rank i).localCount = 0 := by
    have none : y.unfinished + y.handed = 0 := held.drained trivial
    rw [Sys.sum_localCount held.reachable, none]
    rfl
  -- the counters do not change any more, so a second one
  obtain ⟨z, leads'', held, rank', second⟩ := held.confirms level
    (fun i => congrArg Rank.pc (rank i)) fun i => by
      rw [first, ← balanced]
      exact congrArg some (Finset.sum_congr rfl fun k _ => by rw [rank]; rfl)
  obtain ⟨d, ends, left⟩ := held.dismiss (fun i => by rw [rank']; rfl) fun i => by
    rw [second, balanced]
  exact ⟨d, (leads.trans leads').trans (leads''.trans ends), left⟩

end Sys.Held

end Steps

/-- **Every barrier can be completed.**  Whatever state ranks are in that have all entered the same
barrier, there is a way on that takes all of them out of it. -/
theorem barrier_completes (b : Budget prog) (alive : ∀ k mem k', prog.next k mem ≠ .kill k')
    (room : 8 ≤ cfg.bufferCapacity) (h : (comm cfg prog mem main).Reachable c)
    (gathered : c.Gathered e) :
    ∃ d, (comm cfg prog mem main).Leads c d ∧ d.Dismissed e := by
  have none : False → c.pending = 0 := False.elim
  obtain ⟨x, leads, held, -⟩ := exists_held b alive room h gathered none
  obtain ⟨y, leads', left | ⟨held, pc, length, level⟩⟩ := held.resolves b alive room
  · exact ⟨y, leads.trans leads', left⟩
  obtain ⟨z, leads'', held, rank, -⟩ := held.samples level pc
  obtain ⟨u, drains, held⟩ := held.drain b alive room fun r => ⟨_, congrArg Rank.pc (rank r)⟩
  obtain ⟨d, ends, left⟩ := held.dismissed_of_drained b alive room
  exact ⟨d, (leads.trans leads').trans (leads''.trans (drains.trans ends)), left⟩

/-- In `echoing` both ranks are in the barrier while a call goes back and forth, and the barrier
can be completed from there. -/
theorem barrier_completes_echoing :
    echoing.Gathered 0 ∧ ∃ d, (comm ⟨16, true⟩ (echo 2) (fun _ => ())
      ![[some (1, 3), none], [none]]).Leads echoing d ∧ d.Dismissed 0 := by
  have alive : ∀ k mem k', (echo 2).next k mem ≠ .kill k' := by
    rintro (_ | ⟨_ | _, _⟩) mem k' <;> simp [echo]
  have gathered : echoing.Gathered 0 := ⟨by decide +kernel, by decide +kernel⟩
  exact ⟨gathered, barrier_completes (echoBudget 2) alive (by decide)
    (Machine.ReachableBy.init.drive _) gathered⟩

end YGM
