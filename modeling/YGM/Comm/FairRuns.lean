import Mathlib.Algebra.Order.BigOperators.Group.List
import YGM.Library.Fairness
import YGM.Comm.Liveness
import YGM.Comm.Meeting

/-!
# Barriers end

In a fair run every rank that enters a barrier gets out of it, if all ranks enter it
(`barrier_ends`).  A run is fair (`Fair`) if no thread that could move is passed over for ever, and
if `MPI_Test`, called again and again on a reduction that is complete, does report that some time.
That the any-source receives of a listener are fair to its sources is not assumed.

While all ranks are in the barrier, the work of the calls that are not finished never grows, and so
from some step on nothing is spent any more (`Turning`).  From there on no message is received;
so, the listeners being fair, there is none; so no main thread is held up in a send, and all get
back to `barrier` itself again and again.  There they post one value after the other, as the rank
that has posted least can always go on.  On the way they start over, which takes
everything out of their receive queues.  So nothing is pending, the counters stand still and add up
to zero, and every second collective closes a round: a contradiction.
-/

namespace YGM

open scoped BigOperators

variable {n : ℕ} {P σ V C : Type}
variable {cfg : Config} {prog : Program n P σ V C} {mem : Fin n → σ} {main : Fin n → C}
variable {c d : Sys n P σ V C} {e : ℕ}

/-! ## Fair runs -/

section Fair

variable {S : Type} {M : Machine S (Action n)} (sys : S → Sys n P σ V C) (ρ : M.Run)

/-- In its `i`-th step the run calls `MPI_Test` on rank `r` for a reduction that is complete. -/
def Tests (r : Fin n) (i : ℕ) : Prop :=
  (∃ flag, ρ.label i = some (.main r flag)) ∧ ((sys (ρ.state i)).rank r).stack = [] ∧
    (∃ first, ((sys (ρ.state i)).rank r).pc = .test first) ∧ (sys (ρ.state i)).allCount r ≠ none

/-- **A fair run** of the communicator, or of a system of which it is a part. -/
structure Fair : Prop where
  /-- No main thread can move forever from some step on without ever moving. -/
  main : ∀ r, ρ.Just fun a => ∃ flag, a = .main r flag
  /-- No listener can receive forever from some step on without ever receiving, though it may
  receive from others than those who wait longest. -/
  listener : ∀ r, ρ.Just fun a => ∃ src, a = .listen r src
  /-- A reduction that is complete is found complete. -/
  test : ∀ r, (∀ i, ∃ j ≥ i, Tests sys ρ r j) →
    ∀ i, ∃ j ≥ i, Tests sys ρ r j ∧ ρ.label j = some (.main r true)

end Fair

/-! ## Steps that spend nothing -/

/-- **A step of `barrier` itself** between two activations, as long as it neither returns nor
throws. -/
inductive Rank.Goes (w : View n V) (s : Rank n P σ V C) : Rank n P σ V C → Prop
  | sample (pc : s.pc = .sample) : Goes w s (s.post .first (.test s.localCount))
  | poll {first : ℤ} (pc : s.pc = .test first) (notYet : w.allCount = none ∨ w.testFlag = false) :
      Goes w s { s with stack := [.recv false, .idle] }
  | confirm {first : ℤ} (pc : s.pc = .test first) (zero : w.allCount = some 0) :
      Goes w s (s.post .second (.second first s.localCount))
  | retry {sum : ℤ} (waits : s.pc.waiting ≠ none) (seen : w.allCount = some sum)
      (nonzero : sum ≠ 0) :
      Goes w s { s with pc := .sample, stack := [.recv false, .idle] }

theorem goes_of_mainStep {r : Fin n} {w : View n V} {s t : Rank n P σ V C}
    {sent : Option (Fin n × Packet n P)} (idle : s.stack = []) (waits : s.pc.Waits)
    (taken : mainStep cfg prog r w s = some (t, sent)) (after : t.pc.Waits) :
    sent = none ∧ s.Goes w t := by
  have top : topStep cfg prog r w s = some (t, sent) := by
    simpa only [mainStep, idle] using taken
  have restart : s.pc.waiting ≠ none → ∀ sum, w.allCount = some sum → sum ≠ 0 →
      some ({ s with pc := .sample, stack := [.recv false, .idle] }, none) = some (t, sent) →
      sent = none ∧ s.Goes w t := by
    rintro waiting sum seen nonzero ⟨⟩
    exact ⟨rfl, .retry waiting seen nonzero⟩
  unfold topStep at top
  split at top
  case h_1 user => simp [user, Pc.Waits] at waits
  case h_2 pc =>
    cases top
    exact ⟨rfl, .sample pc⟩
  case h_3 first pc =>
    split at top
    case h_1 missing =>
      cases top
      exact ⟨rfl, .poll pc (.inl missing)⟩
    case h_2 sum seen =>
      split_ifs at top with unset zero
      · cases top
        exact ⟨rfl, .poll pc (.inr unset)⟩
      · cases top
        exact ⟨rfl, .confirm pc (zero ▸ seen)⟩
      · exact restart (by simp [pc, Pc.waiting]) sum seen zero top
  case h_4 first second pc =>
    split at top
    case h_1 => cases top
    case h_2 sum seen =>
      split_ifs at top with zero agree
      · cases top
        exact after.elim
      · cases top
        exact after.elim
      · exact restart (by simp [pc, Pc.waiting]) sum seen zero top
  case h_5 k pc => simp [pc, Pc.Waits] at waits
  case h_6 pc => simp [pc, Pc.Waits] at waits
  case h_7 => cases top

theorem Rank.Goes.not_user {w : View n V} {s t : Rank n P σ V C} (goes : s.Goes w t) :
    s.pc ≠ .user := by
  cases goes with
  | sample pc | poll pc | confirm pc => simp [pc]
  | retry waits =>
      intro user
      simp [user, Pc.waiting] at waits

/-- The part of a rank that stays the same while nothing is spent: the calls it holds, its
counters and its work. -/
structure Rank.Kept (b : Budget prog) (s t : Rank n P σ V C) : Prop where
  sendBuffers : t.sendBuffers = s.sendBuffers
  receiveQueue : t.receiveQueue = s.receiveQueue
  listener : t.listener = s.listener
  localCount : t.localCount = s.localCount
  work : t.work b = s.work b

/-- The number of collectives that a rank can post, from its place in `barrier`, before it has
to start over. -/
def Pc.postsAhead : Pc V C → ℕ
  | .sample => 2
  | .test _ => 1
  | _ => 0

section Ranks

variable {b : Budget prog} {r : Fin n} {w : View n V} {s t u : Rank n P σ V C}

theorem Rank.Kept.trans (h : s.Kept b t) (h' : t.Kept b u) : s.Kept b u :=
  ⟨h'.sendBuffers.trans h.sendBuffers, h'.receiveQueue.trans h.receiveQueue,
    h'.listener.trans h.listener, h'.localCount.trans h.localCount, h'.work.trans h.work⟩

theorem Rank.Turns.kept (turns : s.Turns b t) : s.Kept b t := by
  have work := turns.work
  rw [turns.same] at work ⊢
  exact ⟨rfl, rfl, rfl, rfl, work⟩

theorem Rank.Goes.kept (idle : s.stack = []) (goes : s.Goes w t) : s.Kept b t := by
  cases goes with
  | sample | confirm => exact ⟨rfl, rfl, rfl, rfl, rfl⟩
  | poll | retry =>
      refine ⟨rfl, rfl, rfl, rfl, ?_⟩
      simp [Rank.work, Rank.load, Rank.places, idle, Frame.load, Frame.places]

end Ranks

/-- **A step that spends nothing**: a rank that waits in a barrier goes on there, or an
activation turns, or nothing moves. -/
inductive Sys.Turn (cfg : Config) (prog : Program n P σ V C) (b : Budget prog)
    (c : Sys n P σ V C) : Option (Action n) → Sys n P σ V C → Prop
  | rest : Turn cfg prog b c none c
  /-- An activation returns, or is replaced by others. -/
  | inner {r : Fin n} {flag : Bool} {t : Rank n P σ V C} (busy : (c.rank r).stack ≠ [])
      (taken : mainStep cfg prog r (c.view prog r flag) (c.rank r) = some (t, none))
      (turns : (c.rank r).Turns b t) :
      Turn cfg prog b c (some (.main r flag)) { c with rank := Function.update c.rank r t }
  /-- A rank without activations takes a step of `barrier` itself. -/
  | top {r : Fin n} {flag : Bool} {t : Rank n P σ V C} (idle : (c.rank r).stack = [])
      (goes : (c.rank r).Goes (c.view prog r flag) t) :
      Turn cfg prog b c (some (.main r flag)) { c with rank := Function.update c.rank r t }

namespace Sys

theorem turn_of_step (b : Budget prog) (h : (comm cfg prog mem main).Reachable c) {a : Action n}
    (taken : Sys.step cfg prog c a = some d)
    (inside : ∀ r flag, a = .main r flag → (c.rank r).stack = [] →
      (c.rank r).pc.Waits ∧ (d.rank r).pc.Waits) :
    d.work b < c.work b ∨ Sys.Turn cfg prog b c (some a) d ∧ d.work b = c.work b := by
  have same : ∀ r t, t.work b = (c.rank r).work b →
      Sys.work b { c with rank := Function.update c.rank r t } = c.work b := by
    intro r t kept
    refine add_right_cancel (b := (c.rank r).work b) ?_
    refine (Sys.work_main b r t none).trans ?_
    rw [kept]
    exact congrArg _ (add_zero _)
  cases a with
  | main r flag =>
      obtain ⟨⟨t, sent⟩, moved, rfl⟩ := Option.map_eq_some_iff.mp taken
      by_cases idle : (c.rank r).stack = []
      · obtain ⟨before, after⟩ := inside r flag rfl idle
        obtain ⟨rfl, goes⟩ := goes_of_mainStep idle before moved (by simpa using after)
        exact .inr ⟨.top idle goes, same r t (goes.kept idle).work⟩
      · rcases mainStep_work (fun ctx k => b.inHandler_of_running h) idle moved with
          less | ⟨rfl, turns⟩
        · refine .inl (lt_of_add_lt_add_right (a := (c.rank r).work b) ?_)
          rw [Sys.work_main]
          exact add_lt_add_right less _
        · exact .inr ⟨.inner idle moved turns, same r t turns.work⟩
  | listen r src =>
      obtain ⟨⟨t, stream⟩, received, rfl⟩ := Option.map_eq_some_iff.mp taken
      refine .inl (lt_of_add_lt_add_right (a := (c.rank r).work b
        + ((c.net src r).map (Packet.work b)).sum) ?_)
      rw [Sys.work_listen]
      exact add_lt_add_right (Receive.of_listenStep received).work _

namespace Turn

variable {b : Budget prog} {label : Option (Action n)}

theorem net (turn : Sys.Turn cfg prog b c label d) : d.net = c.net := by
  cases turn <;> rfl

theorem kept (turn : Sys.Turn cfg prog b c label d) (r : Fin n) :
    (c.rank r).Kept b (d.rank r) := by
  have update : ∀ {i t}, (c.rank i).Kept b t →
      (c.rank r).Kept b (Function.update c.rank i t r) := by
    intro i t kept
    by_cases hr : r = i
    · subst hr
      simpa using kept
    · simpa [hr] using ⟨rfl, rfl, rfl, rfl, rfl⟩
  cases turn with
  | rest => exact ⟨rfl, rfl, rfl, rfl, rfl⟩
  | inner _ _ turns => exact update turns.kept
  | top idle goes => exact update (goes.kept idle)

/-- A turn adds nothing to the posts of a rank, or one post with the counter of the rank. -/
theorem posts (turn : Sys.Turn cfg prog b c label d) (r : Fin n) :
    (d.rank r).barrierPosts = (c.rank r).barrierPosts ∨ ∃ kind,
      (d.rank r).barrierPosts = (c.rank r).barrierPosts ++ [(kind, (c.rank r).localCount)] := by
  have update : ∀ {i} {t : Rank n P σ V C}, (t.barrierPosts = (c.rank i).barrierPosts ∨ ∃ kind,
        t.barrierPosts = (c.rank i).barrierPosts ++ [(kind, (c.rank i).localCount)]) →
      (Function.update c.rank i t r).barrierPosts = (c.rank r).barrierPosts ∨ ∃ kind,
        (Function.update c.rank i t r).barrierPosts
          = (c.rank r).barrierPosts ++ [(kind, (c.rank r).localCount)] := by
    intro i t posts
    by_cases hr : r = i
    · subst hr
      simpa using posts
    · simp [hr]
  cases turn with
  | rest => exact .inl rfl
  | inner _ _ turns =>
      refine update (.inl ?_)
      rw [turns.same]
  | top _ goes =>
      refine update ?_
      cases goes with
      | sample => exact .inr ⟨.first, rfl⟩
      | confirm => exact .inr ⟨.second, rfl⟩
      | poll | retry => exact .inl rfl

theorem grown (turn : Sys.Turn cfg prog b c label d) (r : Fin n) :
    (c.rank r).barrierPosts <+: (d.rank r).barrierPosts := by
  rcases turn.posts r with same | ⟨kind, posts⟩
  · rw [same]
  · rw [posts]
    exact List.prefix_append _ _

/-- A rank whose main thread does not move in a turn stays what it is. -/
theorem still (turn : Sys.Turn cfg prog b c label d) {r : Fin n}
    (passed : ∀ flag, label ≠ some (.main r flag)) : d.rank r = c.rank r := by
  cases turn with
  | rest => rfl
  | inner | top =>
      refine Function.update_of_ne ?_ _ _
      rintro rfl
      exact passed _ rfl

theorem inner_of_busy {r : Fin n} {flag : Bool}
    (turn : Sys.Turn cfg prog b c (some (.main r flag)) d) (busy : (c.rank r).stack ≠ []) :
    mainStep cfg prog r (c.view prog r flag) (c.rank r) = some (d.rank r, none) ∧
      (c.rank r).Turns b (d.rank r) := by
  cases turn with
  | inner _ taken turns => simpa using ⟨taken, turns⟩
  | top idle => exact absurd idle busy

theorem goes_of_idle {r : Fin n} {flag : Bool}
    (turn : Sys.Turn cfg prog b c (some (.main r flag)) d) (idle : (c.rank r).stack = []) :
    (c.rank r).Goes (c.view prog r flag) (d.rank r) := by
  cases turn with
  | inner busy => exact absurd idle busy
  | top _ goes => simpa using goes

end Turn

end Sys

/-- **A rank without work holds no calls**, in any of the places where a rank can hold them. -/
structure Rank.Blank (s : Rank n P σ V C) : Prop where
  executing : s.executing = 0
  buffered : s.buffered = 0
  queued : s.queued = 0
  unparsed : s.unparsed = 0
  handed : s.handed = 0

theorem Rank.blank_of_work {b : Budget prog} {s : Rank n P σ V C}
    (none : s.work b = toLex (0, 0)) : s.Blank := by
  have load : s.load b = 0 := congrArg Prod.fst (toLex.injective none)
  have places : s.places = 0 := congrArg Prod.snd (toLex.injective none)
  have each : ∀ {α : Type} (f : α → ℕ) (items : List α), (items.map f).sum = 0 →
      ∀ x ∈ items, f x = 0 := fun f items none x hx =>
    List.all_zero_of_le_zero_le_of_sum_eq_zero (fun _ _ => Nat.zero_le _) none
      (List.mem_map_of_mem hx)
  simp only [Rank.load, Rank.places, Nat.add_eq_zero_iff, Finset.sum_eq_zero_iff, Finset.mem_univ,
    true_imp_iff] at load places
  have frames : ∀ frame ∈ s.stack,
      frame.executing = [] ∧ frame.unparsed = [] ∧ frame.handed = [] := by
    intro frame inStack
    have load := each _ _ load.1.1 frame inStack
    have places := each _ _ places.1.1 frame inStack
    cases frame with
    | user ctx k => simp [Frame.load] at load
    | store | announce | large => simp [Frame.places] at places
    | parse src tail =>
        obtain rfl := List.eq_nil_of_length_eq_zero places
        exact ⟨rfl, rfl, rfl⟩
    | _ => exact ⟨rfl, rfl, rfl⟩
  have buffers : ∀ dest, s.sendBuffers dest = [] := fun dest =>
    List.eq_nil_of_length_eq_zero (by have := places.1.2 dest; omega)
  have queue : s.receiveQueue = [] := by
    refine List.eq_nil_iff_forall_not_mem.mpr fun entry inQueue => ?_
    exact absurd (each _ _ places.2 entry inQueue) (Nat.succ_ne_zero _)
  refine ⟨?_, ?_, ?_, ?_, ?_⟩
  · exact (Multiset.coe_eq_zero _).mpr (List.flatMap_eq_nil_iff.mpr fun f hf => (frames f hf).1)
  · simp [Rank.buffered, buffers]
  · simp [Rank.queued, queue]
  · exact (Multiset.coe_eq_zero _).mpr (List.flatMap_eq_nil_iff.mpr fun f hf => (frames f hf).2.1)
  · exact (Multiset.coe_eq_zero _).mpr (List.flatMap_eq_nil_iff.mpr fun f hf => (frames f hf).2.2)

/-! ## The network runs dry -/

section Turning

variable {ρ : (comm cfg prog mem main).Run} {b : Budget prog} {i : ℕ}

/-- **From step `i` on nothing is spent**: every step of the run is a turn. -/
def Turning (ρ : (comm cfg prog mem main).Run) (b : Budget prog) (i : ℕ) : Prop :=
  ∀ j ≥ i, Sys.Turn cfg prog b (ρ.state j) (ρ.label j) (ρ.state (j + 1))

/-- In a run in which main programs move only in `barrier`, nothing is spent from some step on. -/
theorem exists_turning (b : Budget prog)
    (inside : ∀ j ≥ i, ∀ r flag, ρ.label j = some (.main r flag) →
      ((ρ.state j).rank r).stack = [] →
      ((ρ.state j).rank r).pc.Waits ∧ ((ρ.state (j + 1)).rank r).pc.Waits) :
    ∃ k ≥ i, Turning ρ b k := by
  have step : ∀ j ≥ i, (ρ.state (j + 1)).work b < (ρ.state j).work b ∨
      Sys.Turn cfg prog b (ρ.state j) (ρ.label j) (ρ.state (j + 1)) ∧
        (ρ.state (j + 1)).work b = (ρ.state j).work b := by
    intro j later
    cases label : ρ.label j with
    | none =>
        rw [ρ.rests label]
        exact .inr ⟨.rest, rfl⟩
    | some a =>
        refine Sys.turn_of_step b (ρ.reachable j) (ρ.moves label) ?_
        rintro r flag rfl idle
        exact inside j later r flag label idle
  have falls : ∀ j ≥ i, (ρ.state (j + 1)).work b ≤ (ρ.state j).work b := fun j later =>
    (step j later).elim le_of_lt fun turn => turn.2.le
  obtain ⟨k, later, same⟩ := Machine.Run.exists_forall_eq (fun j => (ρ.state j).work b) falls
  refine ⟨k, later, fun j after => ?_⟩
  rcases step j (later.trans after) with less | ⟨turn, -⟩
  · exact absurd (same j after) less.ne
  · exact turn

theorem listenStep_isSome_congr {r src : Fin n} {stream : List (Packet n P)}
    {s t : Rank n P σ V C} (same : t.listener = s.listener) :
    (listenStep cfg prog r src stream t).isSome = (listenStep cfg prog r src stream s).isSome := by
  unfold listenStep
  rw [same]
  cases s.listener with
  | stopped => rfl
  | any =>
      match stream with
      | [] => rfl
      | .announce size :: stream | .buffer msgs :: stream | .large m :: stream =>
          dsimp only
          split <;> rfl
  | large source size =>
      dsimp only
      split
      · cases takeLarge stream with
        | none => rfl
        | some found =>
            simp only [Option.bind_some]
            split <;> rfl
      · rfl

namespace Turning

theorem mono (turning : Turning ρ b i) {j : ℕ} (later : i ≤ j) : Turning ρ b j :=
  fun k after => turning k (later.trans after)

theorem net (turning : Turning ρ b i) {j : ℕ} (later : i ≤ j) :
    (ρ.state j).net = (ρ.state i).net := by
  induction j, later using Nat.le_induction with
  | base => rfl
  | succ j later ih => rw [(turning j later).net, ih]

theorem kept (turning : Turning ρ b i) {j : ℕ} (later : i ≤ j) (r : Fin n) :
    ((ρ.state i).rank r).Kept b ((ρ.state j).rank r) := by
  induction j, later using Nat.le_induction with
  | base => exact ⟨rfl, rfl, rfl, rfl, rfl⟩
  | succ j later ih => exact ih.trans ((turning j later).kept r)

/-- **No listener can receive anything** while nothing is spent, since a fair run would let it. -/
theorem deaf (turning : Turning ρ b i) (fair : Fair id ρ) (r src : Fin n) :
    ¬ (listenStep cfg prog r src ((ρ.state i).net src r) ((ρ.state i).rank r)).isSome := by
  intro able
  obtain ⟨j, later, -, a, label, src', rfl⟩ := (fair.listener r).exists_takes
    (P := fun j => i ≤ j) le_rfl (fun j _ later _ => later.trans (Nat.le_succ j))
    fun j _ later => by
      rw [← turning.net later, ← listenStep_isSome_congr (turning.kept later r).listener] at able
      exact Machine.Run.enables_of_isSome (a := .listen r src) ⟨src, rfl⟩
        ((Option.isSome_map ..).trans able)
  have turn := turning j later
  rw [label] at turn
  cases turn

/-- **A main thread that can move moves**, and nothing has happened to its rank until then. -/
theorem exists_main (turning : Turning ρ b i) (fair : Fair id ρ) (r : Fin n)
    (able : ∀ j ≥ i, (ρ.state j).rank r = (ρ.state i).rank r →
      (mainStep cfg prog r ((ρ.state j).view prog r true) ((ρ.state j).rank r)).isSome) :
    ∃ j ≥ i, (ρ.state j).rank r = (ρ.state i).rank r ∧
      ∃ flag, ρ.label j = some (.main r flag) ∧
        Sys.Turn cfg prog b (ρ.state j) (some (.main r flag)) (ρ.state (j + 1)) := by
  obtain ⟨j, later, same, a, label, flag, rfl⟩ := (fair.main r).exists_takes
    (P := fun j => (ρ.state j).rank r = (ρ.state i).rank r) rfl
    (fun j later same passed => by
      refine ((turning j later).still fun flag label => passed ?_).trans same
      exact ⟨_, label, flag, rfl⟩)
    fun j later same => Machine.Run.enables_of_isSome (a := .main r true) ⟨true, rfl⟩
      ((Option.isSome_map ..).trans (able j later same))
  exact ⟨j, later, same, flag, label, label ▸ turning j later⟩

/-- **No listener waits for a large message** while nothing is spent, because the sender would
send it. -/
theorem listening (turning : Turning ρ b i) (fair : Fair id ρ) (plain : prog.Plain) (r : Fin n) :
    ((ρ.state i).rank r).listener = .any := by
  have sends : ∀ {j} (src : Fin n) {m rest}, Turning ρ b j →
      ((ρ.state j).rank src).stack ≠ .large m :: rest := by
    intro j src m rest turning stack
    obtain ⟨k, later, same, flag, -, turn⟩ := turning.exists_main fair src fun k _ same => by
      simp [mainStep, same, stack, frameStep]
    rw [← same] at stack
    have sent := (turn.inner_of_busy (by simp [stack])).1
    simp [mainStep, stack, frameStep] at sent
  cases awaits : ((ρ.state i).rank r).listener with
  | any => rfl
  | stopped => exact absurd awaits ((open_of_reachable plain (ρ.reachable i)).listener r)
  | large src size =>
      cases awaited_of_reachable (ρ.reachable i) awaits with
      | posted able => exact absurd able (turning.deaf fair r src)
      | next stack => exact absurd stack (sends src turning)
      | @announced m rest stack matched =>
          obtain ⟨j, later, same, flag, -, turn⟩ := turning.exists_main fair src fun j later same => by
            simp [mainStep, same, stack, frameStep, Sys.view, turning.net later, matched]
          rw [← same] at stack
          have returned := (turn.inner_of_busy (by simp [stack])).1
          simp only [mainStep, stack, frameStep, Option.ite_none_right_eq_some, Option.some.injEq,
            Prod.mk.injEq, and_true] at returned
          have next : ((ρ.state (j + 1)).rank src).stack = .large m :: rest := by
            rw [← returned.2]
          exact absurd next (sends src (turning.mono (later.trans (Nat.le_succ j))))

/-- **The network is empty** while nothing is spent in a fair run. -/
theorem net_eq_nil (turning : Turning ρ b i) (fair : Fair id ρ) (plain : prog.Plain)
    (room : 8 ≤ cfg.bufferCapacity) (src r : Fin n) : (ρ.state i).net src r = [] := by
  by_contra waiting
  exact turning.deaf fair r src (listenStep_isSome plain (ρ.reachable i) (fun _ _ _ _ => room)
    waiting (turning.listening fair plain r))

/-- **Every main thread gets back to `barrier`** while nothing is spent, and `barrier` has not
gone on until then. -/
theorem exists_idle (turning : Turning ρ b i) (fair : Fair id ρ) (plain : prog.Plain)
    (room : 8 ≤ cfg.bufferCapacity) (r : Fin n) :
    ∃ j ≥ i, ((ρ.state j).rank r).stack = [] ∧
      ((ρ.state i).rank r).SameTop ((ρ.state j).rank r) := by
  induction left : control n ((ρ.state i).rank r).received ((ρ.state i).rank r).stack
    using Nat.strong_induction_on generalizing i with
  | _ left ih =>
      by_cases busy : ((ρ.state i).rank r).stack = []
      · exact ⟨i, le_rfl, busy, rfl, rfl, rfl, rfl, rfl⟩
      obtain ⟨j, later, same, flag, -, turn⟩ := turning.exists_main fair r fun j later same => by
        refine mainStep_isSome plain (ρ.reachable j) (same ▸ busy) (fun dest rest _ => ?_) true
        exact (turning.mono later).net_eq_nil fair plain room r dest
      have turns := (turn.inner_of_busy (same ▸ busy)).2
      rw [same] at turns
      have top : ((ρ.state i).rank r).SameTop ((ρ.state (j + 1)).rank r) := by
        rw [turns.same]
        exact ⟨rfl, rfl, rfl, rfl, rfl⟩
      obtain ⟨k, after, idle, top'⟩ := ih _ (left ▸ turns.control)
        (turning.mono (later.trans (Nat.le_succ j))) rfl
      exact ⟨k, (later.trans (Nat.le_succ j)).trans after, idle, top.trans top'⟩

theorem grown (turning : Turning ρ b i) {j : ℕ} (later : i ≤ j) (r : Fin n) :
    ((ρ.state i).rank r).barrierPosts <+: ((ρ.state j).rank r).barrierPosts := by
  induction j, later using Nat.le_induction with
  | base => exact List.prefix_rfl
  | succ j later ih => exact ih.trans ((turning j later).grown r)

end Turning

/-- **From step `i` on nothing is spent**, and all ranks are in the barrier of epoch `e`. -/
structure Circling (ρ : (comm cfg prog mem main).Run) (b : Budget prog) (e i : ℕ) : Prop where
  turning : Turning ρ b i
  gathered : ∀ j ≥ i, (ρ.state j).Gathered e

namespace Circling

theorem mono (circling : Circling ρ b e i) {j : ℕ} (later : i ≤ j) : Circling ρ b e j :=
  ⟨circling.turning.mono later, fun k after => circling.gathered k (later.trans after)⟩

/-! ## Posts go on -/

/-- **`barrier` goes on** on a rank, unless the rank has no result to its second sum. -/
theorem exists_goes (circling : Circling ρ b e i) (fair : Fair id ρ) (plain : prog.Plain)
    (room : 8 ≤ cfg.bufferCapacity) {r : Fin n}
    (ready : ((ρ.state i).rank r).pc.waiting = some .second →
      ∃ sum, (ρ.state i).allCount r = some sum) :
    ∃ j ≥ i, ((ρ.state i).rank r).SameTop ((ρ.state j).rank r) ∧
      ((ρ.state j).rank r).stack = [] ∧ ∃ flag, ρ.label j = some (.main r flag) ∧
        ((ρ.state j).rank r).Goes ((ρ.state j).view prog r flag) ((ρ.state (j + 1)).rank r) := by
  obtain ⟨j, later, idle, top⟩ := circling.turning.exists_idle fair plain room r
  obtain ⟨k, after, same, flag, label, turn⟩ := (circling.turning.mono later).exists_main fair r
    fun k after same => by
      have beyond := later.trans after
      have waits := (circling.gathered k beyond).inside r
      have top : ((ρ.state k).rank r).pc = ((ρ.state i).rank r).pc ∧
          ((ρ.state k).rank r).barrierPosts = ((ρ.state i).rank r).barrierPosts := by
        rw [same]
        exact ⟨top.pc, top.barrierPosts⟩
      rw [← same] at idle
      simp only [mainStep, idle]
      cases pc : ((ρ.state k).rank r).pc with
      | user | reduce | join | thrown => simp [pc, Pc.Waits] at waits
      | sample => simp [topStep, pc]
      | test first =>
          simp only [topStep, pc]
          split
          · rfl
          · split_ifs <;> rfl
      | second first second =>
          obtain ⟨sum, seen⟩ := ready (by rw [← top.1, pc]; rfl)
          have seen : (ρ.state k).allCount r = some sum :=
            result_of_prefix (fun i => circling.turning.grown beyond i) top.2 seen
          simp only [topStep, pc, Sys.view, seen]
          split_ifs <;> rfl
  refine ⟨k, later.trans after, same ▸ top, same ▸ idle, flag, label, ?_⟩
  exact turn.goes_of_idle (same ▸ idle)

/-- A rank that is to take its first sample takes and posts it at some time. -/
theorem exists_sample (circling : Circling ρ b e i) (fair : Fair id ρ) (plain : prog.Plain)
    (room : 8 ≤ cfg.bufferCapacity) {r : Fin n} (pc : ((ρ.state i).rank r).pc = .sample) :
    ∃ j ≥ i, ((ρ.state i).rank r).barrierPosts.length
      < ((ρ.state j).rank r).barrierPosts.length := by
  obtain ⟨j, later, top, idle, flag, -, goes⟩ :=
    circling.exists_goes fair plain room (r := r) (by simp [pc, Pc.waiting])
  refine ⟨j + 1, by omega, ?_⟩
  rw [← top.barrierPosts]
  rw [← top.pc] at pc
  generalize (ρ.state (j + 1)).rank r = t at goes
  cases goes with
  | sample => simp [Rank.post]
  | poll test | confirm test => simp [pc] at test
  | retry waits => simp [pc, Pc.waiting] at waits

/-- **The rank that has posted least posts once more** at some time, since its result is
complete. -/
theorem exists_post (circling : Circling ρ b e i) (fair : Fair id ρ) (plain : prog.Plain)
    (room : 8 ≤ cfg.bufferCapacity) {r : Fin n}
    (least : ∀ k, ((ρ.state i).rank r).barrierPosts.length
      ≤ ((ρ.state i).rank k).barrierPosts.length) :
    ∃ j ≥ i, ((ρ.state i).rank r).barrierPosts.length
      < ((ρ.state j).rank r).barrierPosts.length := by
  by_contra never
  simp only [not_exists, not_and, not_lt] at never
  have posts : ∀ j ≥ i, ((ρ.state j).rank r).barrierPosts = ((ρ.state i).rank r).barrierPosts :=
    fun j later => ((circling.turning.grown later r).eq_of_length_le (never j later)).symm
  have unsampled : ∀ j ≥ i, ((ρ.state j).rank r).pc ≠ .sample := by
    intro j later pc
    obtain ⟨k, after, more⟩ := (circling.mono later).exists_sample fair plain room pc
    rw [posts j later, posts k (later.trans after)] at more
    exact lt_irrefl _ more
  -- so it waits, for a sum that is there
  have seen : ∀ j ≥ i, ∃ sum, (ρ.state j).allCount r = some sum := by
    intro j later
    have waits : ((ρ.state j).rank r).pc.waiting ≠ none := by
      have inside := (circling.gathered j later).inside r
      have sampled := unsampled j later
      cases pc : ((ρ.state j).rank r).pc <;> simp_all [Pc.Waits, Pc.waiting]
    refine (Sys.aligned_of_reachable (ρ.reachable j)).exists_result waits fun k => ?_
    show ((ρ.state j).rank r).barrierPosts.length ≤ ((ρ.state j).rank k).barrierPosts.length
    rw [posts j later]
    exact (least k).trans (circling.turning.grown later k).length_le
  -- and all it ever does about it is to call `MPI_Test` in vain
  have polls : ∀ j ≥ i, ∀ flag,
      ((ρ.state j).rank r).Goes ((ρ.state j).view prog r flag) ((ρ.state (j + 1)).rank r) →
      flag = false ∧ ∃ first, ((ρ.state j).rank r).pc = .test first := by
    intro j later flag goes
    have same := posts (j + 1) (by omega)
    have sampled := unsampled (j + 1) (by omega)
    rw [← posts j later] at same
    obtain ⟨sum, here⟩ := seen j later
    generalize (ρ.state (j + 1)).rank r = t at goes same sampled
    cases goes with
    | sample | confirm => simp [Rank.post] at same
    | @poll first pc notYet => exact ⟨by simpa [Sys.view, here] using notYet, first, pc⟩
    | retry => exact absurd rfl sampled
  have tests : ∀ j ≥ i, ∃ k ≥ j, Tests id ρ r k := by
    intro j later
    obtain ⟨k, after, -, idle, flag, label, goes⟩ :=
      (circling.mono later).exists_goes fair plain room (r := r) fun _ => seen j later
    obtain ⟨sum, here⟩ := seen k (later.trans after)
    exact ⟨k, after, ⟨flag, label⟩, idle, (polls k (later.trans after) flag goes).2, by simp [here]⟩
  obtain ⟨j, later, ⟨-, idle, -⟩, label⟩ := fair.test r
    (fun k => (tests (max i k) (le_max_left _ _)).imp fun j h => ⟨(le_max_right _ _).trans h.1, h.2⟩) i
  have turn := circling.turning j later
  rw [label] at turn
  exact absurd (polls j later true (turn.goes_of_idle idle)).1 (by decide)

/-- **All ranks post again and again**: at some time each of them has posted as often as one
likes. -/
theorem exists_posts (circling : Circling ρ b e i) (fair : Fair id ρ) (plain : prog.Plain)
    (room : 8 ≤ cfg.bufferCapacity) (count : ℕ) :
    ∃ j ≥ i, ∀ r, count ≤ ((ρ.state j).rank r).barrierPosts.length := by
  have stays : ∀ (count : ℕ) (r : Fin n), ∀ j ≥ i,
      count ≤ ((ρ.state j).rank r).barrierPosts.length →
      ∀ k ≥ j, count ≤ ((ρ.state k).rank r).barrierPosts.length :=
    fun count r j later enough k after =>
      enough.trans ((circling.turning.mono later).grown after r).length_le
  induction count with
  | zero => exact ⟨i, le_rfl, fun r => Nat.zero_le _⟩
  | succ count ih =>
      obtain ⟨j, later, all⟩ := ih
      refine Machine.Run.exists_forall _ (stays (count + 1)) fun r => ?_
      by_cases done : count + 1 ≤ ((ρ.state j).rank r).barrierPosts.length
      · exact ⟨j, later, done⟩
      · have here := all r
        obtain ⟨k, after, more⟩ := (circling.mono later).exists_post fair plain room (r := r)
          fun k => by
            have := all k
            omega
        exact ⟨k, later.trans after, by omega⟩

/-! ## Nothing is pending -/

/-- **A rank that has posted often has started over or polled**: at some time it calls
`wait_local_idle`, which looks into its receive queue. -/
theorem exists_restart (circling : Circling ρ b e i) (fair : Fair id ρ) (plain : prog.Plain)
    (room : 8 ≤ cfg.bufferCapacity) (r : Fin n) :
    ∃ j ≥ i, ((ρ.state j).rank r).stack = [] ∧
      ((ρ.state (j + 1)).rank r).stack = [.recv false, .idle] := by
  by_contra never
  simp only [not_exists, not_and] at never
  -- otherwise it can post once for each of these
  have spent : ∀ j ≥ i,
      ((ρ.state j).rank r).barrierPosts.length + ((ρ.state j).rank r).pc.postsAhead
        ≤ ((ρ.state i).rank r).barrierPosts.length + ((ρ.state i).rank r).pc.postsAhead := by
    intro j later
    induction j, later using Nat.le_induction with
    | base => exact le_rfl
    | succ j later ih =>
        refine le_trans (le_of_eq ?_) ih
        have turn := circling.turning j later
        by_cases moves : ∃ flag, ρ.label j = some (.main r flag)
        · obtain ⟨flag, label⟩ := moves
          rw [label] at turn
          by_cases idle : ((ρ.state j).rank r).stack = []
          · have goes := turn.goes_of_idle idle
            have stays := never j later idle
            generalize (ρ.state (j + 1)).rank r = t at goes stays
            cases goes with
            | sample pc | confirm pc => simp [Rank.post, Pc.postsAhead, pc]
            | poll | retry => exact absurd rfl stays
          · rw [(turn.inner_of_busy idle).2.same]
        · rw [turn.still (by simpa using moves)]
  obtain ⟨j, later, more⟩ := circling.exists_posts fair plain room
    (((ρ.state i).rank r).barrierPosts.length + ((ρ.state i).rank r).pc.postsAhead + 1)
  have := spent j later
  have := more r
  omega

/-- **The receive queues are empty**, as every rank looks into its own and takes nothing from
it. -/
theorem receiveQueue_eq_nil (circling : Circling ρ b e i) (fair : Fair id ρ) (plain : prog.Plain)
    (room : 8 ≤ cfg.bufferCapacity) (r : Fin n) : ((ρ.state i).rank r).receiveQueue = [] := by
  obtain ⟨j, later, -, stack⟩ := circling.exists_restart fair plain room r
  have beyond : i ≤ j + 1 := by omega
  obtain ⟨k, after, same, flag, -, turn⟩ := (circling.turning.mono beyond).exists_main fair r
    fun k after same => by
      simp only [mainStep, same, stack, frameStep]
      split <;> rfl
  have busy : ((ρ.state k).rank r).stack = [.recv false, .idle] := by rw [same, stack]
  have taken := (turn.inner_of_busy (by simp [busy])).1
  have kept := (circling.turning.kept (beyond.trans after) r).receiveQueue
  have kept' := (turn.kept r).receiveQueue
  by_contra some_
  obtain ⟨⟨msgs, src⟩, queue', queue⟩ := List.exists_cons_of_ne_nil some_
  rw [queue] at kept
  simp only [mainStep, busy, frameStep, kept, Option.some.injEq, Prod.mk.injEq, and_true] at taken
  rw [← taken, kept] at kept'
  simp at kept'

/-- **No work is left** on any rank, as nothing is in the receive queues and nothing is
executed. -/
theorem work_eq_zero (circling : Circling ρ b e i) (fair : Fair id ρ) (plain : prog.Plain)
    (room : 8 ≤ cfg.bufferCapacity) (r : Fin n) : ((ρ.state i).rank r).work b = toLex (0, 0) := by
  obtain ⟨j, later, idle, -⟩ := circling.turning.exists_idle fair plain room r
  have queue := (circling.mono later).receiveQueue_eq_nil fair plain room r
  have buffers := buffers_of_idle (ρ.reachable j)
    ((circling.gathered j later).inside r).inBarrier idle
  rw [← (circling.turning.kept later r).work]
  simp [Rank.work, Rank.load, Rank.places, idle, queue, buffers]

theorem pending_eq_zero (circling : Circling ρ b e i) (fair : Fair id ρ) (plain : prog.Plain)
    (room : 8 ≤ cfg.bufferCapacity) : (ρ.state i).pending = 0 := by
  have blank : ∀ r, ((ρ.state i).rank r).Blank := fun r =>
    Rank.blank_of_work (circling.work_eq_zero fair plain room r)
  simp [Sys.pending, Sys.unfinished, Sys.executing, Sys.buffered, Sys.inNetwork, Sys.stream,
    Sys.queued, Sys.unparsed, Sys.handed, (blank _).executing, (blank _).buffered,
    (blank _).queued, (blank _).unparsed, (blank _).handed,
    circling.turning.net_eq_nil fair plain room]

/-- The values that a rank posts from step `i` on are its counter, which stands still. -/
theorem value_eq (circling : Circling ρ b e i) {j : ℕ} (later : i ≤ j) {r : Fin n} {k : ℕ}
    {post : Kind × ℤ} (at_k : ((ρ.state j).rank r).barrierPosts[k]? = some post)
    (new : ((ρ.state i).rank r).barrierPosts.length ≤ k) :
    post.2 = ((ρ.state i).rank r).localCount := by
  induction j, later using Nat.le_induction with
  | base => simp [List.getElem?_eq_none new] at at_k
  | succ j later ih =>
      rcases (circling.turning j later).posts r with same | ⟨kind, posts⟩
      · exact ih (same ▸ at_k)
      · rw [posts] at at_k
        rcases Nat.lt_or_ge k ((ρ.state j).rank r).barrierPosts.length with old | beyond
        · exact ih (by rwa [List.getElem?_append_left old] at at_k)
        · rw [List.getElem?_append_right beyond, List.getElem?_singleton] at at_k
          split at at_k
          · cases at_k
            exact (circling.turning.kept later r).localCount
          · cases at_k

/-- **All sums are zero** from step `i` on, as no call is pending and the counters stand still. -/
theorem total_eq_zero (circling : Circling ρ b e i) (fair : Fair id ρ) (plain : prog.Plain)
    (room : 8 ≤ cfg.bufferCapacity) {j : ℕ} (later : i ≤ j) {k : ℕ}
    (new : ∀ r, ((ρ.state i).rank r).barrierPosts.length ≤ k)
    (posted : ∀ r, k < ((ρ.state j).rank r).barrierPosts.length) :
    total (fun r => ((ρ.state j).rank r).barrierPosts) k = 0 := by
  have none : (ρ.state i).unfinished + (ρ.state i).handed = 0 :=
    circling.pending_eq_zero fair plain room
  calc total (fun r => ((ρ.state j).rank r).barrierPosts) k
      = ∑ r, ((ρ.state i).rank r).localCount := by
        refine Finset.sum_congr rfl fun r _ => ?_
        have at_k := List.getElem?_eq_getElem (posted r)
        rw [contribution, at_k]
        exact circling.value_eq later at_k (new r)
    _ = 0 := by
        rw [Sys.sum_localCount (ρ.reachable i), none]
        rfl

/-- **The ranks cannot circle for ever**, as every second sum of zero closes a round and the
barrier is left. -/
theorem impossible (circling : Circling ρ b e i) (fair : Fair id ρ) (plain : prog.Plain)
    (room : 8 ≤ cfg.bufferCapacity) (r : Fin n) : False := by
  set old := Finset.univ.sup fun r => ((ρ.state i).rank r).barrierPosts.length
  have new : ∀ r, ((ρ.state i).rank r).barrierPosts.length ≤ old := fun r =>
    Finset.le_sup (f := fun r => ((ρ.state i).rank r).barrierPosts.length) (Finset.mem_univ r)
  obtain ⟨j, later, enough⟩ := circling.exists_posts fair plain room (old + 2 * (e + 1) + 1)
  have many : e + 1
      ≤ closed (fun r => ((ρ.state j).rank r).barrierPosts) (old + 2 * (e + 1)) :=
    le_closed_of_total fun k beyond below =>
      circling.total_eq_zero fair plain room later (fun r => (new r).trans beyond) fun r => by
        have := enough r
        omega
  have aligned := Sys.aligned_of_reachable (ρ.reachable j)
  have handled : old + 2 * (e + 1) ≤ ((ρ.state j).party r).handled := by
    have := enough r
    by_cases free : ((ρ.state j).party r).waiting = none
    · rw [Party.handled, if_pos free]
      show _ ≤ ((ρ.state j).rank r).barrierPosts.length
      omega
    · have length := aligned.length_of_waiting free
      change ((ρ.state j).rank r).barrierPosts.length = _ at length
      omega
  have rounds := aligned.rounds r
  change ((ρ.state j).rank r).epoch
    = closed (fun r => ((ρ.state j).rank r).barrierPosts) _ at rounds
  rw [(circling.gathered j later).epoch r] at rounds
  have late := many.trans (closed_mono handled)
  rw [← rounds] at late
  exact absurd late (Nat.not_succ_le_self e)

end Circling

end Turning

/-! ## Every barrier ends -/

/-- **A rank stays in a barrier** until it is through with it, and then the round is over. -/
theorem inside_step (h : (comm cfg prog mem main).Reachable c) {a : Action n}
    (taken : Sys.step cfg prog c a = some d) {r : Fin n} (inside : (c.rank r).pc.Waits)
    (epoch : (c.rank r).epoch = e) :
    ((d.rank r).pc.Waits ∧ (d.rank r).epoch = e) ∨ ((d.rank r).Dismissed e ∧ e < d.round) := by
  have later := Sys.round_le h taken
  have within := Sys.epoch_le_round (h.step taken) r
  rcases Sys.step_cases taken with
    ⟨i, flag, t, sent, -, move, rfl⟩ | ⟨i, src, t, stream, -, receive, rfl⟩
  · by_cases hr : r = i
    · subst hr
      simp only [Function.update_self] at within ⊢
      by_cases idle : (c.rank r).stack = []
      · cases move with
        | sample | pending | confirm | retry => exact .inl ⟨trivial, epoch⟩
        | leave =>
            refine .inr ⟨.inl ⟨rfl, congrArg _ epoch⟩, ?_⟩
            rw [← epoch]
            exact within
        | @throw first second pc _ zero =>
            have behind := (Sys.aligned_of_reachable h).rounds_lt (i := r)
              (show (c.rank r).pc.waiting = some .second by rw [pc]; rfl) zero
            change (c.rank r).epoch < c.round at behind
            rw [epoch] at behind
            exact .inr ⟨.inr ⟨first, second, rfl⟩, behind.trans_le later⟩
        | update run | asyncSelf run | asyncRemote run | callFlush run =>
            cases run with
            | main user => simp [user, Pc.Waits] at inside
            | handler busy => simp [idle] at busy
        | barrier pc | reduce pc | reduced pc | kill pc | joined pc =>
            simp [pc, Pc.Waits] at inside
        | _ => simp [*] at idle
      · have top := move.sameTop idle
        exact .inl ⟨top.pc ▸ inside, top.epoch.trans epoch⟩
    · left
      simpa [hr] using ⟨inside, epoch⟩
  · left
    obtain ⟨listener, queue, eq⟩ := receive.frame r
    simp only [eq]
    exact ⟨inside, epoch⟩

section Ends

variable {ρ : (comm cfg prog mem main).Run} {i : ℕ}

theorem round_mono {j : ℕ} (later : i ≤ j) : (ρ.state i).round ≤ (ρ.state j).round := by
  induction j, later using Nat.le_induction with
  | base => exact le_rfl
  | succ j later ih =>
      refine ih.trans ?_
      cases label : ρ.label j with
      | none => rw [ρ.rests label]
      | some a => exact Sys.round_le (ρ.reachable j) (ρ.moves label)

/-- Along a run, a rank in the barrier of epoch `e` is still there, or it has been dismissed and
the round is over. -/
theorem inside_or {r : Fin n} (inside : ((ρ.state i).rank r).pc.Waits)
    (epoch : ((ρ.state i).rank r).epoch = e) {j : ℕ} (later : i ≤ j) :
    (((ρ.state j).rank r).pc.Waits ∧ ((ρ.state j).rank r).epoch = e) ∨
      (∃ k ≥ i, ((ρ.state k).rank r).Dismissed e) ∧ e < (ρ.state j).round := by
  induction j, later using Nat.le_induction with
  | base => exact .inl ⟨inside, epoch⟩
  | succ j later ih =>
      rcases ih with ⟨inside, epoch⟩ | ⟨dismissed, over_⟩
      · cases label : ρ.label j with
        | none =>
            rw [ρ.rests label]
            exact .inl ⟨inside, epoch⟩
        | some a =>
            exact (inside_step (ρ.reachable j) (ρ.moves label) inside epoch).imp_right
              fun h => ⟨⟨j + 1, later.trans (Nat.le_succ j), h.1⟩, h.2⟩
      · exact .inr ⟨dismissed, over_.trans_le (round_mono (Nat.le_succ j))⟩

/-- **When the round is over every rank gets out**: each of them is dismissed at some time of a
fair run. -/
theorem exists_dismissed (fair : Fair id ρ) {r : Fin n} (inside : ((ρ.state i).rank r).pc.Waits)
    (epoch : ((ρ.state i).rank r).epoch = e) (behind : e < (ρ.state i).round) :
    ∃ j ≥ i, ((ρ.state j).rank r).Dismissed e := by
  by_contra never
  have stays : ∀ j ≥ i, ((ρ.state j).rank r).pc.Waits ∧ ((ρ.state j).rank r).epoch = e :=
    fun j later => (inside_or inside epoch later).resolve_right fun h => never h.1
  -- it has its second sum, and this is zero
  have waits : ∀ j ≥ i, ((ρ.state j).rank r).pc.waiting = some .second ∧
      ((ρ.state j).rank r).stack = [] ∧ (ρ.state j).allCount r = some 0 := by
    intro j later
    obtain ⟨inside, epoch⟩ := stays j later
    have reached := ρ.reachable j
    have behind := behind.trans_le (round_mono (ρ := ρ) later)
    have second : ((ρ.state j).rank r).pc.waiting = some .second := by
      by_contra free
      rw [Sys.epoch_eq_round reached free] at epoch
      exact absurd epoch behind.ne'
    obtain ⟨first, value, pc⟩ := Pc.waiting_second second
    refine ⟨second, ((Sys.sampled_of_reachable reached r).second first value pc).1, ?_⟩
    rw [← epoch] at behind
    exact (Sys.aligned_of_reachable reached).result_of_behind second behind
  obtain ⟨j, later, -, a, label, flag, rfl⟩ := (fair.main r).exists_takes (P := fun _ => True)
    trivial (fun _ _ _ _ => trivial) fun j later _ => by
      obtain ⟨second, idle, zero⟩ := waits j later
      obtain ⟨first, value, pc | thrown⟩ := Pc.waiting_second second
      · have able : (mainStep cfg prog r ((ρ.state j).view prog r true)
            ((ρ.state j).rank r)).isSome := by
          simp only [mainStep, idle, topStep, pc, Sys.view, zero, ↓reduceIte]
          split <;> rfl
        exact Machine.Run.enables_of_isSome (a := .main r true) ⟨true, rfl⟩
          ((Option.isSome_map ..).trans able)
      · simpa [thrown, Pc.Waits] using (stays j later).1
  obtain ⟨second, idle, zero⟩ := waits j later
  obtain ⟨⟨t, sent⟩, moved, after⟩ := Option.map_eq_some_iff.mp (ρ.moves label)
  refine never ⟨j + 1, later.trans (Nat.le_succ j), ?_⟩
  rw [← after]
  simp only [Function.update_self]
  have seen : ∀ x, (ρ.state j).allCount r = some x → x = 0 := fun x here =>
    Option.some.inj (here.symm.trans zero)
  rcases (Move.of_mainStep moved).leaves second idle seen with ⟨first, value, rfl⟩ | rfl
  · exact .inr ⟨first, value, rfl⟩
  · exact .inl ⟨rfl, congrArg _ (stays j later).2⟩

/-- **Every barrier ends.**  In a fair run in which every rank comes to the barrier that ends
epoch `e`, every rank gets out of it, whatever is on its way. -/
theorem barrier_ends (b : Budget prog) (alive : ∀ k mem k', prog.next k mem ≠ .kill k')
    (room : 8 ≤ cfg.bufferCapacity) (fair : Fair id ρ)
    (comes : ∀ r, ∃ i, ((ρ.state i).rank r).pc.Waits ∧ ((ρ.state i).rank r).epoch = e)
    (r : Fin n) : ∃ i, ((ρ.state i).rank r).Dismissed e := by
  by_contra never
  obtain ⟨i, inside, epoch⟩ := comes r
  have stays : ∀ j ≥ i, ((ρ.state j).rank r).pc.Waits ∧ ((ρ.state j).rank r).epoch = e :=
    fun j later => (inside_or inside epoch later).resolve_right fun h =>
      never (h.1.imp fun _ h => h.2)
  have current : ∀ j ≥ i, (ρ.state j).round ≤ e := by
    intro j later
    by_contra behind
    obtain ⟨k, -, dismissed⟩ :=
      exists_dismissed fair (stays j later).1 (stays j later).2 (not_le.mp behind)
    exact never ⟨k, dismissed⟩
  -- so nobody gets out, and all are in the barrier from some step on
  obtain ⟨j, -, gathered⟩ := Machine.Run.exists_forall
    (fun k j => ∀ l ≥ j, ((ρ.state l).rank k).pc.Waits ∧ ((ρ.state l).rank k).epoch = e)
    (fun k j _ here l later m after => here m (later.trans after)) fun k => by
      obtain ⟨j, inside, epoch⟩ := comes k
      refine ⟨max i j, le_max_left _ _, fun l later => ?_⟩
      have after := (le_max_right i j).trans later
      refine (inside_or inside epoch after).resolve_right fun h => ?_
      exact absurd h.2 (current l ((le_max_left i j).trans later)).not_gt
  obtain ⟨k, later, turning⟩ := exists_turning b fun l later r flag _ _ =>
    ⟨(gathered r l later).1, (gathered r (l + 1) (by omega)).1⟩
  have circling : Circling ρ b e k :=
    ⟨turning, fun l after => ⟨fun r => (gathered r l (later.trans after)).1,
      fun r => (gathered r l (later.trans after)).2⟩⟩
  exact circling.impossible fair (b.plain alive) room r

end Ends

/-! ## A fair run -/

/-- A schedule after which no thread can move is a fair run. -/
theorem fair_play {S : Type} {M : Machine S (Action n)} (sys : S → Sys n P σ V C)
    {labels : List (Action n)}
    (ended : ∀ a, (M.step (M.after labels labels.length) a).isNone) :
    Fair sys (M.play labels) := by
  have just := fun acts => Machine.just_play (M := M)
    (fun a => Option.isNone_iff_eq_none.mp (ended a)) acts
  refine ⟨fun r => just _, fun r => just _, fun r tests => ?_⟩
  obtain ⟨i, later, ⟨flag, label⟩, -⟩ := tests labels.length
  have none : (M.play labels).label i = none := by
    simp [Machine.play, List.getElem?_eq_none later]
  rw [none] at label
  cases label

/-- All threads take turns: a call, the call back, and the barrier, whose first round comes too
early. -/
def echoRun : (comm ⟨16, true⟩ (echo 2) (fun _ => ()) ![[some (1, 1), none], [none]]).Run :=
  Machine.play _
    (List.replicate 60 [.main 0 true, .main 1 true, .listen 0 1, .listen 1 0]).flatten

theorem barrier_ends_echo :
    Fair id echoRun ∧ ∀ r, ∃ i, ((echoRun.state i).rank r).Dismissed 0 := by
  have alive : ∀ k mem k', (echo 2).next k mem ≠ .kill k' := by
    rintro (_ | ⟨_ | _, _⟩) mem k' <;> simp [echo]
  have fair : Fair id echoRun := by
    refine fair_play id fun a => ?_
    cases a with
    | main r flag =>
        revert r flag
        decide +kernel
    | listen r src =>
        revert r src
        decide +kernel
  have comes : ∀ r, ((echoRun.state 40).rank r).pc.Waits ∧ ((echoRun.state 40).rank r).epoch = 0 := by
    decide +kernel
  exact ⟨fair, barrier_ends (echoBudget 2) alive (by decide) fair fun r => ⟨40, comes r⟩⟩

end YGM
