import YGM.Comm.Deadlock
import YGM.Comm.FairRuns

/-!
# Programs end

In a fair run in which the main programs call their collectives in the same order and no assertion
fails, all main programs come to their end (`program_ends`).  The run is one of `joint`, so this
is about blocking sends as well as buffered ones, and about the messages of the tree reduction.

What a rank has left to do (`Joint.left`) never grows: the collectives of the plan that are ahead,
then the commands up to the next of them, then the steps of the reduction it is in.  From some
step on it stays what it is (`Settled`), and then the run, seen from `comm`, spends nothing but
turns of activations and of `barrier`.  It is fair there too, as no reduction is complete: one of
the ranks in it would move.  Of the ranks that are not at their end consider the one that is
behind all others.  It gets back to its main program or to its collective, cannot be in the main
program, where it would go on, nor in a reduction, to which all have contributed; so it is in
`barrier`.  If another rank is out of that barrier then so is this one, soon; if not, all are in
it, and it ends.
-/

namespace YGM

variable {n : ℕ} {P σ V C τ : Type} {cfg : Config} {prog : Program n P σ V C}
variable {ops : Reductions V τ} {mem : Fin n → σ} {main : Fin n → C}
variable {x y : Joint n P σ V C τ} {a : Action n}

/-! ## What a rank has left to do -/

/-- A command that brings the main program closer to its next collective or to its end, or is
that collective or the end. -/
def Cmd.Approaches {α : Type} [LT α] (left : C → α) (now : α) : Cmd n P σ V C → Prop
  | .update _ k | .async _ _ k | .asyncFlush _ k | .asyncFlushAll k => left k < now
  | .ret _ | .barrier _ | .allReduce .. | .kill _ => True

/-- **A pace for the main programs**: they come from each collective to the next, whatever is in
the memory. -/
structure Pace (prog : Program n P σ V C) (α : Type) [LT α] where
  left : C → α
  next : ∀ k mem, (prog.next k mem).Approaches left (left k)

section Left

variable {α : Type} [PartialOrder α] (pace : Pace prog α) (plan : List (Collective τ))

/-- **The work left to a rank**: its collectives, its commands, and the steps of the reduction
it is in. -/
def Joint.left (x : Joint n P σ V C τ) (r : Fin n) : ℕ ×ₗ (α ×ₗ ℕ) :=
  toLex (2 * (plan.length - (x.history r).length) + (!(x.sys.rank r).pc.isUser).toNat,
    toLex (pace.left (x.sys.rank r).code,
      if (x.sys.rank r).reducing.isSome then 11 - (x.tree.node r).stage.index else 0))

/-- **A rank stands where it stood**, as far as its collectives and its main program go. -/
structure Joint.Stands (a : Action n) (x y : Joint n P σ V C τ) (r : Fin n) : Prop where
  left : y.left pace plan r = x.left pace plan r
  isUser : (y.sys.rank r).pc.isUser = (x.sys.rank r).pc.isUser
  history : y.history r = x.history r
  /-- If the step is one of the rank's main thread, it is a step of an activation or of
  `barrier`, and the rank is in no reduction. -/
  main : ∀ flag, a = .main r flag → (x.sys.rank r).reducing = none ∧
    ((x.sys.rank r).stack = [] → (x.sys.rank r).pc.Waits ∧ (y.sys.rank r).pc.Waits)

end Left

/-- **The steps of a main thread** outside of activations and reductions: it goes on in its main
program, enters a collective, or leaves or turns in `barrier`. -/
inductive Rank.Tops (ops : Reductions V τ) {α : Type} [LT α] (pace : Pace prog α)
    (s t : Rank n P σ V C) : Prop
  | goes (user : s.pc = .user) (stays : t.pc = .user) (none : s.enters prog ops = none)
      (less : pace.left t.code < pace.left s.code)
  | enters (user : s.pc = .user) (collective : Collective τ)
      (enters : s.enters prog ops = some collective)
  | leaves (waits : s.pc.Waits) (leaves : t.pc = .user)
  | turns (waits : s.pc.Waits) (stays : t.pc.Waits) (code : t.code = s.code)

theorem Move.tops [NeZero n] {α : Type} [LT α] (pace : Pace prog α)
    (alive : ∀ k mem k', prog.next k mem ≠ .kill k') {r : Fin n} {w : View n V}
    {s t : Rank n P σ V C} {sent : Option (Fin n × Packet n P)}
    (move : Move cfg (ops.program prog) r w s t sent) (idle : s.stack = [])
    (outside : s.reducing = none) (open_ : s.pc ≠ .join) (unthrown : t.pc.isThrown = false) :
    s.Tops ops pace t := by
  cases move with
  | @update ctx rest k k' mem run cmd =>
      have next : prog.next k s.mem = .update mem k' := cmd
      have less := pace.next k s.mem
      rw [next] at less
      cases run with
      | main user =>
          exact .goes user user
            (Rank.enters_of_running (.main user idle) (by simp [next]) (by simp [next])) less
      | handler busy => simp [idle] at busy
  | @asyncSelf ctx rest k k' payload m run cmd call =>
      have next : prog.next k s.mem = .async r payload k' := cmd
      have less := pace.next k s.mem
      rw [next] at less
      cases run with
      | main user =>
          exact .goes user user
            (Rank.enters_of_running (.main user idle) (by simp [next]) (by simp [next])) less
      | handler busy => simp [idle] at busy
  | @asyncRemote ctx rest k k' dest payload m frames run cmd call remote path =>
      have next : prog.next k s.mem = .async dest payload k' := cmd
      have less := pace.next k s.mem
      rw [next] at less
      cases run with
      | main user =>
          exact .goes user user
            (Rank.enters_of_running (.main user idle) (by simp [next]) (by simp [next])) less
      | handler busy => simp [idle] at busy
  | @callFlush ctx rest k k' frame run cmd =>
      have less := pace.next k s.mem
      cases run with
      | main user =>
          rcases cmd with ⟨dest, cmd, -⟩ | ⟨cmd, -⟩ <;>
          · have next : prog.next s.code s.mem = _ := cmd
            rw [next] at less
            exact .goes user user
              (Rank.enters_of_running (.main user idle) (by simp [next]) (by simp [next])) less
      | handler busy => simp [idle] at busy
  | @barrier k user _ cmd =>
      have next : prog.next s.code s.mem = .barrier k := cmd
      exact .enters user .barrier (by simp [Rank.enters, idle, user, next])
  | @reduce value k user _ cmd =>
      have next : prog.next s.code s.mem = .allReduce value k := cmd
      exact .enters user (.allReduce (ops.op value)) (by simp [Rank.enters, idle, user, next])
  | @kill k user _ cmd => exact absurd cmd (alive s.code s.mem k)
  | @reduced value k pc => simp [Rank.reducing_eq_some.mpr ⟨idle, pc⟩] at outside
  | joined pc => exact absurd pc open_
  | throw => simp [Pc.isThrown] at unthrown
  | leave pc => exact .leaves (by simp [pc, Pc.Waits]) rfl
  | sample pc | pending pc | confirm pc => exact .turns (by simp [pc, Pc.Waits]) trivial rfl
  | retry pc =>
      refine .turns ?_ trivial rfl
      rcases pc with ⟨first, pc⟩ | ⟨first, second, pc⟩ <;> simp [pc, Pc.Waits]
  | _ => simp [*] at idle

section Left

theorem Rank.reducing_eq_none {s : Rank n P σ V C} (outside : ∀ k, s.pc ≠ .reduce k) :
    s.reducing = none := by
  by_contra inside
  obtain ⟨k, reducing⟩ := Option.ne_none_iff_exists'.mp inside
  exact outside k (Rank.reducing_eq_some.mp reducing).2

theorem Pc.Waits.isUser {pc : Pc V C} (h : pc.Waits) : pc.isUser = false := by
  cases pc <;> first | rfl | exact h.elim

theorem Pc.Waits.reducing {s : Rank n P σ V C} (h : s.pc.Waits) : s.reducing = none :=
  Rank.reducing_eq_none fun k pc => by simp [pc, Pc.Waits] at h

variable {α : Type} [PartialOrder α] {pace : Pace prog α} {plan : List (Collective τ)}
variable {r : Fin n}

/-- A rank that does not move stands where it stood. -/
theorem Joint.Stands.of_passed (history : y.history r = x.history r)
    (pc : (y.sys.rank r).pc = (x.sys.rank r).pc) (code : (y.sys.rank r).code = (x.sys.rank r).code)
    (stack : (y.sys.rank r).stack = (x.sys.rank r).stack) (node : y.tree.node r = x.tree.node r)
    (passed : ∀ flag, a ≠ .main r flag) : Joint.Stands pace plan a x y r := by
  have reducing : (y.sys.rank r).reducing = (x.sys.rank r).reducing := by
    unfold Rank.reducing
    rw [pc, stack]
  refine ⟨?_, by rw [pc], history, fun flag acts => absurd acts (passed flag)⟩
  simp only [Joint.left, reducing, history, pc, code, node]

/-- **A main thread outside the reductions** has less left to do after its move, or its rank
stands where it stood. -/
theorem Joint.left_of_move [NeZero n]
    (reached : (comm cfg (ops.program prog) mem main).Reachable x.sys)
    (alive : ∀ k mem k', prog.next k mem ≠ .kill k') (planned : y.history r <+: plan)
    (unthrown : (y.sys.rank r).pc.isThrown = false) {flag : Bool} {w : View n V}
    {sent : Option (Fin n × Packet n P)} (open_ : (x.sys.rank r).pc ≠ .join)
    (outside : (x.sys.rank r).reducing = none)
    (move : Move cfg (ops.program prog) r w (x.sys.rank r) (y.sys.rank r) sent)
    (history : y.history r = x.history r ++ ((x.sys.rank r).enters prog ops).toList) :
    y.left pace plan r < x.left pace plan r ∨
      Joint.Stands pace plan (.main r flag) x y r := by
  have kept : (x.sys.rank r).enters prog ops = none → y.history r = x.history r := fun none => by
    rw [history, none, Option.toList_none, List.append_nil]
  by_cases idle : (x.sys.rank r).stack = []
  · cases move.tops pace alive idle outside open_ unthrown with
    | goes user stays none less =>
        left
        simp only [Joint.left, kept none, user, stays, Prod.Lex.toLex_lt_toLex]
        exact .inr ⟨trivial, .inl less⟩
    | enters user collective enters =>
        left
        have more := congrArg List.length history
        have within := planned.length_le
        simp only [enters, Option.toList_some, List.length_append, List.length_singleton] at more
        have before : (!(x.sys.rank r).pc.isUser).toNat = 0 := by rw [user]; rfl
        have after : (!(y.sys.rank r).pc.isUser).toNat ≤ 1 := Bool.toNat_le _
        simp only [Joint.left, Prod.Lex.toLex_lt_toLex]
        left
        omega
    | leaves waits leaves =>
        left
        have before : (!(x.sys.rank r).pc.isUser).toNat = 1 := by rw [waits.isUser]; rfl
        have after : (!(y.sys.rank r).pc.isUser).toNat = 0 := by rw [leaves]; rfl
        simp only [Joint.left, Prod.Lex.toLex_lt_toLex, kept (Rank.enters_of_pc waits.not_user)]
        left
        omega
    | turns waits stays code =>
        right
        have history := kept (Rank.enters_of_pc waits.not_user)
        refine ⟨?_, by rw [waits.isUser, stays.isUser], history,
          fun _ _ => ⟨outside, fun _ => ⟨waits, stays⟩⟩⟩
        simp only [Joint.left, history, code, waits.isUser, stays.isUser, waits.reducing,
          stays.reducing, Option.isSome_none, Bool.false_eq_true, ↓reduceIte]
  · right
    have top := move.sameTop idle
    obtain ⟨frame, rest, stack⟩ := List.exists_cons_of_ne_nil idle
    have history := kept (Rank.enters_of_busy stack)
    have inside : (y.sys.rank r).reducing = none := Rank.reducing_eq_none fun k pc => by
      rw [top.pc] at pc
      exact idle ((inTurn_of_reachable reached).entered r k pc).1
    refine ⟨?_, by rw [top.pc], history, fun _ _ => ⟨outside, fun free => absurd free idle⟩⟩
    simp only [Joint.left, history, top.pc, top.code, outside, inside, Option.isSome_none,
      Bool.false_eq_true, ↓reduceIte]

/-- **A main thread in a reduction** has less left to do after every step of its node. -/
theorem Joint.left_of_reduce [NeZero n] {k : V → C} (stack : (x.sys.rank r).stack = [])
    (pc : (x.sys.rank r).pc = .reduce k)
    (taken : Reduce.step cfg.synchronous (ops.calls (x.sys.rank r).otherPosts) r x.tree
      = some y.tree) (history : y.history = x.history)
    (goes : (x.tree.node r).returns (y.tree.node r) = none ∧ y.sys = x.sys ∨
      ∃ value, (x.tree.node r).returns (y.tree.node r) = some value ∧
        y.sys = { x.sys with
          rank := Function.update x.sys.rank r
            { x.sys.rank r with pc := .user, code := k value } }) :
    y.left pace plan r < x.left pace plan r := by
  have before : (!(x.sys.rank r).pc.isUser).toNat = 1 := by rw [pc]; rfl
  rcases goes with ⟨stays, same⟩ | ⟨value, -, returned⟩
  · obtain ⟨s, node, less⟩ := Reduce.step_node taken
    have here := Reduce.calls_of_returns taken stays
    have index := s.stage.index_le
    rw [node, Function.update_self] at here
    simp only [Reduce.Node.work, here] at less
    simp only [Joint.left, same, history, node, Function.update_self,
      Rank.reducing_eq_some.mpr ⟨stack, pc⟩, Option.isSome_some, ↓reduceIte,
      Prod.Lex.toLex_lt_toLex]
    exact .inr ⟨trivial, .inr ⟨trivial, by omega⟩⟩
  · have after : (!(y.sys.rank r).pc.isUser).toNat = 0 := by
      simp [returned, Pc.isUser]
    simp only [Joint.left, history, Prod.Lex.toLex_lt_toLex]
    left
    omega

/-- **No step leaves a rank with more work**, and a rank that moves without having less work
left is in an activation or in `barrier`. -/
theorem Joint.step_left [NeZero n]
    (reached : (comm cfg (ops.program prog) mem main).Reachable x.sys)
    (alive : ∀ k mem k', prog.next k mem ≠ .kill k') (open_ : ∀ r, (x.sys.rank r).pc ≠ .join)
    (planned : y.history r <+: plan) (unthrown : (y.sys.rank r).pc.isThrown = false)
    (taken : Joint.step cfg prog ops x a = some y) :
    y.left pace plan r < x.left pace plan r ∨ Joint.Stands pace plan a x y r := by
  rcases Joint.step_cases taken with ⟨i, src, rfl, moved, tree, history⟩ |
    ⟨i, flag, rfl, outside, moved, tree, history⟩ | ⟨i, flag, k, rfl, stack, pc, moved, history, goes⟩
  · right
    have quiet : (y.sys.rank r).pc = (x.sys.rank r).pc ∧
        (y.sys.rank r).code = (x.sys.rank r).code ∧
        (y.sys.rank r).stack = (x.sys.rank r).stack := by
      rcases Sys.step_cases moved with ⟨_, _, _, _, h, -⟩ | ⟨i', src', t, stream, -, receive, next⟩
      · cases h
      · rw [next]
        obtain ⟨listener, queue, eq⟩ := receive.frame r
        simp [eq]
    exact .of_passed (by rw [history]) quiet.1 quiet.2.1 quiet.2.2 (by rw [tree]) (by simp)
  · rcases Sys.step_cases moved with ⟨i', flag', t, sent, same, move, next⟩ | ⟨_, _, _, _, h, -⟩
    case inr => cases h
    cases same
    by_cases hr : r = i
    · subst hr
      have own : y.sys.rank r = t := by simp [next]
      refine Joint.left_of_move reached alive planned unthrown (open_ r) outside (own ▸ move) ?_
      rw [history, Function.update_self]
    · right
      have rank : y.sys.rank r = x.sys.rank r := by simp [next, hr]
      refine .of_passed ?_ (by rw [rank]) (by rw [rank]) (by rw [rank]) ?_ fun flag acts => ?_
      · rw [history, Function.update_of_ne hr]
      · rw [tree]
        exact Function.update_of_ne hr _ _
      · cases acts
        exact hr rfl
  · by_cases hr : r = i
    · subst hr
      exact .inl (Joint.left_of_reduce stack pc moved history goes)
    · right
      have rank : y.sys.rank r = x.sys.rank r := by
        rcases goes with ⟨-, same⟩ | ⟨value, -, returned⟩
        · rw [same]
        · simp [returned, hr]
      refine .of_passed (by rw [history]) (by rw [rank]) (by rw [rank]) (by rw [rank])
        ((Reduce.step_calls moved).1 r hr) fun flag acts => ?_
      cases acts
      exact hr rfl

end Left

/-- A budget of a program is one whatever the reductions of the program return. -/
def Budget.reductions [NeZero n] (b : Budget prog) (ops : Reductions V τ) :
    Budget (ops.program prog) :=
  ⟨b.inHandler, b.work, b.weight, b.start, b.next⟩

/-- A main program that is at its end stays there, whatever else moves. -/
theorem Rank.Finished.step {c d : Sys n P σ V C} (taken : Sys.step cfg prog c a = some d) {r : Fin n}
    (finished : (c.rank r).Finished prog) : (d.rank r).Finished prog := by
  obtain ⟨idle, user, mem, cmd⟩ := finished
  cases a with
  | main i flag =>
      by_cases hi : r = i
      · subst hi
        simp [Sys.step, mainStep, idle, topStep, user, cmd, userStep] at taken
      · obtain ⟨out, -, rfl⟩ := Option.map_eq_some_iff.mp taken
        simpa [hi] using ⟨idle, user, mem, cmd⟩
  | listen i src =>
      obtain ⟨⟨t, stream⟩, received, rfl⟩ := Option.map_eq_some_iff.mp taken
      by_cases hi : r = i
      · subst hi
        simp only [Function.update_self]
        rw [(Receive.of_listenStep received).quiet]
        exact ⟨idle, user, mem, cmd⟩
      · simpa [hi] using ⟨idle, user, mem, cmd⟩

/-! ## Runs -/

section Runs

variable [NeZero n] [Inhabited V] {α : Type} [PartialOrder α]
variable {ρ : (joint cfg prog ops mem main).Run} {plan : List (Collective τ)} {pace : Pace prog α}
variable {i : ℕ}

/-- **An orderly run**: no assertion fails, and all main programs call the collectives of the
plan. -/
structure Orderly (ρ : (joint cfg prog ops mem main).Run) (plan : List (Collective τ)) : Prop where
  passes : ∀ i a, ρ.label i = some a → (ρ.state i).Passes cfg prog ops a
  follows : ∀ i, (ρ.state i).Follows prog plan

namespace Orderly

theorem recorded (orderly : Orderly ρ plan) (i : ℕ) : (ρ.state i).Recorded ops :=
  recorded_of_reachable (ρ.reachableBy orderly.passes i).reachable

theorem unthrown (orderly : Orderly ρ plan) (i : ℕ) : (ρ.state i).Unthrown cfg :=
  unthrown_of_reachable (ρ.reachableBy orderly.passes i)

theorem sound (orderly : Orderly ρ plan) {calls : List (Reduce.Call n V)}
    (lists : Lists ops calls (ρ.state i).sys) : (ρ.state i).Sound cfg prog ops mem main calls :=
  sound_of_reachable (ρ.reachableBy orderly.passes i) lists

theorem exists_lists (orderly : Orderly ρ plan) (i : ℕ) :
    ∃ calls, Lists ops calls (ρ.state i).sys :=
  YGM.exists_lists (orderly.follows i) (orderly.recorded i)

theorem sys_step (orderly : Orderly ρ plan) (i : ℕ) (a : Action n) (label : ρ.label i = some a) :
    Sys.step cfg (ops.program prog) (ρ.state i).sys a = some (ρ.state (i + 1)).sys ∨
      (ρ.state (i + 1)).sys = (ρ.state i).sys := by
  obtain ⟨calls, lists⟩ := orderly.exists_lists (i + 1)
  have before := lists.of_prefix (Joint.step_posts (ρ.moves label))
  exact (orderly.sound before).sys_step (orderly.sound lists) before (ρ.moves label)

/-- **The run, seen from `comm`**: the steps inside a reduction are hidden. -/
noncomputable def comm (orderly : Orderly ρ plan) :
    (YGM.comm cfg (ops.program prog) mem main).Run :=
  ρ.seen Joint.sys rfl orderly.sys_step

theorem sys_reachable (orderly : Orderly ρ plan) (i : ℕ) :
    (YGM.comm cfg (ops.program prog) mem main).Reachable (ρ.state i).sys :=
  orderly.comm.reachable i

theorem comm_label (orderly : Orderly ρ plan) {a : Action n} :
    orderly.comm.label i = some a ↔ ρ.label i = some a ∧
      Sys.step cfg (ops.program prog) (ρ.state i).sys a = some (ρ.state (i + 1)).sys :=
  Machine.Run.seen_label

/-- A step of a main thread outside the reductions is a step of the run seen from `comm`. -/
theorem comm_label_of_outside (orderly : Orderly ρ plan) {r : Fin n} {flag : Bool}
    (label : ρ.label i = some (.main r flag))
    (outside : ((ρ.state i).sys.rank r).reducing = none) :
    orderly.comm.label i = some (.main r flag) := by
  refine orderly.comm_label.mpr ⟨label, ?_⟩
  have taken : Joint.step cfg prog ops (ρ.state i) (.main r flag) = some (ρ.state (i + 1)) :=
    ρ.moves label
  simp only [Joint.step, outside] at taken
  obtain ⟨sys, moved, next⟩ := Option.map_eq_some_iff.mp taken
  rw [moved, ← next]

end Orderly

/-- **From step `i` on no rank has less left to do**: in every step all ranks stand where they
stood. -/
def Settled (ρ : (joint cfg prog ops mem main).Run) (pace : Pace prog α)
    (plan : List (Collective τ)) (i : ℕ) : Prop :=
  ∀ j ≥ i, ∀ a, ρ.label j = some a → ∀ r,
    Joint.Stands pace plan a (ρ.state j) (ρ.state (j + 1)) r

/-- **Every orderly run settles**, as what is left to do can decrease only finitely often. -/
theorem exists_settled [WellFoundedLT α] (pace : Pace prog α) (plain : prog.Plain)
    (orderly : Orderly ρ plan) : ∃ i, Settled ρ pace plan i := by
  have step : ∀ r j a, ρ.label j = some a →
      (ρ.state (j + 1)).left pace plan r < (ρ.state j).left pace plan r ∨
        Joint.Stands pace plan a (ρ.state j) (ρ.state (j + 1)) r := by
    intro r j a label
    have plain' : (ops.program prog).Plain := plain.reductions ops
    exact Joint.step_left (orderly.sys_reachable j) plain.alive
      (open_of_reachable plain' (orderly.sys_reachable j)).join (orderly.follows (j + 1) r).1
      ((orderly.unthrown (j + 1)).1 r).1 (ρ.moves label)
  have falls : ∀ r j, (ρ.state (j + 1)).left pace plan r ≤ (ρ.state j).left pace plan r := by
    intro r j
    cases label : ρ.label j with
    | none => rw [ρ.rests label]
    | some a => exact (step r j a label).elim le_of_lt fun stands => stands.left.le
  obtain ⟨i, -, settled⟩ := Machine.Run.exists_forall (i := 0)
    (fun r i => ∀ j ≥ i, ∀ a, ρ.label j = some a →
      Joint.Stands pace plan a (ρ.state j) (ρ.state (j + 1)) r)
    (fun r i _ here j later k after => here k (later.trans after)) fun r => by
      obtain ⟨k, later, same⟩ := Machine.Run.exists_forall_eq (i := 0)
        (fun j => (ρ.state j).left pace plan r) fun j _ => falls r j
      refine ⟨k, later, fun j after a label => ?_⟩
      exact (step r j a label).resolve_left fun less => absurd (same j after) less.ne
  exact ⟨i, fun j later a label r => settled r j later a label⟩

namespace Settled

theorem mono (settled : Settled ρ pace plan i) {j : ℕ} (later : i ≤ j) : Settled ρ pace plan j :=
  fun k after => settled k (later.trans after)

theorem history (settled : Settled ρ pace plan i) {j : ℕ} (later : i ≤ j) (r : Fin n) :
    (ρ.state j).history r = (ρ.state i).history r ∧
      ((ρ.state j).sys.rank r).pc.isUser = ((ρ.state i).sys.rank r).pc.isUser := by
  induction j, later using Nat.le_induction with
  | base => exact ⟨rfl, rfl⟩
  | succ j later ih =>
      cases label : ρ.label j with
      | none => rwa [ρ.rests label]
      | some a =>
          have stands := settled j later a label r
          exact ⟨stands.history.trans ih.1, stands.isUser.trans ih.2⟩

/-- In a settled run, a rank in a reduction stays in it, and neither its contribution nor its
node nor the tree's messages change. -/
theorem reducing (settled : Settled ρ pace plan i) {r : Fin n} {k : V → C}
    (inside : ((ρ.state i).sys.rank r).reducing = some k) {j : ℕ} (later : i ≤ j) :
    ((ρ.state j).sys.rank r).reducing = some k ∧
      ((ρ.state j).sys.rank r).otherPosts = ((ρ.state i).sys.rank r).otherPosts ∧
      (ρ.state j).tree.node r = (ρ.state i).tree.node r ∧
      (ρ.state j).tree.net = (ρ.state i).tree.net ∧
      (ρ.state j).tree.bcasts = (ρ.state i).tree.bcasts := by
  induction j, later using Nat.le_induction with
  | base => exact ⟨inside, rfl, rfl, rfl, rfl⟩
  | succ j later ih =>
      cases label : ρ.label j with
      | none => rwa [ρ.rests label]
      | some a =>
          obtain ⟨here, posts, node, net, bcasts⟩ := ih
          rw [← posts, ← node, ← net, ← bcasts, ← here]
          rcases Joint.step_cases (ρ.moves label) with ⟨r', src, rfl, moved, tree, -⟩ |
            ⟨r', flag, rfl, outside, moved, tree, -⟩ | ⟨r', flag, k', rfl, stack, pc, -⟩
          · have quiet : ((ρ.state (j + 1)).sys.rank r).reducing
                  = ((ρ.state j).sys.rank r).reducing ∧
                ((ρ.state (j + 1)).sys.rank r).otherPosts
                  = ((ρ.state j).sys.rank r).otherPosts := by
              rcases Sys.step_cases moved with ⟨_, _, _, _, h, -⟩ | ⟨i', src', t, stream, -, receive, next⟩
              · cases h
              · rw [next]
                obtain ⟨listener, queue, eq⟩ := receive.frame r
                simp [eq, Rank.reducing]
            rw [tree]
            exact ⟨quiet.1, quiet.2, rfl, rfl, rfl⟩
          · have other : r ≠ r' := by
              rintro rfl
              rw [outside] at here
              cases here
            have rank : (ρ.state (j + 1)).sys.rank r = (ρ.state j).sys.rank r := by
              rcases Sys.step_cases moved with ⟨i', flag', t, sent, same, -, next⟩ | ⟨_, _, _, _, h, -⟩
              · cases same
                simp [next, other]
              · cases h
            rw [tree, rank]
            exact ⟨rfl, rfl, Function.update_of_ne other _ _, rfl, rfl⟩
          · have outside := ((settled j later _ label r').main flag rfl).1
            rw [Rank.reducing_eq_some.mpr ⟨stack, pc⟩] at outside
            cases outside

/-- **A rank in a reduction cannot move** in a settled run, since a fair run would let it. -/
theorem blocked (settled : Settled ρ pace plan i) (fair : Fair Joint.sys ρ) {r : Fin n}
    {k : V → C} (inside : ((ρ.state i).sys.rank r).reducing = some k) :
    Joint.step cfg prog ops (ρ.state i) (.main r true) = none := by
  by_contra able
  simp only [Joint.step, inside, Option.map_eq_none_iff] at able
  obtain ⟨j, later, -, a, label, flag, rfl⟩ := (fair.main r).exists_takes (P := fun _ => True)
    (i := i) trivial (fun _ _ _ _ => trivial) fun j later _ => by
      obtain ⟨here, posts, node, net, bcasts⟩ := settled.reducing inside later
      refine Machine.Run.enables_of_isSome (a := .main r true) ⟨true, rfl⟩ ?_
      show (Joint.step cfg prog ops (ρ.state j) (.main r true)).isSome
      simp only [Joint.step, here, Option.isSome_map]
      rw [posts, Reduce.step_isSome_congr node net bcasts]
      exact Option.isSome_iff_ne_none.mpr able
  have outside := ((settled j later _ label r).main flag rfl).1
  rw [(settled.reducing inside later).1] at outside
  cases outside

/-- **The reduction that a rank is in is not complete** in a settled run, since one of the ranks
in it would move. -/
theorem not_reduced (settled : Settled ρ pace plan i) (orderly : Orderly ρ plan)
    (fair : Fair Joint.sys ρ) {r : Fin n} {k : V → C}
    (pc : ((ρ.state i).sys.rank r).pc = .reduce k) :
    ¬ ∀ l, ((ρ.state i).sys.rank r).otherPosts.length
      ≤ ((ρ.state i).sys.rank l).otherPosts.length := by
  intro posted
  obtain ⟨calls, lists⟩ := orderly.exists_lists i
  have sound := orderly.sound lists
  have inside := sound.reducing r k pc
  obtain ⟨l, k', pc', y, taken⟩ := sound.reduces_some lists pc fun l => by
    have := posted l
    omega
  have idle := ((inTurn_of_reachable sound.sys).entered l k' pc').1
  rw [settled.blocked fair (Rank.reducing_eq_some.mpr ⟨idle, pc'⟩)] at taken
  cases taken

theorem reduced_eq_none (settled : Settled ρ pace plan i) (orderly : Orderly ρ plan)
    (fair : Fair Joint.sys ρ) {r : Fin n} {k : V → C}
    (pc : ((ρ.state i).sys.rank r).pc = .reduce k) :
    (ρ.state i).sys.reduced (ops.program prog) r = none := by
  have missing := settled.not_reduced orderly fair pc
  unfold Sys.reduced
  dsimp only
  refine dif_neg fun posted => missing fun l => ?_
  have := posted l
  omega

/-- **Seen from `comm` a settled run is fair**, as no reduction in it is complete. -/
theorem fair (settled : Settled ρ pace plan i) (orderly : Orderly ρ plan)
    (fair : Fair Joint.sys ρ) : Fair id orderly.comm := by
  refine ⟨fun r => (fair.main r).transfer (i := i) ?_,
    fun r => (fair.listener r).transfer (i := i) ?_, fun r tests k => ?_⟩
  · rintro j later ⟨_, t, ⟨flag, rfl⟩, taken⟩
    change Sys.step cfg (ops.program prog) (ρ.state j).sys (.main r flag) = some t at taken
    have outside : ((ρ.state j).sys.rank r).reducing = none := by
      by_contra inside
      obtain ⟨k, reducing⟩ := Option.ne_none_iff_exists'.mp inside
      obtain ⟨stack, pc⟩ := Rank.reducing_eq_some.mp reducing
      have none := (settled.mono later).reduced_eq_none orderly fair pc
      simp [Sys.step, mainStep, stack, topStep, pc, Sys.view, none] at taken
    constructor
    · refine Machine.Run.enables_of_isSome (a := .main r flag) ⟨flag, rfl⟩ ?_
      show (Joint.step cfg prog ops (ρ.state j) (.main r flag)).isSome
      simp only [Joint.step, outside, taken, Option.map_some, Option.isSome_some]
    · rintro ⟨_, label, flag', rfl⟩
      exact ⟨_, orderly.comm_label_of_outside label outside, flag', rfl⟩
  · rintro j - ⟨_, t, ⟨src, rfl⟩, taken⟩
    change Sys.step cfg (ops.program prog) (ρ.state j).sys (.listen r src) = some t at taken
    constructor
    · refine Machine.Run.enables_of_isSome (a := .listen r src) ⟨src, rfl⟩ ?_
      show (Joint.step cfg prog ops (ρ.state j) (.listen r src)).isSome
      simp only [Joint.step, taken, Option.map_some, Option.isSome_some]
    · rintro ⟨_, label, src', rfl⟩
      refine ⟨_, orderly.comm_label.mpr ⟨label, ?_⟩, src', rfl⟩
      rcases Joint.step_cases (ρ.moves label) with ⟨_, _, same, moved, -⟩ | ⟨_, _, h, -⟩ |
        ⟨_, _, _, h, -⟩
      · exact moved
      · cases h
      · cases h
  · have tests' : ∀ m, ∃ j ≥ m, Tests Joint.sys ρ r j := by
      intro m
      obtain ⟨j, later, ⟨flag, label⟩, rest⟩ := tests m
      exact ⟨j, later, ⟨flag, (orderly.comm_label.mp label).1⟩, rest⟩
    obtain ⟨j, later, ⟨-, idle, ⟨first, pc⟩, complete⟩, truly⟩ := fair.test r tests' k
    have outside : ((ρ.state j).sys.rank r).reducing = none :=
      Rank.reducing_eq_none fun k reduce => by simp [pc] at reduce
    have seen := orderly.comm_label_of_outside truly outside
    exact ⟨j, later, ⟨⟨true, seen⟩, idle, ⟨first, pc⟩, complete⟩, seen⟩

/-- **Nothing is spent in a settled run, from some step on**: the steps of main threads are
turns of activations and of `barrier`. -/
theorem exists_turning (settled : Settled ρ pace plan i) (orderly : Orderly ρ plan)
    (b : Budget prog) : ∃ k ≥ i, Turning orderly.comm (b.reductions ops) k := by
  refine YGM.exists_turning (b.reductions ops) fun j later r flag label idle => ?_
  exact ((settled j later _ (orderly.comm_label.mp label).1 r).main flag rfl).2 idle

end Settled

/-! ## The end -/

theorem Orderly.finished (orderly : Orderly ρ plan) {r : Fin n}
    (finished : ((ρ.state i).sys.rank r).Finished prog) {j : ℕ} (later : i ≤ j) :
    ((ρ.state j).sys.rank r).Finished prog := by
  induction j, later using Nat.le_induction with
  | base => exact finished
  | succ j later ih =>
      cases label : ρ.label j with
      | none => rwa [ρ.rests label]
      | some a =>
          rcases orderly.sys_step j a label with moved | same
          · exact Rank.Finished.step moved ih
          · rwa [same]

namespace Settled

/-- **The rank behind all others is not in `barrier`** in a settled run, since all would be in
it and it would end. -/
theorem not_waits (settled : Settled ρ pace plan i) (orderly : Orderly ρ plan)
    (fair : Fair Joint.sys ρ) (b : Budget prog) (plain : prog.Plain)
    (room : 8 ≤ cfg.bufferCapacity) {least : Fin n}
    (entered : ∀ r, (ρ.state i).history least <+: (ρ.state i).history r) :
    ¬ ((ρ.state i).sys.rank least).pc.Waits := by
  intro inside
  have fair' := settled.fair orderly fair
  have plain' : (ops.program prog).Plain := plain.reductions ops
  set e := ((ρ.state i).sys.rank least).epoch with epoch
  have caught : ∀ j ≥ i, ¬ ((ρ.state j).sys.rank least).Dismissed e := by
    rintro j later (⟨user, -⟩ | ⟨first, second, thrown⟩)
    · have same := (settled.history later least).2
      rw [inside.isUser, user] at same
      cases same
    · have passes := ((orderly.unthrown j).1 least).1
      rw [thrown] at passes
      cases passes
  have stays : ∀ j ≥ i, ((ρ.state j).sys.rank least).pc.Waits ∧
      ((ρ.state j).sys.rank least).epoch = e := by
    intro j later
    refine (inside_or (ρ := orderly.comm) inside epoch.symm later).resolve_right ?_
    rintro ⟨⟨k, after, dismissed⟩, -⟩
    exact caught k after dismissed
  have gathered : ∀ j ≥ i, (ρ.state j).sys.Gathered e := by
    intro j later
    obtain ⟨waits, here⟩ := stays j later
    have each : ∀ r, ((ρ.state j).sys.rank r).epoch = e ∧
        ((ρ.state j).sys.rank r).pc.inBarrier = true := by
      intro r
      -- nobody is out of the barrier
      have behind : ((ρ.state j).sys.rank r).epoch ≤ e := by
        by_contra ahead
        have within := Sys.epoch_le_round (orderly.sys_reachable j) r
        obtain ⟨k, after, dismissed⟩ := exists_dismissed (ρ := orderly.comm) fair' waits here
          (lt_of_lt_of_le (not_le.mp ahead) within)
        exact caught k (later.trans after) dismissed
      -- and all have entered it
      have more : ((ρ.state j).sys.rank least).entered ≤ ((ρ.state j).sys.rank r).entered := by
        rw [← (orderly.recorded j).barriers, ← (orderly.recorded j).barriers,
          (settled.history later least).1, (settled.history later r).1]
        exact (entered r).sublist.countP_le
      simp only [Rank.entered, here, waits.inBarrier, Bool.toNat_true] at more
      cases inBarrier : ((ρ.state j).sys.rank r).pc.inBarrier with
      | true => exact ⟨by rw [inBarrier, Bool.toNat_true] at more; omega, rfl⟩
      | false =>
          rw [inBarrier, Bool.toNat_false] at more
          omega
    refine ⟨fun r => ?_, fun r => (each r).1⟩
    have passes := ((orderly.unthrown j).1 r).1
    have inBarrier := (each r).2
    cases pc : ((ρ.state j).sys.rank r).pc with
    | sample | test | second => trivial
    | user | reduce | join => simp [pc, Pc.inBarrier] at inBarrier
    | thrown => simp [pc, Pc.isThrown] at passes
  obtain ⟨k, later, turning⟩ := settled.exists_turning orderly b
  have circling : Circling orderly.comm (b.reductions ops) e k :=
    ⟨turning, fun j after => gathered j (later.trans after)⟩
  exact circling.impossible fair' plain' room least

/-- **A rank that is not finished is not in its main program** in a settled run, since it would
go on there. -/
theorem not_user (settled : Settled ρ pace plan i) (orderly : Orderly ρ plan)
    (fair : Fair Joint.sys ρ) {b : Budget prog}
    (turning : Turning orderly.comm (b.reductions ops) i) {r : Fin n}
    (idle : ((ρ.state i).sys.rank r).stack = [])
    (unfinished : ¬ ((ρ.state i).sys.rank r).Finished prog) :
    ((ρ.state i).sys.rank r).pc ≠ .user := by
  intro user
  obtain ⟨j, -, same, flag, -, turn⟩ := turning.exists_main (settled.fair orderly fair) r
    fun j later same => by
      change (ρ.state j).sys.rank r = (ρ.state i).sys.rank r at same
      show (mainStep cfg (ops.program prog) r _ ((ρ.state j).sys.rank r)).isSome
      simp only [same, mainStep, idle, topStep, user]
      show (userStep cfg (ops.program prog) r ((ρ.state i).sys.rank r) none []
        (prog.next ((ρ.state i).sys.rank r).code ((ρ.state i).sys.rank r).mem)).isSome
      cases cmd : prog.next ((ρ.state i).sys.rank r).code ((ρ.state i).sys.rank r).mem with
      | ret mem => exact absurd ⟨idle, user, mem, cmd⟩ unfinished
      | _ => rfl
  change (ρ.state j).sys.rank r = (ρ.state i).sys.rank r at same
  refine (turn.goes_of_idle ?_).not_user ?_
  · show ((ρ.state j).sys.rank r).stack = []
    rw [same, idle]
  · show ((ρ.state j).sys.rank r).pc = .user
    rw [same, user]

/-- **All main programs come to their end** in a fair run that has settled. -/
theorem exists_finished (settled : Settled ρ pace plan i) (orderly : Orderly ρ plan)
    (fair : Fair Joint.sys ρ) (b : Budget prog) (plain : prog.Plain)
    (room : 8 ≤ cfg.bufferCapacity) : ∃ k, ∀ r, ((ρ.state k).sys.rank r).Finished prog := by
  have plain' : (ops.program prog).Plain := plain.reductions ops
  by_contra never
  -- from step `k` on it is known who gets to the end
  obtain ⟨k, later, known⟩ := Machine.Run.exists_forall (i := i)
    (fun r k => ((ρ.state k).sys.rank r).Finished prog ∨
      ∀ l ≥ i, ¬ ((ρ.state l).sys.rank r).Finished prog)
    (fun r j _ here l after => here.imp_left fun finished => orderly.finished finished after)
    fun r => by
      by_cases ends : ∃ l ≥ i, ((ρ.state l).sys.rank r).Finished prog
      · obtain ⟨l, later, finished⟩ := ends
        exact ⟨l, later, .inl finished⟩
      · exact ⟨i, le_rfl, .inr fun l later finished => ends ⟨l, later, finished⟩⟩
  obtain ⟨r, unfinished⟩ : ∃ r, ¬ ((ρ.state k).sys.rank r).Finished prog := by
    by_contra all
    simp only [not_exists, not_not] at all
    exact never ⟨k, all⟩
  obtain ⟨least, notDone, entered⟩ := Joint.exists_least (orderly.follows k) unfinished
  have forever := (known least).resolve_left notDone
  obtain ⟨m, after, turning⟩ := (settled.mono later).exists_turning orderly b
  obtain ⟨j, beyond, idle, -⟩ := turning.exists_idle (settled.fair orderly fair) plain' room least
  have reaches := later.trans (after.trans beyond)
  have settled' := settled.mono reaches
  have entered' : ∀ r, (ρ.state j).history least <+: (ρ.state j).history r := by
    intro r
    rw [((settled.mono later).history (after.trans beyond) least).1,
      ((settled.mono later).history (after.trans beyond) r).1]
    exact entered r
  have waits := settled'.not_waits orderly fair b plain room entered'
  have user := settled'.not_user orderly fair (turning.mono beyond) idle (forever j reaches)
  cases pc : ((ρ.state j).sys.rank least).pc with
  | user => exact user pc
  | sample | test | second => exact waits (by simp [pc, Pc.Waits])
  | reduce k => exact settled'.not_reduced orderly fair pc ((orderly.recorded j).posts_le entered')
  | join => exact (open_of_reachable plain' (orderly.sys_reachable j)).join least pc
  | thrown first second =>
      have passes := ((orderly.unthrown j).1 least).1
      simp [pc, Pc.isThrown] at passes

end Settled

/-- **Programs end.**  In a fair run in which no assertion fails, all main programs come to the
end of their plan, whatever the collectives and calls on the way. -/
theorem program_ends [WellFoundedLT α] (b : Budget prog) (pace : Pace prog α)
    (alive : ∀ k mem k', prog.next k mem ≠ .kill k') (room : 8 ≤ cfg.bufferCapacity)
    (fair : Fair Joint.sys ρ) (orderly : Orderly ρ plan) :
    ∃ i, ∀ j ≥ i, ∀ r, ((ρ.state j).sys.rank r).Finished prog := by
  have plain := b.plain alive
  obtain ⟨i, settled⟩ := exists_settled pace plain orderly
  obtain ⟨k, all⟩ := settled.exists_finished orderly fair b plain room
  exact ⟨k, fun j after r => orderly.finished (all r) after⟩

end Runs

/-! ## A run -/

def Cmd.isRet : Cmd n P σ V C → Bool
  | .ret _ => true
  | _ => false

theorem Rank.finished_iff {s : Rank n P σ V C} : s.Finished prog ↔
    s.stack.isEmpty = true ∧ s.pc.isUser = true ∧ (prog.next s.code s.mem).isRet = true := by
  refine and_congr List.isEmpty_iff.symm (and_congr ⟨fun user => ?_, Pc.eq_user⟩ ?_)
  · rw [user]
    rfl
  · cases prog.next s.code s.mem <;> simp [Cmd.isRet]

instance (s : Rank n P σ V C) : Decidable (s.Finished prog) :=
  decidable_of_iff _ Rank.finished_iff.symm

instance [DecidableEq τ] (plan : List (Collective τ)) (x : Joint n P σ V C τ) :
    Decidable (x.Follows prog plan) :=
  inferInstanceAs (Decidable (∀ _, _ ∧ _))

/-- The budget of `errands`, whose handlers do nothing. -/
def errandsBudget (n : ℕ) : Budget (errands n) where
  inHandler code := code = []
  work _ := 0
  weight _ := 1
  start _ _ := ⟨rfl, Nat.one_pos⟩
  next := by
    rintro code mem rfl
    trivial

def errandsPace (n : ℕ) : Pace (errands n) ℕ where
  left := List.length
  next := by
    rintro (_ | ⟨_ | _ | _, k⟩) mem
    · trivial
    · exact Nat.lt_succ_self _
    · trivial
    · trivial

/-- The run in which rank 0 sends a large message while rank 1 is in `barrier` already, and both
then reduce. -/
def errandsRun : (joint ⟨8, true⟩ (errands 2) sums (fun _ => ())
    ![[.async 1 0, .barrier, .allReduce 5], [.barrier, .allReduce 7]]).Run :=
  Machine.play _ ([.main 0 true, .main 1 true, .main 0 true, .listen 1 0, .main 0 true, .main 1 true,
    .main 0 true, .listen 1 0] ++ (List.replicate 35 [.main 0 true, .main 1 true]).flatten)

theorem program_ends_errands :
    (Fair Joint.sys errandsRun ∧ Orderly errandsRun [.barrier, .allReduce ()]) ∧
      ∃ i, ∀ j ≥ i, ∀ r, ((errandsRun.state j).sys.rank r).Finished (errands 2) := by
  have fair : Fair Joint.sys errandsRun := by
    refine fair_play Joint.sys fun a => ?_
    cases a with
    | main r flag =>
        revert r flag
        decide +kernel
    | listen r src =>
        revert r src
        decide +kernel
  have each : ∀ i, (errandsRun.state i).Unthrown ⟨8, true⟩ ∧
      (errandsRun.state i).Follows (errands 2) [.barrier, .allReduce ()] := by
    refine Machine.play_forall (P := fun x => Joint.Unthrown ⟨8, true⟩ x ∧
      Joint.Follows (errands 2) [.barrier, .allReduce ()] x) ?_
    decide +kernel
  have orderly : Orderly errandsRun [.barrier, .allReduce ()] := by
    refine ⟨fun i a label y taken => ?_, fun i => (each i).2⟩
    rw [← Option.some.inj ((errandsRun.moves label).symm.trans taken)]
    exact (each (i + 1)).1
  exact ⟨⟨fair, orderly⟩, program_ends (errandsBudget 2) (errandsPace 2) (errands_plain 2).alive
    (by decide) fair orderly⟩

end YGM
