import YGM.Comm.Joint

/-!
# Collectives in the same order

MPI asks that all ranks call the collectives of a communicator in the same order, and the main
programs call two kinds of them: `barrier` and `all_reduce` (`Joint.Follows`).  The history of a
rank counts the barriers it has entered and the reductions it has contributed to
(`recorded_of_reachable`), so main programs that keep the order contribute to the same calls
(`exists_lists`).

Then the message-level reduction refines the one of `comm` (`joint_refines`).
-/

namespace YGM

variable {n : ℕ} {P σ V C τ : Type}

/-! ## The collectives a main program has entered -/

def Collective.isBarrier : Collective τ → Bool
  | .barrier => true
  | .allReduce _ => false

def Collective.op : Collective τ → Option τ
  | .barrier => none
  | .allReduce op => some op

/-- The number of barriers that the main program has entered: those it has left, and the one it
is in. -/
def Rank.entered (s : Rank n P σ V C) : ℕ :=
  s.epoch + s.pc.inBarrier.toNat

theorem Rank.enters_of_busy {prog : Program n P σ V C} {ops : Reductions V τ}
    {s : Rank n P σ V C} {frame : Frame n P C} {rest : List (Frame n P C)}
    (stack : s.stack = frame :: rest) : s.enters prog ops = none := by
  unfold Rank.enters
  rw [stack]

theorem Rank.enters_of_pc {prog : Program n P σ V C} {ops : Reductions V τ}
    {s : Rank n P σ V C} (inside : s.pc ≠ .user) : s.enters prog ops = none := by
  unfold Rank.enters
  split
  · rename_i user
    exact absurd user inside
  · rfl

/-- User code whose next command is neither `barrier` nor a reduction enters no collective. -/
theorem Rank.enters_of_running {prog : Program n P σ V C} {ops : Reductions V τ}
    {s : Rank n P σ V C} {ctx : Option (Ctx n P)} {rest : List (Frame n P C)} {k : C}
    (run : Running s ctx rest k) (barrier : ∀ k', prog.next k s.mem ≠ .barrier k')
    (reduce : ∀ value k', prog.next k s.mem ≠ .allReduce value k') :
    s.enters prog ops = none := by
  cases run with
  | main pc stack => simp only [Rank.enters, pc, stack]
  | handler stack => exact enters_of_busy stack

/-- **A move enters exactly the collective that `Rank.enters` names**: one more barrier, one
more contribution to a reduction of that operation, or none. -/
theorem Move.enters [NeZero n] {cfg : Config} {prog : Program n P σ V C} {ops : Reductions V τ}
    {r : Fin n} {w : View n V} {s t : Rank n P σ V C} {sent : Option (Fin n × Packet n P)}
    (move : Move cfg (ops.program prog) r w s t sent) :
    t.entered = s.entered + (s.enters prog ops).toList.countP Collective.isBarrier ∧
      t.otherPosts.map ops.op
        = s.otherPosts.map ops.op ++ (s.enters prog ops).toList.filterMap Collective.op := by
  have same : s.enters prog ops = none → t.epoch + t.pc.inBarrier.toNat = s.entered →
      t.otherPosts = s.otherPosts → t.entered
        = s.entered + (s.enters prog ops).toList.countP Collective.isBarrier ∧
      t.otherPosts.map ops.op
        = s.otherPosts.map ops.op ++ (s.enters prog ops).toList.filterMap Collective.op := by
    intro none entered posts
    rw [none, posts, ← entered]
    simp [Rank.entered]
  cases move with
  | @barrier k pc stack cmd =>
      have enters : s.enters prog ops = some .barrier := by
        have next : prog.next s.code s.mem = .barrier k := cmd
        simp [Rank.enters, pc, stack, next]
      simp [enters, Rank.entered, pc, Pc.inBarrier, Collective.isBarrier, Collective.op]
  | @reduce value k pc stack cmd =>
      have enters : s.enters prog ops = some (.allReduce (ops.op value)) := by
        have next : prog.next s.code s.mem = .allReduce value k := cmd
        simp [Rank.enters, pc, stack, next]
      simp [enters, Rank.entered, pc, Pc.inBarrier, Collective.isBarrier, Collective.op]
  | @update ctx rest k k' mem run cmd =>
      have next : prog.next k s.mem = .update mem k' := cmd
      exact same (Rank.enters_of_running run (by simp [next]) (by simp [next]))
        (by simp [Rank.entered]) (by simp)
  | @asyncSelf ctx rest k k' payload m run cmd call =>
      have next : prog.next k s.mem = .async r payload k' := cmd
      exact same (Rank.enters_of_running run (by simp [next]) (by simp [next]))
        (by simp [Rank.entered, Rank.call]) (by simp [Rank.call])
  | @asyncRemote ctx rest k k' dest payload m frames run cmd call remote path =>
      have next : prog.next k s.mem = .async dest payload k' := cmd
      exact same (Rank.enters_of_running run (by simp [next]) (by simp [next]))
        (by simp [Rank.entered, Rank.call]) (by simp [Rank.call])
  | @callFlush ctx rest k k' frame run cmd =>
      have quiet : (∀ k'', prog.next k s.mem ≠ .barrier k'') ∧
          ∀ value k'', prog.next k s.mem ≠ .allReduce value k'' := by
        rcases cmd with ⟨dest, cmd, -⟩ | ⟨cmd, -⟩ <;>
        · change prog.next k s.mem = _ at cmd
          simp [cmd]
      exact same (Rank.enters_of_running run quiet.1 quiet.2)
        (by simp [Rank.entered, Rank.call]) (by simp [Rank.call])
  | @kill k pc stack cmd =>
      have next : prog.next s.code s.mem = .kill k := cmd
      exact same (Rank.enters_of_running (.main pc stack) (by simp [next]) (by simp [next]))
        (by simp [Rank.entered, pc, Pc.inBarrier]) rfl
  | reduced pc stack | joined pc stack | sample pc stack | pending pc stack | confirm pc stack
  | leave pc stack | throw pc stack =>
      exact same (Rank.enters_of_pc (by simp [pc])) (by simp [Rank.entered, pc, Pc.inBarrier]) rfl
  | retry pc stack result nonzero =>
      rcases pc with ⟨first, pc⟩ | ⟨first, second, pc⟩ <;>
      exact same (Rank.enters_of_pc (by simp [pc])) (by simp [Rank.entered, pc, Pc.inBarrier]) rfl
  | retSelf stack | retRemote stack | silent frames stack | store stack | announce stack
  | large stack | flush stack | pop stack | parsed stack | parse stack =>
      exact same (Rank.enters_of_busy stack) rfl rfl

/-- **The history counts what has been entered**: the barriers in it are the barriers entered,
and the reductions in it are those contributed to, in order. -/
structure Joint.Recorded (ops : Reductions V τ) (x : Joint n P σ V C τ) : Prop where
  barriers : ∀ r, (x.history r).countP Collective.isBarrier = (x.sys.rank r).entered
  reductions : ∀ r, (x.history r).filterMap Collective.op = (x.sys.rank r).otherPosts.map ops.op

section Runs

variable [NeZero n] {cfg : Config} {prog : Program n P σ V C}
variable {ops : Reductions V τ} {mem : Fin n → σ} {main : Fin n → C} {x : Joint n P σ V C τ}

theorem recorded_of_reachable [Inhabited V] (h : (joint cfg prog ops mem main).Reachable x) :
    x.Recorded ops := by
  refine h.invariant (I := Joint.Recorded ops) ⟨fun _ => rfl, fun _ => rfl⟩ ?_
  intro x a y _ inv taken
  rcases Joint.step_cases taken with ⟨r, src, rfl, moved, -, history⟩ |
    ⟨r, flag, rfl, -, moved, -, history⟩ | ⟨r, flag, k, rfl, -, pc, -, history, goes⟩
  · -- a listener
    rcases Sys.step_cases moved with ⟨_, _, _, _, h, -⟩ | ⟨i, src', t, stream, -, receive, next⟩
    · cases h
    · have quiet : ∀ j, (y.sys.rank j).entered = (x.sys.rank j).entered ∧
          (y.sys.rank j).otherPosts = (x.sys.rank j).otherPosts := by
        intro j
        rw [next]
        obtain ⟨listener, queue, eq⟩ := receive.frame j
        simp [eq, Rank.entered]
      refine ⟨fun j => ?_, fun j => ?_⟩
      · rw [history, (quiet j).1, inv.barriers j]
      · rw [history, (quiet j).2, inv.reductions j]
  · -- a main thread outside the reductions
    rcases Sys.step_cases moved with ⟨i, flag', t, sent, same, move, next⟩ | ⟨_, _, _, _, h, -⟩
    case inr => cases h
    cases same
    obtain ⟨entered, posts⟩ := move.enters
    refine ⟨fun j => ?_, fun j => ?_⟩
    · by_cases hj : j = r
      · subst hj
        simp [history, next, inv.barriers, entered]
      · simp [history, next, inv.barriers, hj]
    · by_cases hj : j = r
      · subst hj
        simp [history, next, inv.reductions, posts]
      · simp [history, next, inv.reductions, hj]
  · -- a main thread in a reduction
    have quiet : ∀ j, (y.sys.rank j).entered = (x.sys.rank j).entered ∧
        (y.sys.rank j).otherPosts = (x.sys.rank j).otherPosts := by
      intro j
      rcases goes with ⟨-, same⟩ | ⟨value, -, returned⟩
      · rw [same]
        exact ⟨rfl, rfl⟩
      · rw [returned]
        by_cases hj : j = r
        · subst hj
          simp [Rank.entered, pc, Pc.inBarrier]
        · simp [hj]
    refine ⟨fun j => ?_, fun j => ?_⟩
    · rw [history, (quiet j).1, inv.barriers j]
    · rw [history, (quiet j).2, inv.reductions j]

/-- In every state of a run in which no step makes an assertion fail, no assertion has failed. -/
theorem unthrown_of_reachable [Inhabited V]
    (h : (joint cfg prog ops mem main).ReachableBy (Joint.Passes cfg prog ops) x) :
    x.Unthrown cfg := by
  refine h.invariant (I := Joint.Unthrown cfg) ⟨fun _ => ⟨rfl, rfl⟩, ?_⟩ ?_
  · intro r src _ announces
    cases announces
  · intro x a y _ _ passes taken
    exact passes y taken

/-! ## The same order -/

/-- The main program of a rank is at its end: nothing is on the stack, and its next command is
to return. -/
def Rank.Finished (prog : Program n P σ V C) (s : Rank n P σ V C) : Prop :=
  s.stack = [] ∧ s.pc = .user ∧ ∃ mem, prog.next s.code s.mem = .ret mem

/-- **All main programs call the collectives of `plan`**, in this order, and those that are
finished have called all of them. -/
def Joint.Follows (prog : Program n P σ V C) (plan : List (Collective τ))
    (x : Joint n P σ V C τ) : Prop :=
  ∀ r, x.history r <+: plan ∧ ((x.sys.rank r).Finished prog → x.history r = plan)

omit [NeZero n] in
theorem Reductions.alike {op op' : τ} (same : op = op') {input input' : Fin n → V}
    (typed : ∀ r, ops.op (input r) = op) (typed' : ∀ r, ops.op (input' r) = op') :
    (ops.call op input typed).Alike (ops.call op' input' typed') := by
  subst same
  exact ⟨rfl, rfl, rfl⟩

/-- **The calls of the reductions**, in hindsight: main programs that follow one plan have
contributed to one list of calls. -/
theorem exists_lists {plan : List (Collective τ)} (follows : x.Follows prog plan)
    (recorded : x.Recorded ops) : ∃ calls, Lists ops calls x.sys := by
  obtain ⟨most, -, maximal⟩ := Finset.exists_max_image Finset.univ
    (fun i => (x.sys.rank i).otherPosts.length) ⟨0, Finset.mem_univ 0⟩
  set last := (x.sys.rank most).otherPosts
  -- contributions to one reduction are to one reduction of the plan
  have typed : ∀ (r : Fin n) (j : ℕ) (hj : j < last.length),
      ops.op ((x.sys.rank r).otherPosts[j]?.getD last[j]) = ops.op last[j] := by
    intro r j hj
    by_cases posted : j < (x.sys.rank r).otherPosts.length
    · have planned : ∀ i, (x.sys.rank i).otherPosts.map ops.op <+: plan.filterMap Collective.op := by
        intro i
        rw [← recorded.reductions i]
        exact (follows i).1.filterMap _
      have one := List.prefix_iff_getElem.mp (planned r)
      have two := List.prefix_iff_getElem.mp (planned most)
      obtain ⟨short, same⟩ := one
      obtain ⟨long, same'⟩ := two
      rw [List.getElem?_eq_getElem posted, Option.getD_some]
      have left := same j (by simpa using posted)
      have right := same' j (by simpa using hj)
      rw [List.getElem_map] at left right
      rw [left, right]
    · rw [List.getElem?_eq_none (Nat.le_of_not_lt posted), Option.getD_none]
  refine ⟨List.ofFn fun j : Fin last.length =>
    ops.call (ops.op last[j]) (fun r => (x.sys.rank r).otherPosts[j.val]?.getD last[j])
      fun r => typed r j j.isLt, ?_⟩
  intro r j value found
  obtain ⟨short, rfl⟩ := List.getElem?_eq_some_iff.mp found
  have within : j < last.length := lt_of_lt_of_le short (maximal r (Finset.mem_univ r))
  have same := typed r j within
  rw [found, Option.getD_some] at same
  refine ⟨_, by rw [List.getElem?_ofFn, dif_pos within], ?_, ?_⟩
  · simp [Reductions.call, found]
  · exact Reductions.alike same _ _

/-! ## The tree and the collective -/

/-- **A state of a run, seen from `comm`**: what the rest of the system and the results of the
reductions are. -/
structure Joint.Refines (cfg : Config) (prog : Program n P σ V C) (ops : Reductions V τ)
    (mem : Fin n → σ) (main : Fin n → C) (x : Joint n P σ V C τ) : Prop where
  /-- Without the tree it is a state of `comm`, where a reduction is one collective. -/
  sys : (comm cfg (ops.program prog) mem main).Reachable x.sys
  /-- Whatever an `all_reduce` has returned is the merge, along the tree, of what all ranks have
  contributed to it. -/
  returned : ∀ (r : Fin n) (j : ℕ) (value : V), (x.tree.node r).returned[j]? = some value →
    ∃ posted : ∀ i, j < (x.sys.rank i).otherPosts.length,
      value = ops.combine fun i => (x.sys.rank i).otherPosts.get ⟨j, posted i⟩
  /-- A rank that is in no reduction has had the results of all its reductions. -/
  complete : ∀ r, (∀ k, (x.sys.rank r).pc ≠ .reduce k) →
    (x.tree.node r).returned.length = (x.sys.rank r).otherPosts.length

/-- **The message-level reduction refines the collective**, in every state of a run in which no
assertion fails and the main programs follow one plan. -/
theorem joint_refines [Inhabited V]
    (h : (joint cfg prog ops mem main).ReachableBy (Joint.Passes cfg prog ops) x)
    {plan : List (Collective τ)} (follows : x.Follows prog plan) :
    x.Refines cfg prog ops mem main := by
  obtain ⟨calls, lists⟩ := exists_lists follows (recorded_of_reachable h.reachable)
  have sound := sound_of_reachable h lists
  have told : ∀ r, ((x.told calls).node r).returned = (x.tree.node r).returned ∧
      ((x.told calls).node r).calls = (x.tree.node r).calls := by
    intro r
    unfold Joint.told Reduce.Node.begin
    dsimp only
    split <;> exact ⟨rfl, rfl⟩
  have all : ∀ r, (x.tree.node r).returned
      = (calls.take (x.tree.node r).calls).map fun call => call.value 0 := by
    intro r
    rw [← (told r).1, ← (told r).2]
    exact (sound.inStep.node r).returned
  have within : ∀ r, (x.tree.node r).calls ≤ calls.length := by
    intro r
    rw [← (told r).2]
    exact (sound.inStep.node r).calls_le
  refine ⟨sound.sys, fun r j value found => ?_, fun r free => ?_⟩
  · rw [all r, List.getElem?_map, Option.map_eq_some_iff] at found
    obtain ⟨call, at_call, rfl⟩ := found
    have early := (List.getElem?_eq_some_iff.mp at_call).1
    rw [List.length_take] at early
    rw [List.getElem?_take_of_lt (by omega)] at at_call
    have own : j < (x.sys.rank r).otherPosts.length := by
      by_cases inside : ∃ k, (x.sys.rank r).pc = .reduce k
      · obtain ⟨k, pc⟩ := inside
        have := sound.reducing r k pc
        omega
      · have := sound.free r fun k pc => inside ⟨k, pc⟩
        omega
    have posted := sound.posted sound.inStep (Joint.told_made sound.made) (fun _ _ => rfl)
      (by rw [(told r).2]; omega) own
    exact ⟨posted, lists.value at_call posted⟩
  · rw [all r, List.length_map, List.length_take, Nat.min_eq_left (within r), sound.free r free]

end Runs

/-! ## A run -/

/-- The commands of user code that calls other ranks, with handlers that do nothing, and adds up
numbers. -/
inductive Errand (n : ℕ)
  | async (dest : Fin n) (args : ℕ)
  | allReduce (value : ℕ)
  | barrier

def errands (n : ℕ) : Program n ℕ Unit ℕ (List (Errand n)) where
  next code _ :=
    match code with
    | [] => .ret ()
    | .async dest args :: k => .async dest args k
    | .allReduce value :: k => .allReduce value fun _ => k
    | .barrier :: k => .barrier k
  handler _ _ := []
  packedSize args := 8 + args
  offset_le args := Nat.le_add_right 8 args
  combine values := (List.ofFn values).sum

/-- Sums of natural numbers, which are packed in unary. -/
def sums : Reductions ℕ Unit where
  op _ := ()
  merge _ x y := x + y
  pack _ x := List.replicate x 0
  unpack _ bytes := bytes.length
  op_merge _ _ _ := rfl
  unpack_pack _ := List.length_replicate

/-- Two ranks have added up their numbers, and one of them goes on to a barrier. -/
def added : Joint 2 ℕ Unit ℕ (List (Errand 2)) Unit :=
  (joint ⟨8, true⟩ (errands 2) sums (fun _ => ())
    ![[.allReduce 5, .barrier], [.allReduce 7, .barrier]]).drive
      (Joint.Passes ⟨8, true⟩ (errands 2) sums)
    (joint ⟨8, true⟩ (errands 2) sums (fun _ => ())
      ![[.allReduce 5, .barrier], [.allReduce 7, .barrier]]).init
    ((List.replicate 11 (mains 1 1 ++ mains 0 1)).flatten ++ mains 0 2)

theorem joint_refines_added :
    (List.finRange 2).map (fun r => (added.tree.node r).returned) = [[12], [12]] ∧
      added.Refines ⟨8, true⟩ (errands 2) sums (fun _ => ())
        ![[.allReduce 5, .barrier], [.allReduce 7, .barrier]] := by
  have histories : added.history 0 = [.allReduce (), .barrier] ∧
      added.history 1 = [.allReduce ()] := by decide +kernel
  have busy : (added.sys.rank 1).pc.isUser = true ∧
      (added.sys.rank 1).code.length = 1 := by decide +kernel
  have follows : added.Follows (errands 2) [.allReduce (), .barrier] := by
    refine Fin.forall_fin_two.mpr ⟨⟨by simp [histories], fun _ => by simp [histories]⟩,
      ⟨by simp [histories], fun done => ?_⟩⟩
    obtain ⟨-, -, mem, ret⟩ := done
    obtain ⟨errand, code⟩ := List.length_eq_one_iff.mp busy.2
    cases errand <;> simp [errands, code] at ret
  have reached : (joint ⟨8, true⟩ (errands 2) sums (fun _ => ())
      ![[.allReduce 5, .barrier], [.allReduce 7, .barrier]]).ReachableBy
        (Joint.Passes ⟨8, true⟩ (errands 2) sums) added := Machine.ReachableBy.init.drive _
  exact ⟨by decide +kernel, joint_refines reached follows⟩

end YGM
