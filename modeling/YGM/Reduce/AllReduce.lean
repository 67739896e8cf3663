import Mathlib.Algebra.Order.BigOperators.Group.Finset
import YGM.Reduce.Lockstep

/-!
# Every rank gets the same result

`all_reduce_merges` is the result about the tree reduction: as long as every partial
merge packs to less than a gibibyte, no rank ever throws or takes a message for another
one, each call returns the merge of the tree on every rank, each rank has sent its
parent one value per call, and the calls cannot get stuck.

The last part has no recourse to the order of arrivals.  A rank whose calls are the
furthest behind never waits for its children (`InStep.not_receiving`, from the leaves
up), so all that are furthest behind are at the broadcast, and then the root is ahead
and has already made it.  Together with the bound on the length of runs
(`work_lt`, `work_le`) this means that every run that goes on as long as it can ends
with all calls returned everywhere.

The assertion of `mpi_send` and `mpi_bcast` is needed for it: `too_large` throws.
-/

namespace YGM.Reduce

variable {n : ℕ} {α : Type} [NeZero n]

section Runs

variable [Inhabited α] {synchronous : Bool} {calls : List (Call n α)} {c : System n α}

theorem inStep_init : InStep calls (reduction synchronous calls).init := by
  refine ⟨fun r => ?_, fun p child h => ?_, ?_⟩
  · refine ⟨Nat.zero_le _, rfl, rfl, ?_, ?_, fun call at_call => ?_, fun _ => rfl⟩
    · simp [reduction, Node.begin, Node.init, Stage.posted]
    · simp only [reduction, Node.begin, Node.init, List.take_zero, List.flatMap_nil,
        List.nil_append]
      cases calls[0]? <;> simp [Call.gotten]
    · simp only [reduction, Node.begin, Node.init] at at_call ⊢
      simp [StageOk, at_call]
  · have start : ((reduction synchronous calls).init.node p).taken child = 0 := by
      cases child <;> rfl
    rw [start]
    rfl
  · rfl

/-- **In every state reached the ranks are in step**, if all partial merges are small enough. -/
theorem inStep_of_reachable (fits : Fits calls) (h : (reduction synchronous calls).Reachable c) :
    InStep calls c :=
  h.invariant inStep_init fun _ inStep taken => inStep.step fits taken

end Runs

/-! ## Somebody can always move -/

section Progress

omit [NeZero n] in
/-- A rank that cannot move in a receive from a child finds nothing in the stream of that child. -/
theorem stuck_receiving {call : Call n α} {c : System n α} {r : Fin n} {child : Child}
    (stuck : recvStep r call child c (c.node r) = none) :
    ∃ h : child.rank r < n, c.net ⟨child.rank r, h⟩ r = [] := by
  unfold recvStep at stuck
  split at stuck
  case isTrue h =>
    refine ⟨h, ?_⟩
    cases head : c.net ⟨child.rank r, h⟩ r with
    | nil => rfl
    | cons packet stream =>
        simp only [head] at stuck
        split at stuck
        · cases stuck
        · split at stuck <;> cases stuck
        · cases stuck
  case isFalse => cases stuck

variable {synchronous : Bool} {calls : List (Call n α)} {c : System n α}

/-- The rank is in one of the two receives from `child`, or at the test before them. -/
def Stage.receiving (stage : Stage) (child : Child) : Prop :=
  stage = .recvSize child ∨ ∃ size, stage = .recvBytes child size

theorem Stage.receiving.taken_lt {stage : Stage} {child : Child}
    (h : stage.receiving child) : stage.taken child < 2 := by
  rcases h with rfl | ⟨size, rfl⟩
  · simp
  · simp

/-- A rank that has not taken both messages of a child is in a receive. -/
theorem Stage.receiving_of_taken_lt {stage : Stage} {child : Child}
    (h : stage.taken child < 2) : ∃ other, stage.receiving other := by
  cases stage with
  | recvSize other => exact ⟨other, .inl rfl⟩
  | recvBytes other size => exact ⟨other, .inr ⟨size, rfl⟩⟩
  | _ => cases child <;> simp [Stage.taken] at h

theorem Stage.posted_le (stage : Stage) : stage.posted ≤ 2 := by
  cases stage <;> simp [posted]

theorem Stage.shown_le (stage : Stage) : stage.shown ≤ 1 := by
  cases stage <;> simp [shown]

theorem exists_child {r : ℕ} (h : r ≠ 0) : ∃ child : Child, child.rank (parent r) = r := by
  rcases eq_child_parent h with first | second
  · exact ⟨.first, first.symm⟩
  · exact ⟨.second, second.symm⟩

theorem wires_length (calls : List (Call n α)) (r : ℕ) :
    (wires calls r).length = 2 * calls.length := by
  induction calls with
  | nil => rfl
  | cons call calls ih =>
      rw [wires, List.flatMap_cons, List.length_append, ← wires, ih]
      simp only [Call.wire, List.length_cons, List.length_nil]
      omega

/-- The number of messages in the stream of a child is the difference of those it has sent and
those its parent has taken. -/
theorem InStep.net_length (inStep : InStep calls c) {p : Fin n} {child : Child}
    (h : child.rank p < n) :
    min ((c.node p).taken child) (2 * calls.length)
        + (c.net ⟨child.rank p, h⟩ p).length
      = min (c.node ⟨child.rank p, h⟩).posted (2 * calls.length) := by
  have := congrArg List.length (inStep.link p child h)
  simpa [wires_length] using this

/-- The ranks that are the furthest behind are in call `call`, the `k`-th, and none of them can
move. -/
structure Stuck (synchronous : Bool) (calls : List (Call n α)) (c : System n α) (k : ℕ)
    (call : Call n α) : Prop where
  stuck : ∀ r, (c.node r).calls = k → step synchronous calls r c = none
  behind : ∀ r, k ≤ (c.node r).calls
  at_call : calls[k]? = some call

variable {k : ℕ} {call : Call n α}

omit [NeZero n] in
theorem Stuck.recv (h : Stuck synchronous calls c k call) {r : Fin n}
    (calls_eq : (c.node r).calls = k) {child : Child}
    (stage : (c.node r).stage.receiving child) :
    ∃ h : child.rank r < n, c.net ⟨child.rank r, h⟩ r = [] := by
  have stuck := h.stuck r calls_eq
  have at_call := h.at_call
  rw [← calls_eq] at at_call
  unfold step at stuck
  simp only [at_call] at stuck
  rcases stage with stage | ⟨size, stage⟩ <;>
  · simp only [stage, Option.map_eq_none_iff] at stuck
    exact stuck_receiving stuck

/-- A rank that is the furthest behind and through with its children has begun to send. -/
theorem Stuck.sending (h : Stuck synchronous calls c k call) (inStep : InStep calls c)
    {r : Fin n} (calls_eq : (c.node r).calls = k)
    (through : ∀ child, ¬ (c.node r).stage.receiving child) :
    ((c.node r).stage = .sentSize ∨ (c.node r).stage = .sentBytes) ∧
        matched r c.net (parent r) = false ∨
      r.val ≠ 0 ∧ c.bcasts[(c.node r).seen]? = none ∧ (c.node r).posted = 2 * k + 2 := by
  have stuck := h.stuck r calls_eq
  have at_call := h.at_call
  rw [← calls_eq] at at_call
  have stage_ok := (inStep.node r).stage _ at_call
  unfold step at stuck
  simp only [at_call] at stuck
  cases stage : (c.node r).stage with
  | recvSize child => exact absurd (.inl stage) (through child)
  | recvBytes child size => exact absurd (.inr ⟨size, stage⟩) (through child)
  | sendSize =>
      simp only [stage] at stuck
      split at stuck
      · split at stuck <;> cases stuck
      · cases stuck
  | sentSize =>
      simp only [stage] at stuck
      split at stuck
      case isTrue => cases stuck
      case isFalse waits =>
        rw [not_or, Bool.not_eq_true] at waits
        exact .inl ⟨.inl rfl, waits.2⟩
  | sendBytes => simp [stage] at stuck
  | sentBytes =>
      simp only [stage] at stuck
      split at stuck
      case isTrue => cases stuck
      case isFalse waits =>
        rw [not_or, Bool.not_eq_true] at waits
        exact .inl ⟨.inr rfl, waits.2⟩
  | bcastSize =>
      simp only [stage] at stuck
      split at stuck
      case isTrue => split at stuck <;> cases stuck
      case isFalse notRoot =>
        split at stuck
        case h_1 found =>
            exact .inr ⟨notRoot, found, by simp [Node.posted, stage, Stage.posted, calls_eq]⟩
        case h_2 => cases stuck
        case h_3 => cases stuck
  | bcastBytes size =>
      simp only [stage] at stuck
      split at stuck
      case isTrue => cases stuck
      case isFalse notRoot =>
        split at stuck
        case h_1 found =>
            exact .inr ⟨notRoot, found, by simp [Node.posted, stage, Stage.posted, calls_eq]⟩
        case h_2 => split at stuck <;> cases stuck
        case h_3 => cases stuck
  | thrown => exact (stage ▸ stage_ok).elim
  | broken => exact (stage ▸ stage_ok).elim

/-- **None of the ranks furthest behind waits for a child**, by induction from the leaves of the
tree up. -/
theorem Stuck.not_receiving (h : Stuck synchronous calls c k call) (inStep : InStep calls c)
    (i : ℕ) : ∀ r : Fin n, r.val = i → (c.node r).calls = k →
      ∀ child, ¬ (c.node r).stage.receiving child := by
  induction i using tree_induction n with
  | node i first second =>
      rintro r rfl calls_eq child receiving
      obtain ⟨below, empty⟩ := h.recv calls_eq receiving
      have below_through : (c.node ⟨child.rank r, below⟩).calls = k →
          ∀ other, ¬ (c.node ⟨child.rank r, below⟩).stage.receiving other := by
        cases child with
        | first => exact first below _ rfl
        | second => exact second below _ rfl
      have length := inStep.net_length below
      have taken_lt := receiving.taken_lt
      have more := (List.getElem?_eq_some_iff.mp h.at_call).1
      have behind := h.behind ⟨child.rank r, below⟩
      simp only [empty, List.length_nil, Nat.add_zero, Node.taken, Node.posted, calls_eq]
        at length
      -- The child is in the same call and has not sent everything of it.
      have same : (c.node ⟨child.rank r, below⟩).calls = k := by omega
      rcases h.sending inStep same (below_through same) with
        ⟨stage, unmatched⟩ | ⟨-, -, posted⟩
      · have up : parent (child.rank r) = r := child.parent_rank r
        simp [matched, up, empty] at unmatched
      · simp only [Node.posted] at posted
        omega

/-- **One of the ranks furthest behind can move**, so they are never stuck. -/
theorem Stuck.absurd (h : Stuck synchronous calls c k call) (inStep : InStep calls c)
    {least : Fin n} (calls_eq : (c.node least).calls = k) : False := by
  subst calls_eq
  have through : ∀ i, (c.node i).calls = (c.node least).calls →
      ∀ child, ¬ (c.node i).stage.receiving child :=
    fun i => h.not_receiving inStep i i rfl
  rcases h.sending inStep rfl (through least rfl) with ⟨stage, unmatched⟩ | ⟨notRoot, none, -⟩
  · -- Its parent has not taken what it has sent.
    have notRoot : least.val ≠ 0 := by
      have stage_ok := (inStep.node least).stage call h.at_call
      rcases stage with stage | stage <;>
      · rw [stage] at stage_ok
        exact stage_ok.2
    obtain ⟨child, up⟩ := exists_child notRoot
    have above : parent least < n := (parent_lt notRoot).trans least.isLt
    have below : child.rank (⟨parent least, above⟩ : Fin n) < n :=
      lt_of_eq_of_lt up least.isLt
    have same : (⟨child.rank (⟨parent least, above⟩ : Fin n), below⟩ : Fin n) = least :=
      Fin.ext up
    have length := inStep.net_length below
    have behind := h.behind ⟨parent least, above⟩
    simp only [matched, above, ↓reduceDIte, List.isEmpty_eq_false_iff] at unmatched
    have waiting := List.length_pos_iff.mpr unmatched
    have posted := (c.node least).stage.posted_le
    simp only [same, Node.taken, Node.posted] at length
    have at_parent : (c.node ⟨parent least, above⟩).calls = (c.node least).calls := by omega
    have few : (c.node ⟨parent least, above⟩).stage.taken child < 2 := by omega
    obtain ⟨other, receiving⟩ := Stage.receiving_of_taken_lt few
    exact through _ at_parent other receiving
  · -- The root is in the same call, and it does not wait for anybody.
    have shown := (c.node least).stage.shown_le
    have seen := (inStep.node least).seen
    have root_seen := (inStep.node 0).seen
    have more := (List.getElem?_eq_some_iff.mp h.at_call).1
    rw [List.getElem?_eq_none_iff, inStep.bcasts, List.length_take, wires_length] at none
    have behind := h.behind 0
    have at_root : (c.node 0).calls = (c.node least).calls := by omega
    rcases h.sending inStep at_root (through 0 at_root) with ⟨stage, -⟩ | ⟨root, -⟩
    · have stage_ok := (inStep.node 0).stage call (at_root ▸ h.at_call)
      rcases stage with stage | stage <;>
      · rw [stage] at stage_ok
        exact stage_ok.2 rfl
    · exact root rfl

/-- **Unless all calls have returned on all ranks, some rank can move.** -/
theorem InStep.progress (inStep : InStep calls c)
    (stuck : ∀ r, Reduce.step synchronous calls r c = none) (r : Fin n) :
    (c.node r).calls = calls.length := by
  obtain ⟨least, -, minimal⟩ :=
    Finset.exists_min_image Finset.univ (fun i => (c.node i).calls) ⟨r, Finset.mem_univ r⟩
  by_contra unfinished
  have le := (inStep.node r).calls_le
  have least_le := minimal r (Finset.mem_univ r)
  obtain ⟨call, at_call⟩ : ∃ call, calls[(c.node least).calls]? = some call :=
    ⟨_, List.getElem?_eq_getElem (by omega)⟩
  have h : Stuck synchronous calls c (c.node least).calls call :=
    ⟨fun i _ => stuck i, fun i => minimal i (Finset.mem_univ i), at_call⟩
  exact h.absurd inStep rfl

end Progress

/-! ## No run goes on for ever -/

/-- The number of steps of a call before the receive from a child. -/
def Child.index : Child → ℕ
  | .first => 0
  | .second => 2

/-- The number of steps of a call before a stage. -/
def Stage.index : Stage → ℕ
  | .recvSize child => child.index
  | .recvBytes child _ => child.index + 1
  | .sendSize => 4
  | .sentSize => 5
  | .sendBytes => 6
  | .sentBytes => 7
  | .bcastSize => 8
  | .bcastBytes _ => 9
  | .thrown | .broken => 10

def Node.work (s : Node α) : ℕ :=
  10 * s.calls + s.stage.index

/-- The number of steps that the ranks together have come. -/
def System.work (c : System n α) : ℕ :=
  ∑ r, (c.node r).work

section Work

variable {synchronous : Bool} {calls : List (Call n α)} {c c' : System n α} {r : Fin n}

theorem Child.index_next (child : Child) : child.next.index = child.index + 2 := by
  cases child <;> rfl

theorem Child.index_lt (child : Child) : child.index < 4 := by
  cases child <;> decide

omit [NeZero n] in
/-- A step of a receive leads to the second receive, to the stage behind the child, or to an MPI
error. -/
theorem recvStep_stage {call : Call n α} {child : Child} {s : Node α}
    {out : Node α × (Fin n → Fin n → List Packet)} (stage : s.stage.receiving child)
    (taken : recvStep r call child c s = some out) :
    out.1.calls = s.calls ∧ (out.1.stage = child.next ∨ out.1.stage = .broken ∨
      s.stage = .recvSize child ∧ ∃ size, out.1.stage = .recvBytes child size) := by
  unfold recvStep at taken
  by_cases h : child.rank r < n
  · simp only [h, ↓reduceDIte] at taken
    cases head : c.net ⟨child.rank r, h⟩ r with
    | nil => simp [head] at taken
    | cons packet stream =>
        simp only [head] at taken
        rcases stage with stage | ⟨size, stage⟩ <;> simp only [stage] at taken
        · cases packet with
          | size packedSize =>
              cases taken
              exact ⟨rfl, .inr (.inr ⟨stage, packedSize, rfl⟩)⟩
          | bytes packed =>
              cases taken
              exact ⟨rfl, .inr (.inl rfl)⟩
        · cases packet with
          | size packedSize =>
              cases taken
              exact ⟨rfl, .inr (.inl rfl)⟩
          | bytes packed =>
              by_cases long : packed.length ≤ size
              · simp only [long, ↓reduceIte] at taken
                cases taken
                exact ⟨rfl, .inl rfl⟩
              · simp only [long, ↓reduceIte] at taken
                cases taken
                exact ⟨rfl, .inr (.inl rfl)⟩
  · simp only [h, ↓reduceDIte] at taken
    cases taken
    exact ⟨rfl, .inl rfl⟩

omit [NeZero n] in
theorem recvStep_work {call : Call n α} {child : Child} {s : Node α}
    {out : Node α × (Fin n → Fin n → List Packet)} (stage : s.stage.receiving child)
    (taken : recvStep r call child c s = some out) : s.work < out.1.work := by
  have next := child.index_next
  have lt := child.index_lt
  obtain ⟨same, after⟩ := recvStep_stage stage taken
  simp only [Node.work, same]
  rcases stage with stage | ⟨size, stage⟩ <;>
    rcases after with after | after | ⟨before, size', after⟩ <;>
    simp_all [Stage.index] <;> omega

omit [NeZero n] in
/-- A step of the system is a step of one rank, which comes further. -/
theorem step_node (taken : step synchronous calls r c = some c') :
    ∃ s : Node α, c'.node = Function.update c.node r s ∧ (c.node r).work < s.work := by
  unfold step at taken
  cases at_call : calls[(c.node r).calls]? with
  | none => simp [at_call] at taken
  | some call =>
      simp only [at_call] at taken
      cases stage : (c.node r).stage with
      | recvSize child =>
          simp only [stage, Option.map_eq_some_iff] at taken
          obtain ⟨out, moved, rfl⟩ := taken
          exact ⟨out.1, rfl, recvStep_work (.inl stage) moved⟩
      | recvBytes child size =>
          simp only [stage, Option.map_eq_some_iff] at taken
          obtain ⟨out, moved, rfl⟩ := taken
          exact ⟨out.1, rfl, recvStep_work (.inr ⟨size, stage⟩) moved⟩
      | thrown => simp [stage] at taken
      | broken => simp [stage] at taken
      | _ =>
          simp only [stage] at taken
          repeat' split at taken
          all_goals
            cases taken
            try exact ⟨_, rfl, by
              simp [Node.work, stage, Stage.index, Child.index, Node.return, Node.begin,
                Nat.mul_succ]⟩

omit [NeZero n] in
/-- **Every step is a step forwards**: the work done increases. -/
theorem work_lt (taken : step synchronous calls r c = some c') : c.work < c'.work := by
  obtain ⟨s, node, forwards⟩ := step_node taken
  have sums := sum_update_add Node.work c.node r s
  simp only [System.work, node]
  omega

/-- **The work done is bounded**: there are at most ten steps for each rank and call. -/
theorem InStep.work_le (inStep : InStep calls c) : c.work ≤ n * (10 * calls.length) := by
  have each : ∀ r, (c.node r).work ≤ 10 * calls.length := by
    intro r
    have ok := inStep.node r
    have le := ok.calls_le
    unfold Node.work
    cases at_call : calls[(c.node r).calls]? with
    | none =>
        rw [ok.idle at_call]
        simp only [Stage.index, Child.index]
        omega
    | some call =>
        obtain ⟨more, -⟩ := List.getElem?_eq_some_iff.mp at_call
        have stage_ok := ok.stage call at_call
        have lt : (c.node r).stage.index < 10 := by
          cases stage : (c.node r).stage with
          | recvSize child =>
              have := child.index_lt
              simp only [Stage.index]
              omega
          | recvBytes child size =>
              have := child.index_lt
              simp only [Stage.index]
              omega
          | thrown => exact (stage ▸ stage_ok).elim
          | broken => exact (stage ▸ stage_ok).elim
          | _ => simp [Stage.index]
        omega
  calc c.work ≤ ∑ _r : Fin n, 10 * calls.length := Finset.sum_le_sum fun r _ => each r
    _ = n * (10 * calls.length) := by simp

end Work

/-! ## The result -/

/-- **The outcome of the calls of all ranks**, as a property of one state of a run. -/
structure AllReduced (synchronous : Bool) (calls : List (Call n α)) (c : System n α) :
    Prop where
  /-- No assertion throws on any rank, and no message is taken for another one. -/
  intact : ∀ r, (c.node r).stage ≠ .thrown ∧ (c.node r).stage ≠ .broken
  /-- A call that has returned has returned `m(0)`. -/
  returned : ∀ r, (c.node r).returned
    = (calls.take (c.node r).calls).map fun call => call.value 0
  /-- In each call every rank but the root sends one value, to its parent. -/
  sent : ∀ r, (c.node r).sent <+: if r.val = 0 then [] else
    calls.map fun call => (parent r, call.value r)
  /-- In each call every rank receives the values of its children. -/
  received : ∀ r, (c.node r).received <+: calls.flatMap fun call =>
    call.fromChild r .first ++ call.fromChild r .second
  /-- When no rank can move, all calls have returned everywhere and all messages have been
  received. -/
  finished : (∀ r, step synchronous calls r c = none) → ∀ r,
    (c.node r).returned = (calls.map fun call => call.value 0) ∧
    (c.node r).sent
      = (if r.val = 0 then [] else calls.map fun call => (parent r, call.value r)) ∧
    (c.node r).received = (calls.flatMap fun call =>
      call.fromChild r .first ++ call.fromChild r .second) ∧
    ∀ (child : Child) (h : child.rank r < n), c.net ⟨child.rank r, h⟩ r = []
  /-- The work done has a bound and grows with every step, so the ranks come to the end of their
  calls. -/
  bounded : c.work ≤ n * (10 * calls.length) ∧
    ∀ r c', step synchronous calls r c = some c' → c.work < c'.work
  /-- `m(r)` is the merge of the tree below `r`. -/
  tree : ∀ call ∈ calls, ∀ r : Fin n, call.value r =
    mergeChild call.merge n call.value
      (mergeChild call.merge n call.value (call.input r) (2 * r + 1)) (2 * r + 2)
  /-- For an associative and commutative merge, `m(0)` uses every input once. -/
  folded : ∀ call ∈ calls, ∀ [Std.Associative call.merge] [Std.Commutative call.merge],
    call.value 0 = (Finset.univ.erase 0).fold call.merge (call.input 0) call.input

theorem Call.value_fold (call : Call n α) [Std.Associative call.merge]
    [Std.Commutative call.merge] :
    call.value 0 = (Finset.univ.erase 0).fold call.merge (call.input 0) call.input := by
  have ranks : (Multiset.range n).erase 0 = (Finset.univ.erase (0 : Fin n)).val.map Fin.val := by
    refine (Multiset.Nodup.ext ((Multiset.nodup_range n).erase 0)
      ((Finset.nodup _).map Fin.val_injective)).mpr fun i => ?_
    rw [(Multiset.nodup_range n).mem_erase_iff]
    simp only [Multiset.mem_range, Multiset.mem_map, Finset.mem_val, Finset.mem_erase,
      Finset.mem_univ, and_true]
    constructor
    · rintro ⟨ne, lt⟩
      exact ⟨⟨i, lt⟩, fun eq => ne (congrArg Fin.val eq), rfl⟩
    · rintro ⟨r, ne, rfl⟩
      exact ⟨fun eq => ne (Fin.ext eq), r.isLt⟩
  rw [Call.value, merged_zero call.merge (Nat.pos_of_neZero n), ranks, Multiset.map_map, Finset.fold]
  congr 1
  exact Multiset.map_congr rfl fun r _ => congrArg call.input (Fin.ofNat_val_eq_self r)

theorem InStep.sent_prefix {calls : List (Call n α)} {c : System n α}
    (inStep : InStep calls c) (r : Fin n) :
    (c.node r).sent <+: if r.val = 0 then [] else
      calls.map fun call => (parent r, call.value r) := by
  rw [(inStep.node r).sent]
  split
  · exact List.prefix_rfl
  · exact (List.take_prefix _ _).map _

theorem Call.gotten_prefix (call : Call n α) (r : Fin n) (stage : Stage) :
    call.gotten r stage <+: call.fromChild r .first ++ call.fromChild r .second := by
  cases stage with
  | recvSize child =>
      cases child
      · exact List.nil_prefix
      · exact List.prefix_append _ _
  | recvBytes child size =>
      cases child
      · exact List.nil_prefix
      · exact List.prefix_append _ _
  | _ => exact List.prefix_rfl

theorem InStep.received_prefix {calls : List (Call n α)} {c : System n α}
    (inStep : InStep calls c) (r : Fin n) :
    (c.node r).received <+: calls.flatMap fun call =>
      call.fromChild r .first ++ call.fromChild r .second := by
  rw [(inStep.node r).received]
  conv => rhs; rw [← List.take_append_drop (c.node r).calls calls, List.flatMap_append]
  refine List.prefix_append_right_inj _ |>.mpr ?_
  cases at_call : calls[(c.node r).calls]? with
  | none => exact List.nil_prefix
  | some call =>
      obtain ⟨more, found⟩ := List.getElem?_eq_some_iff.mp at_call
      rw [List.drop_eq_getElem_cons more, found, List.flatMap_cons]
      exact (call.gotten_prefix r _).trans (List.prefix_append _ _)

/-- The values returned, sent and received by a rank when all calls have returned on all ranks. -/
theorem InStep.finished {calls : List (Call n α)} {c : System n α} (inStep : InStep calls c)
    (all : ∀ r, (c.node r).calls = calls.length) (r : Fin n) :
    (c.node r).returned = (calls.map fun call => call.value 0) ∧
    (c.node r).sent
      = (if r.val = 0 then [] else calls.map fun call => (parent r, call.value r)) ∧
    (c.node r).received = (calls.flatMap fun call =>
      call.fromChild r .first ++ call.fromChild r .second) ∧
    ∀ (child : Child) (h : child.rank r < n), c.net ⟨child.rank r, h⟩ r = [] := by
  have ok := inStep.node r
  have through : calls[(c.node r).calls]? = none := by
    rw [all r]
    exact List.getElem?_eq_none (Nat.le_refl _)
  refine ⟨?_, ?_, ?_, fun child h => ?_⟩
  · rw [ok.returned, all r, List.take_length]
  · rw [ok.sent, ok.idle through, all r]
    simp
  · rw [ok.received, through, all r, List.take_length]
    simp
  · have length := inStep.net_length h
    have done : (c.node ⟨child.rank r, h⟩).posted = 2 * calls.length := by
      have idle := (inStep.node ⟨child.rank r, h⟩).idle (by
        rw [all]
        exact List.getElem?_eq_none (Nat.le_refl _))
      simp [Node.posted, idle, all]
    have start : 2 * calls.length ≤ (c.node r).taken child := by
      simp [Node.taken, all]
    exact List.eq_nil_of_length_eq_zero (by omega)

/-- **The tree reduction works**, call after call and in every order of arrival, if all partial
merges are small enough: every rank returns the merge that the tree determines of the values of
all ranks. -/
theorem all_reduce_merges [Inhabited α] {synchronous : Bool} {calls : List (Call n α)}
    (fits : Fits calls) {c : System n α} (h : (reduction synchronous calls).Reachable c) :
    AllReduced synchronous calls c := by
  have inStep := inStep_of_reachable fits h
  refine
    { intact := fun r => ?_
      returned := fun r => (inStep.node r).returned
      sent := inStep.sent_prefix
      received := inStep.received_prefix
      finished := fun stuck => inStep.finished (inStep.progress stuck)
      bounded := ⟨inStep.work_le, fun _ _ => work_lt⟩
      tree := fun call _ r => call.value_eq r
      folded := fun call _ => call.value_fold }
  have ok := inStep.node r
  cases at_call : calls[(c.node r).calls]? with
  | none =>
      rw [ok.idle at_call]
      exact ⟨nofun, nofun⟩
  | some call =>
      have stage_ok := ok.stage call at_call
      constructor <;>
      · intro stage
        rw [stage] at stage_ok
        exact stage_ok

/-- The call in which the ranks add up their numbers, each packed to as many bytes. -/
def rankSum (n : ℕ) : Call n ℕ where
  Is := fun _ => True
  input := Fin.val
  merge := (· + ·)
  pack := fun value => List.replicate value 0
  unpack := List.length
  input_is := fun _ => trivial
  merge_is := fun _ _ _ _ => trivial
  unpack_pack := fun _ _ => List.length_replicate

/-- The state in which three ranks, moving in turn, have added up their numbers twice. -/
def rankSumState : System 3 ℕ :=
  (reduction true [rankSum 3, rankSum 3]).drive (fun _ _ => True)
    (reduction true [rankSum 3, rankSum 3]).init (List.replicate 40 [2, 0, 1]).flatten

/-- In `rankSumState` all three ranks have got the sum of their numbers both times. -/
theorem all_reduce_merges_ranks :
    ((List.finRange 3).map fun r => (rankSumState.node r).returned) = [[3, 3], [3, 3], [3, 3]] ∧
      AllReduced true [rankSum 3, rankSum 3] rankSumState := by
  have fits : Fits [rankSum 3, rankSum 3] := by
    intro call member
    obtain rfl : call = rankSum 3 := by simpa using member
    decide
  exact ⟨by decide +kernel, all_reduce_merges fits (Machine.ReachableBy.init.drive _)⟩

/-- The call in which a single rank reduces a value that is packed to a gibibyte. -/
def huge : Call 1 ℕ :=
  { rankSum 1 with input := fun _ => gibibyte }

/-- The state in which the rank has come to the broadcast of its huge value. -/
def hugeState : System 1 ℕ :=
  (reduction false [huge]).drive (fun _ _ => True) (reduction false [huge]).init [0, 0, 0]

/-- **The assertion on the packed size throws** on a value of a gibibyte, even on a single rank,
and the call does not return. -/
theorem too_large :
    ∃ c : System 1 ℕ, (reduction false [huge]).Reachable c ∧ (c.node 0).stage = .thrown ∧
      (c.node 0).returned = [] ∧ (∀ r, step false [huge] r c = none) ∧
      ¬ AllReduced false [huge] c := by
  have reached : (reduction false [huge]).Reachable hugeState :=
    Machine.ReachableBy.init.drive _
  have stage : (hugeState.node 0).stage = .bcastSize := rfl
  have tmp : (hugeState.node 0).tmp = gibibyte := rfl
  have calls : (hugeState.node 0).calls = 0 := rfl
  have returned : (hugeState.node 0).returned = [] := rfl
  have large : ¬ (huge.pack gibibyte).length < gibibyte := by
    simp [huge, rankSum]
  have throws : (reduction false [huge]).step hugeState 0 = some { hugeState with
      node := Function.update hugeState.node 0
        { hugeState.node 0 with stage := .thrown } } := by
    simp [reduction, step, stage, tmp, calls, large]
  refine ⟨_, reached.step throws, by simp, by simp [returned], fun r => ?_, fun claim => ?_⟩
  · obtain rfl : r = 0 := Subsingleton.elim _ _
    simp [step, calls]
  · exact (claim.intact 0).1 (by simp)

end YGM.Reduce
