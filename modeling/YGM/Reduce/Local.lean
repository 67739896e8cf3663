import YGM.Reduce.AllReduce

/-!
# What one rank of a reduction knows

The calls of a run are one list, in which the inputs of all ranks stand side by side.  A rank
knows its own input only, and nothing of a call it has not begun.  Both make no difference: what
a step does depends on its rank's node, on the messages and on what the call does with values
(`step_congr`), up to the beginning of the next call, which is the last thing a return does.

`InStep.begun` is what the return of a call says about all the others: they have begun it.
-/

namespace YGM.Reduce

variable {n : ℕ} {α : Type} {synchronous : Bool} {calls calls' : List (Call n α)}
variable {c c' : System n α} {r : Fin n}

/-! ## A step and the calls -/

/-- Two calls are alike if they do the same with values, whatever is put into them. -/
structure Call.Alike (call call' : Call n α) : Prop where
  merge : call'.merge = call.merge
  pack : call'.pack = call.pack
  unpack : call'.unpack = call.unpack

theorem recvStep_congr {call call' : Call n α} (alike : call.Alike call') (net : c'.net = c.net)
    (child : Child) (s : Node α) : recvStep r call' child c' s = recvStep r call child c s := by
  unfold recvStep
  rw [net, alike.merge, alike.unpack]

/-- A rank that begins a call a second time, told of more calls, replaces what it has found the
first time. -/
theorem Node.begin_begin (s : Node α) (none : calls[s.calls]? = none) :
    (s.begin calls r).begin calls' r = s.begin calls' r := by
  simp [Node.begin, none]

@[simp] theorem Node.return_calls (s : Node α) (value : α) :
    (s.return calls r value).calls = s.calls + 1 := rfl

/-- A rank that returns from its last call has begun the next one as soon as it is told of it. -/
theorem Node.begin_return (s : Node α) (value : α) (none : calls[s.calls + 1]? = none) :
    (s.return calls r value).begin calls' r = s.return calls' r value :=
  Node.begin_begin _ none

/-- **A step depends on the call that the rank is in**, and on no other: it is the same among
`calls`, where this call is the last, and among the calls `calls'` of the system. -/
theorem step_congr {call call' : Call n α} (at_call : calls[(c.node r).calls]? = some call)
    (at_call' : calls'[(c.node r).calls]? = some call') (alike : call.Alike call')
    (last : calls[(c.node r).calls + 1]? = none) (node : c'.node r = c.node r)
    (net : c'.net = c.net) (bcasts : c'.bcasts = c.bcasts) :
    step synchronous calls' r c' = (step synchronous calls r c).map fun d =>
      { node := Function.update c'.node r
          (if (d.node r).calls = (c.node r).calls then d.node r else (d.node r).begin calls' r)
        net := d.net
        bcasts := d.bcasts } := by
  unfold step
  simp only [node, at_call, at_call', net, bcasts, recvStep_congr alike net, alike.pack,
    alike.unpack]
  cases stage : (c.node r).stage with
  | recvSize child | recvBytes child =>
      simp only [Option.map_map]
      refine Option.map_congr fun out moved => ?_
      have same := (recvStep_stage (by simp [Stage.receiving, stage]) moved).1
      simp [same]
  | thrown | broken => rfl
  | bcastBytes size =>
      dsimp only
      repeat' split
      all_goals simp [Node.begin_return _ _ last]
  | _ =>
      dsimp only
      repeat' split
      all_goals simp

/-- The node of a rank and the messages decide whether the rank can move. -/
theorem step_isSome_congr (node : c'.node r = c.node r) (net : c'.net = c.net)
    (bcasts : c'.bcasts = c.bcasts) :
    (step synchronous calls r c').isSome = (step synchronous calls r c).isSome := by
  unfold step
  simp only [node, net, bcasts]
  cases calls[(c.node r).calls]? with
  | none => rfl
  | some call =>
      have alike : call.Alike call := ⟨rfl, rfl, rfl⟩
      cases stage : (c.node r).stage with
      | recvSize child | recvBytes child =>
          simp only [recvStep_congr alike net, Option.isSome_map]
      | _ =>
          dsimp only
          repeat' split
          all_goals rfl

/-- **A step moves its own node**, which stays in its call or returns from it. -/
theorem step_calls (taken : step synchronous calls r c = some c') :
    (∀ i, i ≠ r → c'.node i = c.node i) ∧
      ((c'.node r).calls = (c.node r).calls ∨
        ∃ value, c'.node r = (c.node r).return calls r value) := by
  have goes : ∀ s : Node α, c'.node = Function.update c.node r s →
      (s.calls = (c.node r).calls ∨ ∃ value, s = (c.node r).return calls r value) →
      (∀ i, i ≠ r → c'.node i = c.node i) ∧ ((c'.node r).calls = (c.node r).calls ∨
        ∃ value, c'.node r = (c.node r).return calls r value) := by
    intro s node own
    refine ⟨fun i hi => ?_, ?_⟩
    · rw [node, Function.update_of_ne hi]
    · rw [node, Function.update_self]
      exact own
  unfold step at taken
  cases at_call : calls[(c.node r).calls]? with
  | none => simp [at_call] at taken
  | some call =>
      simp only [at_call] at taken
      cases stage : (c.node r).stage with
      | recvSize child | recvBytes child =>
          simp only [stage, Option.map_eq_some_iff] at taken
          obtain ⟨out, moved, rfl⟩ := taken
          exact goes _ rfl (.inl (recvStep_stage (by simp [Stage.receiving, stage]) moved).1)
      | thrown | broken => simp [stage] at taken
      | _ =>
          simp only [stage] at taken
          repeat' split at taken
          all_goals cases taken
          all_goals first
            | exact goes _ rfl (.inl rfl)
            | exact goes _ rfl (.inr ⟨_, rfl⟩)

/-! ## What a return says about the others -/

theorem recvStep_seen {call : Call n α} {child : Child} {s : Node α}
    {out : Node α × (Fin n → Fin n → List Packet)}
    (taken : recvStep r call child c s = some out) : out.1.seen = s.seen := by
  unfold recvStep at taken
  by_cases h : child.rank r < n
  · simp only [h, ↓reduceDIte] at taken
    repeat' split at taken
    all_goals
      cases taken
      try rfl
  · simp only [h, ↓reduceDIte] at taken
    cases taken
    rfl

/-- **No rank has taken part in a broadcast that the root has not made**, and no step changes
that. -/
theorem step_seen (taken : step synchronous calls r c = some c')
    (made : ∀ i, (c.node i).seen ≤ c.bcasts.length) (i : Fin n) :
    (c'.node i).seen ≤ c'.bcasts.length := by
  have own := made r
  have keeps : ∀ s : Node α, s.seen ≤ c.bcasts.length →
      (Function.update c.node r s i).seen ≤ c.bcasts.length := by
    intro s within
    by_cases hi : i = r
    · subst hi
      simpa using within
    · simpa [hi] using made i
  have makes : ∀ (s : Node α) (packet : Packet), s.seen = (c.node r).seen + 1 →
      (Function.update c.node r s i).seen ≤ (c.bcasts ++ [packet]).length := by
    intro s packet next
    rw [List.length_append, List.length_singleton]
    by_cases hi : i = r
    · subst hi
      rw [Function.update_self, next]
      omega
    · rw [Function.update_of_ne hi]
      exact (made i).trans (Nat.le_succ _)
  unfold step at taken
  cases at_call : calls[(c.node r).calls]? with
  | none => simp [at_call] at taken
  | some call =>
      simp only [at_call] at taken
      cases stage : (c.node r).stage with
      | recvSize child | recvBytes child =>
          simp only [stage, Option.map_eq_some_iff] at taken
          obtain ⟨out, received, rfl⟩ := taken
          exact keeps _ (recvStep_seen received ▸ own)
      | bcastSize | bcastBytes size =>
          simp only [stage] at taken
          repeat' split at taken
          all_goals cases taken
          all_goals first
            | exact makes _ _ rfl
            | exact keeps _ own
            | -- a broadcast that was found has been made
              rename_i found
              exact keeps _ (List.getElem?_eq_some_iff.mp found).1
            | rename_i found _
              exact keeps _ (List.getElem?_eq_some_iff.mp found).1
      | thrown | broken => simp [stage] at taken
      | _ =>
          simp only [stage] at taken
          repeat' split at taken
          all_goals
            cases taken
            try exact keeps _ own

theorem Stage.index_le (stage : Stage) : stage.index ≤ 10 := by
  cases stage with
  | recvSize child | recvBytes child =>
      have := child.index_lt
      simp only [Stage.index]
      omega
  | _ => simp [Stage.index]

theorem Stage.taken_le (stage : Stage) (child : Child) : stage.taken child ≤ 2 := by
  unfold taken
  split <;> omega

/-- A rank that has sent both messages to its parent has taken both messages of each child
before. -/
theorem Stage.taken_of_posted {stage : Stage} (posted : stage.posted = 2) (child : Child) :
    stage.taken child = 2 := by
  cases stage <;> cases child <;> simp_all [Stage.posted, Stage.taken]

/-- **When a call has returned somewhere**, every rank is through with its children in it. -/
theorem InStep.begun [NeZero n] (inStep : InStep calls c)
    (made : ∀ i, (c.node i).seen ≤ c.bcasts.length) {k : ℕ} (returned : k < (c.node r).calls) :
    ∀ i child, 2 * k + 2 ≤ (c.node i).taken child := by
  have all := (inStep.node r).calls_le
  have through : ∀ (j : ℕ) (i : Fin n), i.val = j →
      k < (c.node i).calls ∨ (c.node i).calls = k ∧ (c.node i).stage.posted = 2 := by
    intro j
    induction j using Nat.strong_induction_on with
    | _ j ih =>
        rintro i rfl
        by_cases root : i = 0
        · -- the root has made the broadcasts that `r` has taken part in
          subst root
          have own := (inStep.node 0).seen
          have seen := (inStep.node r).seen
          have shown := (c.node 0).stage.shown_le
          have enough := made r
          rw [inStep.bcasts, List.length_take] at enough
          left
          omega
        · -- the parent has received from it
          have notRoot : i.val ≠ 0 := fun zero => root (Fin.ext zero)
          obtain ⟨child, up⟩ := exists_child notRoot
          have above : parent i < n := (parent_lt notRoot).trans i.isLt
          have below : child.rank (⟨parent i, above⟩ : Fin n) < n := lt_of_eq_of_lt up i.isLt
          have same : (⟨child.rank (⟨parent i, above⟩ : Fin n), below⟩ : Fin n) = i := Fin.ext up
          have length := inStep.net_length below
          have posted := (c.node i).stage.posted_le
          have taken : 2 * k + 2 ≤ (c.node ⟨parent i, above⟩).taken child := by
            unfold Node.taken
            rcases ih _ (parent_lt notRoot) ⟨parent i, above⟩ rfl with more | ⟨here, sent⟩
            · omega
            · rw [here, Stage.taken_of_posted sent]
          rw [same, Node.posted] at length
          omega
  intro i child
  unfold Node.taken
  rcases through i i rfl with more | ⟨here, sent⟩
  · omega
  · rw [here, Stage.taken_of_posted sent]

end YGM.Reduce
