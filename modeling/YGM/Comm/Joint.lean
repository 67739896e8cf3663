import YGM.Comm.Rendezvous
import YGM.Comm.Reductions
import YGM.Reduce.Local

/-!
# The communicator with its tree reduction

In `comm` a reduction on `m_comm_other` is one collective, complete when all ranks have
contributed.  Here it is the `all_reduce` of `Reduce`, message by message: a main thread in a
reduction takes the steps of its node of the tree, and where the node blocks so does it
(`joint`).

What is reduced is a parameter (`Reductions`), and a rank knows its own contributions only.  The
calls of all ranks are one list in hindsight (`Lists`).  Told of it, the tree of any run without
a failed assertion is in step, and the rest of the state is one of `comm`, whose reductions
return what the tree returns (`sound_of_reachable`).

`Joint.history` records which collectives the main programs have entered; nothing reads it.
-/

namespace YGM

variable {n : ℕ} {P σ V C τ : Type}

/-! ## The machine -/

/-- **The reductions of a program.** A contribution names its `all_reduce`, that is the type and
the merge function, and values of the type survive an archive round trip. -/
structure Reductions (V τ : Type) where
  op : V → τ
  merge : τ → V → V → V
  /-- The bytes that the output archive makes of a value. -/
  pack : τ → V → List UInt8
  /-- The value that the input archive reads from packed bytes. -/
  unpack : τ → List UInt8 → V
  op_merge : ∀ x y, op x = op y → op (merge (op x) x y) = op x
  unpack_pack : ∀ x, unpack (op x) (pack (op x) x) = x

namespace Reductions

variable (ops : Reductions V τ)

/-- The call of `all_reduce` in which the ranks contribute `input`, all for the operation `op`. -/
def call (op : τ) (input : Fin n → V) (typed : ∀ r, ops.op (input r) = op) : Reduce.Call n V where
  Is := fun value => ops.op value = op
  input := input
  merge := ops.merge op
  pack := ops.pack op
  unpack := ops.unpack op
  input_is := typed
  merge_is := fun x y hx hy => by
    subst hx
    exact ops.op_merge x y hy.symm
  unpack_pack := fun x hx => by
    subst hx
    exact ops.unpack_pack x

/-- The calls of one rank, as far as it knows them: it knows its own contributions and takes
those of the others to be the same. -/
def calls (posts : List V) : List (Reduce.Call n V) :=
  posts.map fun value => ops.call (ops.op value) (fun _ => value) fun _ => rfl

/-- The result of a reduction on `m_comm_other`: the contributions merged along the tree, for
the operation of rank 0. -/
def combine [NeZero n] (values : Fin n → V) : V :=
  merged (ops.merge (ops.op (values 0))) n (fun i => values (Fin.ofNat n i)) 0

/-- The user code with the tree's merge as the result of its reductions. -/
def program [NeZero n] (prog : Program n P σ V C) : Program n P σ V C :=
  { prog with combine := ops.combine }

end Reductions

/-- A collective that a main program calls: `barrier`, or an `all_reduce` with an operation. -/
inductive Collective (τ : Type)
  | barrier
  | allReduce (op : τ)
deriving DecidableEq

/-- **The whole system**: the communicator, the tree of its reductions, and the collectives
entered so far. -/
structure Joint (n : ℕ) (P σ V C τ : Type) where
  sys : Sys n P σ V C
  /-- `m_comm_other`, and where each rank is in `all_reduce`. -/
  tree : Reduce.System n V
  /-- The collectives the main programs have entered (history). -/
  history : Fin n → List (Collective τ)

/-- The collective that the next step of the main program enters, if it enters one. -/
def Rank.enters (prog : Program n P σ V C) (ops : Reductions V τ) (s : Rank n P σ V C) :
    Option (Collective τ) :=
  match s.stack, s.pc with
  | [], .user =>
      match prog.next s.code s.mem with
      | .barrier _ => some .barrier
      | .allReduce value _ => some (.allReduce (ops.op value))
      | _ => none
  | _, _ => none

/-- The continuation of the main program behind the reduction it is in, if it is in one. -/
def Rank.reducing (s : Rank n P σ V C) : Option (V → C) :=
  match s.stack, s.pc with
  | [], .reduce k => some k
  | _, _ => none

/-- The value that `all_reduce` returns in a step of its node, if it returns in that step. -/
def Reduce.Node.returns (before after : Reduce.Node V) : Option V :=
  if after.calls = before.calls then none else after.returned.getLast?

theorem Reduce.calls_of_returns {synchronous : Bool} {calls : List (Reduce.Call n V)} {r : Fin n}
    {c d : Reduce.System n V} (taken : Reduce.step synchronous calls r c = some d)
    (stays : (c.node r).returns (d.node r) = none) : (d.node r).calls = (c.node r).calls := by
  rcases (Reduce.step_calls taken).2 with here | ⟨value, h⟩
  · exact here
  · simp [Reduce.Node.returns, h, Reduce.Node.return, Reduce.Node.begin] at stays

namespace Joint

variable [NeZero n] (cfg : Config) (prog : Program n P σ V C) (ops : Reductions V τ)

/-- **One step.**  A main thread in a reduction moves its node, and goes on in the main program
when the call returns.  Otherwise the step is one of `comm`, and a rank that enters a reduction
with it begins its call; for all others `begin` changes nothing. -/
def step (x : Joint n P σ V C τ) : Action n → Option (Joint n P σ V C τ)
  | .listen r src =>
      (Sys.step cfg (ops.program prog) x.sys (.listen r src)).map fun sys => { x with sys := sys }
  | .main r flag =>
      match (x.sys.rank r).reducing with
      | some k =>
          (Reduce.step cfg.synchronous (ops.calls (x.sys.rank r).otherPosts) r x.tree).map
            fun tree =>
              { x with
                tree := tree
                sys :=
                  match (x.tree.node r).returns (tree.node r) with
                  | none => x.sys
                  | some value =>
                      { x.sys with
                        rank := Function.update x.sys.rank r
                          { x.sys.rank r with pc := .user, code := k value } } }
      | none =>
          (Sys.step cfg (ops.program prog) x.sys (.main r flag)).map fun sys =>
            { sys := sys
              tree := { x.tree with
                node := Function.update x.tree.node r
                  ((x.tree.node r).begin (ops.calls (sys.rank r).otherPosts) r) }
              history := Function.update x.history r
                (x.history r ++ ((x.sys.rank r).enters prog ops).toList) }

end Joint

/-- **The communicator running `prog`**, with the reductions `ops` carried out message by
message. -/
def joint [NeZero n] [Inhabited V] (cfg : Config) (prog : Program n P σ V C)
    (ops : Reductions V τ) (mem : Fin n → σ) (main : Fin n → C) :
    Machine (Joint n P σ V C τ) (Action n) where
  init :=
    { sys := (comm cfg (ops.program prog) mem main).init
      tree :=
        { node := fun _ => Reduce.Node.init
          net := fun _ _ => []
          bcasts := [] }
      history := fun _ => [] }
  step := Joint.step cfg prog ops

section Steps

variable [NeZero n] {cfg : Config} {prog : Program n P σ V C} {ops : Reductions V τ}

omit [NeZero n] in
theorem Rank.reducing_eq_some {s : Rank n P σ V C} {k : V → C} :
    s.reducing = some k ↔ s.stack = [] ∧ s.pc = .reduce k := by
  unfold Rank.reducing
  split
  · rename_i stack pc
    simp [stack, pc]
  · rename_i other
    simpa using other k

/-- **The steps of the whole system**: a listener moves, a main thread outside the reductions
moves, or a main thread in a reduction takes a step of its node. -/
theorem Joint.step_cases {x y : Joint n P σ V C τ} {a : Action n}
    (h : Joint.step cfg prog ops x a = some y) :
    (∃ r src, a = .listen r src ∧ Sys.step cfg (ops.program prog) x.sys a = some y.sys ∧
      y.tree = x.tree ∧ y.history = x.history) ∨
    (∃ r flag, a = .main r flag ∧ (x.sys.rank r).reducing = none ∧
      Sys.step cfg (ops.program prog) x.sys a = some y.sys ∧
      y.tree = { x.tree with
        node := Function.update x.tree.node r
          ((x.tree.node r).begin (ops.calls (y.sys.rank r).otherPosts) r) } ∧
      y.history = Function.update x.history r
        (x.history r ++ ((x.sys.rank r).enters prog ops).toList)) ∨
    ∃ r flag k, a = .main r flag ∧ (x.sys.rank r).stack = [] ∧ (x.sys.rank r).pc = .reduce k ∧
      Reduce.step cfg.synchronous (ops.calls (x.sys.rank r).otherPosts) r x.tree = some y.tree ∧
      y.history = x.history ∧
      ((x.tree.node r).returns (y.tree.node r) = none ∧ y.sys = x.sys ∨
        ∃ value, (x.tree.node r).returns (y.tree.node r) = some value ∧
          y.sys = { x.sys with
            rank := Function.update x.sys.rank r
              { x.sys.rank r with pc := .user, code := k value } }) := by
  cases a with
  | listen r src =>
      obtain ⟨sys, taken, rfl⟩ := Option.map_eq_some_iff.mp h
      exact .inl ⟨r, src, rfl, taken, rfl, rfl⟩
  | main r flag =>
      simp only [Joint.step] at h
      cases reducing : (x.sys.rank r).reducing with
      | none =>
          simp only [reducing] at h
          obtain ⟨sys, taken, rfl⟩ := Option.map_eq_some_iff.mp h
          exact .inr (.inl ⟨r, flag, rfl, reducing, taken, rfl, rfl⟩)
      | some k =>
          simp only [reducing] at h
          obtain ⟨tree, taken, rfl⟩ := Option.map_eq_some_iff.mp h
          obtain ⟨stack, pc⟩ := Rank.reducing_eq_some.mp reducing
          refine .inr (.inr ⟨r, flag, k, rfl, stack, pc, taken, rfl, ?_⟩)
          cases returned : (x.tree.node r).returns (tree.node r) with
          | none => exact .inl ⟨rfl, rfl⟩
          | some value => exact .inr ⟨value, rfl, rfl⟩

end Steps

/-! ## All calls in hindsight -/

section Hindsight

variable {ops : Reductions V τ} {calls : List (Reduce.Call n V)}

/-- **The calls that the ranks have contributed to**: the `j`-th contribution of each rank is
its input to the `j`-th call of one list. -/
def Lists (ops : Reductions V τ) (calls : List (Reduce.Call n V)) (c : Sys n P σ V C) : Prop :=
  ∀ (r : Fin n) (j : ℕ) (value : V), (c.rank r).otherPosts[j]? = some value →
    ∃ call, calls[j]? = some call ∧ call.input r = value ∧
      (ops.call (n := n) (ops.op value) (fun _ => value) fun _ => rfl).Alike call

/-- A list of calls that fits the contributions of the ranks also fits what they had contributed
earlier. -/
theorem Lists.of_prefix {c d : Sys n P σ V C} (h : Lists ops calls d)
    (grows : ∀ r, (c.rank r).otherPosts <+: (d.rank r).otherPosts) : Lists ops calls c := by
  intro r j value found
  obtain ⟨short, rfl⟩ := List.getElem?_eq_some_iff.mp found
  obtain ⟨long, same⟩ := (List.prefix_iff_getElem.mp (grows r))
  refine h r j _ ?_
  rw [same j short]
  exact List.getElem?_eq_getElem _

/-- **The tree, told of the calls**: a rank in no reduction has begun the next one. -/
def Joint.told (x : Joint n P σ V C τ) (calls : List (Reduce.Call n V)) : Reduce.System n V :=
  { x.tree with
    node := fun r =>
      if (x.tree.node r).calls = (x.sys.rank r).otherPosts.length then
        (x.tree.node r).begin calls r
      else x.tree.node r }

theorem Joint.told_congr {x y : Joint n P σ V C τ} (tree : y.tree = x.tree)
    (posts : ∀ i, (y.sys.rank i).otherPosts = (x.sys.rank i).otherPosts) :
    y.told calls = x.told calls := by
  unfold Joint.told
  simp only [tree, posts]

/-- **The beginning of a call** is no news to a tree that is told of the calls begun. -/
theorem Joint.told_begin {x y : Joint n P σ V C τ} {r : Fin n}
    (tree : y.tree = { x.tree with
      node := Function.update x.tree.node r
        ((x.tree.node r).begin (ops.calls (y.sys.rank r).otherPosts) r) })
    (others : ∀ i, i ≠ r → (y.sys.rank i).otherPosts = (x.sys.rank i).otherPosts)
    (free : (x.tree.node r).calls = (x.sys.rank r).otherPosts.length)
    (posts : (y.sys.rank r).otherPosts = (x.sys.rank r).otherPosts ∨
      ∃ value, (y.sys.rank r).otherPosts = (x.sys.rank r).otherPosts ++ [value])
    (lists : Lists ops calls y.sys) : y.told calls = x.told calls := by
  have node : (y.told calls).node = (x.told calls).node := by
    funext i
    by_cases hi : i = r
    · subst hi
      simp only [Joint.told, tree, Function.update_self, free, ↓reduceIte]
      rcases posts with same | ⟨value, more⟩
      · have last : (ops.calls (n := n) (y.sys.rank i).otherPosts)[(x.tree.node i).calls]? = none := by
          simp [Reductions.calls, same, free]
        rw [if_pos (by simp [Reduce.Node.begin, same, free])]
        exact Reduce.Node.begin_begin _ last
      · have own : (y.sys.rank i).otherPosts[(x.tree.node i).calls]? = some value := by
          simp [more, free]
        obtain ⟨call, at_call, input, -⟩ := lists i _ value own
        rw [if_neg (by simp [Reduce.Node.begin, more, free])]
        simp [Reduce.Node.begin, Reductions.calls, own, at_call, input, Reductions.call]
    · simp only [Joint.told, tree, Function.update_of_ne hi, others i hi]
  unfold Joint.told at node ⊢
  simp only [tree] at node ⊢
  rw [node]

end Hindsight

theorem Joint.told_reducing {x : Joint n P σ V C τ} {calls : List (Reduce.Call n V)} {r : Fin n}
    (inside : (x.tree.node r).calls + 1 = (x.sys.rank r).otherPosts.length) :
    (x.told calls).node r = x.tree.node r :=
  if_neg (by omega)

theorem Joint.told_made {x : Joint n P σ V C τ} {calls : List (Reduce.Call n V)}
    (made : ∀ r, (x.tree.node r).seen ≤ x.tree.bcasts.length) (r : Fin n) :
    ((x.told calls).node r).seen ≤ (x.told calls).bcasts.length := by
  simp only [Joint.told]
  split
  · exact made r
  · exact made r

/-- The tree, told of the calls begun, after a node in a reduction has moved: only that node has
changed. -/
theorem Joint.told_moved {x y : Joint n P σ V C τ} {calls : List (Reduce.Call n V)} {r : Fin n}
    (inside : (x.tree.node r).calls + 1 = (x.sys.rank r).otherPosts.length)
    (posts : ∀ i, (y.sys.rank i).otherPosts = (x.sys.rank i).otherPosts)
    (others : ∀ i, i ≠ r → y.tree.node i = x.tree.node i)
    (own : (y.tree.node r).calls = (x.tree.node r).calls ∨
      (y.tree.node r).calls = (x.tree.node r).calls + 1) :
    y.told calls =
      { node := Function.update (x.told calls).node r
          (if (y.tree.node r).calls = (x.tree.node r).calls then y.tree.node r
          else (y.tree.node r).begin calls r)
        net := y.tree.net
        bcasts := y.tree.bcasts } := by
  have node : (y.told calls).node = Function.update (x.told calls).node r
      (if (y.tree.node r).calls = (x.tree.node r).calls then y.tree.node r
      else (y.tree.node r).begin calls r) := by
    funext i
    by_cases hi : i = r
    · subst hi
      rw [Function.update_self]
      simp only [Joint.told, posts i]
      rcases own with same | next
      · rw [if_neg (by omega), if_pos same]
      · rw [if_pos (by omega), if_neg (by omega)]
    · rw [Function.update_of_ne hi]
      simp only [Joint.told, posts i, others i hi]
  unfold Joint.told at node ⊢
  simp only at node ⊢
  rw [node]

/-! ## Runs -/

/-- **A state of a run, as it looks in hindsight**, when the list `calls` of all reductions is
known. -/
structure Joint.Sound [NeZero n] (cfg : Config) (prog : Program n P σ V C) (ops : Reductions V τ)
    (mem : Fin n → σ) (main : Fin n → C) (calls : List (Reduce.Call n V))
    (x : Joint n P σ V C τ) : Prop where
  /-- Without its tree, the state is a reachable state of `comm`. -/
  sys : (comm cfg (ops.program prog) mem main).Reachable x.sys
  /-- A rank in a reduction has contributed to it, and it has not returned. -/
  reducing : ∀ r k, (x.sys.rank r).pc = .reduce k →
    (x.tree.node r).calls + 1 = (x.sys.rank r).otherPosts.length
  free : ∀ r, (∀ k, (x.sys.rank r).pc ≠ .reduce k) →
    (x.tree.node r).calls = (x.sys.rank r).otherPosts.length
  inStep : Reduce.InStep calls (x.told calls)
  made : ∀ r, (x.tree.node r).seen ≤ x.tree.bcasts.length

section Runs

variable [NeZero n] {cfg : Config} {prog : Program n P σ V C} {ops : Reductions V τ}
variable {mem : Fin n → σ} {main : Fin n → C} {calls : List (Reduce.Call n V)}
variable {x y : Joint n P σ V C τ}

/-- A step of a listener keeps the state sound, since it has no part in the reductions. -/
theorem Joint.Sound.listens (sound : x.Sound cfg prog ops mem main calls) {r src : Fin n}
    (taken : Sys.step cfg (ops.program prog) x.sys (.listen r src) = some y.sys)
    (tree : y.tree = x.tree) : y.Sound cfg prog ops mem main calls := by
  have quiet : ∀ i, (y.sys.rank i).pc = (x.sys.rank i).pc ∧
      (y.sys.rank i).otherPosts = (x.sys.rank i).otherPosts := by
    intro i
    rcases Sys.step_cases taken with ⟨_, _, _, _, h, -⟩ | ⟨r', src', t, stream, -, receive, next⟩
    · cases h
    · rw [next]
      obtain ⟨listener, queue, eq⟩ := receive.frame i
      simp [eq]
  refine ⟨sound.sys.step (a := .listen r src) taken, fun i k pc => ?_, fun i pc => ?_, ?_, ?_⟩
  · rw [tree, (quiet i).2]
    exact sound.reducing i k ((quiet i).1 ▸ pc)
  · rw [tree, (quiet i).2]
    exact sound.free i fun k => (quiet i).1 ▸ pc k
  · rw [Joint.told_congr tree fun i => (quiet i).2]
    exact sound.inStep
  · rw [tree]
    exact sound.made

/-- A step of a main thread outside the reductions keeps the state sound, also where it enters
one. -/
theorem Joint.Sound.moves (sound : x.Sound cfg prog ops mem main calls)
    (lists : Lists ops calls y.sys) {r : Fin n} {flag : Bool}
    (outside : (x.sys.rank r).reducing = none)
    (taken : Sys.step cfg (ops.program prog) x.sys (.main r flag) = some y.sys)
    (tree : y.tree = { x.tree with
      node := Function.update x.tree.node r
        ((x.tree.node r).begin (ops.calls (y.sys.rank r).otherPosts) r) }) :
    y.Sound cfg prog ops mem main calls := by
  have idle := fun k pc => ((inTurn_of_reachable sound.sys).entered r k pc).1
  have notInside : ∀ k, (x.sys.rank r).pc ≠ .reduce k := by
    intro k pc
    simp [Rank.reducing_eq_some.mpr ⟨idle k pc, pc⟩] at outside
  have free := sound.free r notInside
  rcases Sys.step_cases taken with ⟨r', flag', t, sent, same, move, next⟩ | ⟨_, _, _, _, h, -⟩
  case inr => cases h
  cases same
  have others : ∀ i, i ≠ r → y.sys.rank i = x.sys.rank i := by
    intro i hi
    rw [next]
    exact Function.update_of_ne hi _ _
  have own : y.sys.rank r = t := by simp [next]
  have after : (t.otherPosts = (x.sys.rank r).otherPosts ∨
        ∃ value, t.otherPosts = (x.sys.rank r).otherPosts ++ [value]) ∧
      (∀ k, t.pc = .reduce k → (x.tree.node r).calls + 1 = t.otherPosts.length) ∧
      ((∀ k, t.pc ≠ .reduce k) → (x.tree.node r).calls = t.otherPosts.length) := by
    rcases move.reductions idle with
      ⟨-, after, posts⟩ | ⟨value, k, -, -, -, entered, -⟩ | ⟨value, k, pc, -⟩
    · exact ⟨.inl posts, fun k pc => absurd pc (after k), fun _ => by rw [posts, free]⟩
    · subst entered
      refine ⟨.inr ⟨value, rfl⟩, fun k' _ => by simp [free], fun pc => absurd rfl (pc k)⟩
    · exact absurd pc (notInside k)
  obtain ⟨posts, inside, outside⟩ := after
  have node : ∀ i, (y.tree.node i).calls = (x.tree.node i).calls ∧
      (y.tree.node i).seen = (x.tree.node i).seen := by
    intro i
    by_cases hi : i = r
    · subst hi
      simp [tree, Reduce.Node.begin]
    · simp [tree, hi]
  refine ⟨sound.sys.step (a := .main r flag) taken, fun i k pc => ?_, fun i pc => ?_, ?_,
    fun i => ?_⟩
  · rw [(node i).1]
    by_cases hi : i = r
    · subst hi
      rw [own] at pc ⊢
      exact inside k pc
    · rw [others i hi] at pc ⊢
      exact sound.reducing i k pc
  · rw [(node i).1]
    by_cases hi : i = r
    · subst hi
      rw [own] at pc ⊢
      exact outside pc
    · rw [others i hi] at pc ⊢
      exact sound.free i pc
  · rw [Joint.told_begin tree (fun i hi => by rw [others i hi]) free (by rw [own]; exact posts)
      lists]
    exact sound.inStep
  · have bcasts : y.tree.bcasts = x.tree.bcasts := by rw [tree]
    rw [(node i).2, bcasts]
    exact sound.made i

/-- A rank in a reduction has contributed a value to it, of the operation that the call of all
ranks has. -/
theorem Joint.Sound.at_call (sound : x.Sound cfg prog ops mem main calls)
    (lists : Lists ops calls x.sys) {r : Fin n} {k : V → C} (pc : (x.sys.rank r).pc = .reduce k) :
    ∃ own call, (ops.calls (n := n) (x.sys.rank r).otherPosts)[(x.tree.node r).calls]? = some own ∧
      calls[(x.tree.node r).calls]? = some call ∧ own.Alike call := by
  have inside := sound.reducing r k pc
  have within : (x.tree.node r).calls < (x.sys.rank r).otherPosts.length := by omega
  have posted : (x.sys.rank r).otherPosts[(x.tree.node r).calls]?
      = some (x.sys.rank r).otherPosts[(x.tree.node r).calls] :=
    List.getElem?_eq_getElem within
  obtain ⟨call, at_call, -, alike⟩ := lists r _ _ posted
  exact ⟨_, call, by simp [Reductions.calls, posted], at_call, alike⟩

/-- **A step of a node** is a step of the tree that is told of the calls. -/
theorem Joint.Sound.told_step (sound : x.Sound cfg prog ops mem main calls)
    (lists : Lists ops calls x.sys) {r : Fin n} {k : V → C} (pc : (x.sys.rank r).pc = .reduce k) :
    Reduce.step cfg.synchronous calls r (x.told calls) =
      (Reduce.step cfg.synchronous (ops.calls (x.sys.rank r).otherPosts) r x.tree).map fun tree =>
        { node := Function.update (x.told calls).node r
            (if (tree.node r).calls = (x.tree.node r).calls then tree.node r
            else (tree.node r).begin calls r)
          net := tree.net
          bcasts := tree.bcasts } := by
  have inside := sound.reducing r k pc
  obtain ⟨own, call, at_own, at_call, alike⟩ := sound.at_call lists pc
  refine Reduce.step_congr at_own at_call alike ?_ (Joint.told_reducing inside) rfl rfl
  simp [Reductions.calls, inside]

theorem Lists.value {c : Sys n P σ V C} (lists : Lists ops calls c) {j : ℕ}
    {call : Reduce.Call n V} (at_call : calls[j]? = some call)
    (posted : ∀ i, j < (c.rank i).otherPosts.length) :
    call.value 0 = ops.combine fun i => (c.rank i).otherPosts.get ⟨j, posted i⟩ := by
  have inputs : ∀ i, (c.rank i).otherPosts.get ⟨j, posted i⟩ = call.input i ∧
      call.merge = ops.merge (ops.op (call.input i)) := by
    intro i
    obtain ⟨other, at_other, input, alike⟩ := lists i _ _ (List.getElem?_eq_getElem (posted i))
    cases at_call.symm.trans at_other
    rw [input]
    exact ⟨rfl, alike.merge⟩
  simp only [Reductions.combine, inputs, Reduce.Call.value, (inputs 0).2]

/-- **When a reduction has returned somewhere**, all have contributed to it.  `c` is the tree, in
which `r` may be ahead. -/
theorem Joint.Sound.posted (sound : x.Sound cfg prog ops mem main calls) {r : Fin n}
    {c : Reduce.System n V} (inStep : Reduce.InStep calls c)
    (made : ∀ i, (c.node i).seen ≤ c.bcasts.length)
    (others : ∀ i, i ≠ r → c.node i = (x.told calls).node i) {j : ℕ}
    (returned : j < (c.node r).calls) (own : j < (x.sys.rank r).otherPosts.length) (i : Fin n) :
    j < (x.sys.rank i).otherPosts.length := by
  by_cases hi : i = r
  · subst hi
    exact own
  · -- a rank that has not contributed would still be waiting for its first child
    have through := inStep.begun made returned i .first
    rw [others i hi] at through
    by_cases reducing : ∃ k, (x.sys.rank i).pc = .reduce k
    · obtain ⟨k, pc⟩ := reducing
      have inside := sound.reducing i k pc
      have le := (x.tree.node i).stage.taken_le .first
      rw [Joint.told_reducing inside, Reduce.Node.taken] at through
      omega
    · have free := sound.free i fun k pc => reducing ⟨k, pc⟩
      simp only [Joint.told, free, ↓reduceIte, Reduce.Node.taken, Reduce.Node.begin,
        Reduce.Stage.taken_recvSize] at through
      omega

/-- **The result of a reduction** is the one that `comm` gives the rank, and all ranks have
contributed to it. -/
theorem Joint.Sound.reduced (sound : x.Sound cfg prog ops mem main calls)
    (lists : Lists ops calls x.sys) {r : Fin n} {k : V → C} (pc : (x.sys.rank r).pc = .reduce k)
    {c : Reduce.System n V} (inStep : Reduce.InStep calls c)
    (made : ∀ i, (c.node i).seen ≤ c.bcasts.length)
    (others : ∀ i, i ≠ r → c.node i = (x.told calls).node i)
    (next : (c.node r).calls = (x.tree.node r).calls + 1) {value : V}
    (returned : (c.node r).returned.getLast? = some value) :
    x.sys.reduced (ops.program prog) r = some value := by
  have inside := sound.reducing r k pc
  have last : (x.sys.rank r).otherPosts.length - 1 = (x.tree.node r).calls := by omega
  have posted := sound.posted inStep made others (j := (x.tree.node r).calls) (by omega) (by omega)
  simp only [Sys.reduced, last]
  rw [dif_pos posted]
  obtain ⟨own, call, -, at_call, -⟩ := sound.at_call lists pc
  have all := (inStep.node r).returned
  rw [next, List.take_add_one, at_call] at all
  have result : call.value 0 = value := by simpa [all] using returned
  rw [← result, lists.value at_call posted]
  rfl

/-- In the step in which a reduction returns on a rank, its value is the result that `comm`
gives the reduction. -/
theorem Joint.Sound.result (sound : x.Sound cfg prog ops mem main calls)
    (lists : Lists ops calls x.sys) {r : Fin n} {k : V → C} (pc : (x.sys.rank r).pc = .reduce k)
    (taken : Reduce.step cfg.synchronous (ops.calls (x.sys.rank r).otherPosts) r x.tree
      = some y.tree) {value : V}
    (returns : (x.tree.node r).returns (y.tree.node r) = some value)
    (posts : ∀ i, (y.sys.rank i).otherPosts = (x.sys.rank i).otherPosts)
    (inStep : Reduce.InStep calls (y.told calls)) :
    (y.tree.node r).calls = (x.tree.node r).calls + 1 ∧
      x.sys.reduced (ops.program prog) r = some value := by
  have inside := sound.reducing r k pc
  obtain ⟨others, own⟩ := Reduce.step_calls taken
  have next : (y.tree.node r).calls = (x.tree.node r).calls + 1 := by
    rcases own with here | ⟨value, h⟩
    · simp [Reduce.Node.returns, here] at returns
    · rw [h, Reduce.Node.return_calls]
  have last : (y.tree.node r).returned.getLast? = some value := by
    simpa [Reduce.Node.returns, next] using returns
  have told : y.told calls = _ := Joint.told_moved inside posts others (.inr next)
  have known : (y.told calls).node r = (y.tree.node r).begin calls r := by
    rw [told, if_neg (by omega)]
    exact Function.update_self _ _ _
  have made : ∀ i, ((y.told calls).node i).seen ≤ (y.told calls).bcasts.length :=
    Joint.told_made (Reduce.step_seen taken sound.made)
  refine ⟨next, sound.reduced lists pc inStep made (fun i hi => ?_) ?_ ?_⟩
  · rw [told]
    exact Function.update_of_ne hi _ _
  · rw [known]
    exact next
  · rw [known]
    exact last

/-- A step of a main thread in a reduction keeps the state sound, also where the reduction
returns. -/
theorem Joint.Sound.reduces (sound : x.Sound cfg prog ops mem main calls)
    (lists : Lists ops calls x.sys) {r : Fin n} {k : V → C}
    (stack : (x.sys.rank r).stack = []) (pc : (x.sys.rank r).pc = .reduce k)
    (taken : Reduce.step cfg.synchronous (ops.calls (x.sys.rank r).otherPosts) r x.tree
      = some y.tree)
    (goes : (x.tree.node r).returns (y.tree.node r) = none ∧ y.sys = x.sys ∨
      ∃ value, (x.tree.node r).returns (y.tree.node r) = some value ∧
        y.sys = { x.sys with
          rank := Function.update x.sys.rank r
            { x.sys.rank r with pc := .user, code := k value } })
    (unthrown : (y.tree.node r).stage ≠ .thrown) : y.Sound cfg prog ops mem main calls := by
  have inside := sound.reducing r k pc
  obtain ⟨others, own⟩ := Reduce.step_calls taken
  have posts : ∀ i, (y.sys.rank i).otherPosts = (x.sys.rank i).otherPosts := by
    intro i
    rcases goes with ⟨-, same⟩ | ⟨value, -, returned⟩
    · rw [same]
    · rw [returned]
      by_cases hi : i = r
      · subst hi
        simp
      · simp [hi]
  have goes_on : (y.tree.node r).calls = (x.tree.node r).calls ∨
      (y.tree.node r).calls = (x.tree.node r).calls + 1 := own.imp id fun ⟨value, h⟩ => by
    rw [h, Reduce.Node.return_calls]
  have told : y.told calls = _ := Joint.told_moved inside posts others goes_on
  -- the tree that is told of the calls takes the same step
  have moved := sound.told_step lists pc
  rw [taken, Option.map_some, ← told] at moved
  have inStep : Reduce.InStep calls (y.told calls) := by
    refine sound.inStep.step_of_unthrown moved ?_
    rw [told]
    simp only [Function.update_self]
    split
    · exact unthrown
    · simp [Reduce.Node.begin]
  have made := Reduce.step_seen taken sound.made
  rcases goes with ⟨stays, same⟩ | ⟨value, returns, returned⟩
  · have here := Reduce.calls_of_returns taken stays
    have calls_eq : ∀ i, (y.tree.node i).calls = (x.tree.node i).calls := by
      intro i
      by_cases hi : i = r
      · rw [hi, here]
      · rw [others i hi]
    refine ⟨same ▸ sound.sys, fun i k pc => ?_, fun i pc => ?_, inStep, made⟩
    · rw [calls_eq, same]
      rw [same] at pc
      exact sound.reducing i k pc
    · rw [calls_eq, same]
      rw [same] at pc
      exact sound.free i pc
  · obtain ⟨next, result⟩ := sound.result lists pc taken returns posts inStep
    have taken' : Sys.step cfg (ops.program prog) x.sys (.main r true) = some y.sys := by
      simp [Sys.step, mainStep, stack, topStep, pc, Sys.view, result, returned, Sys.send]
    refine ⟨sound.sys.step (a := .main r true) taken', fun i k' pc' => ?_, fun i pc' => ?_,
      inStep, made⟩
    · have other : i ≠ r := by
        rintro rfl
        simp [returned] at pc'
      rw [posts i, others i other]
      refine sound.reducing i k' ?_
      simpa [returned, other] using pc'
    · by_cases hi : i = r
      · rw [posts i, hi, next, inside]
      · rw [posts i, others i hi]
        refine sound.free i fun k' pc'' => pc' k' ?_
        simpa [returned, hi] using pc''

/-- **Seen from `comm`** a step is one of its steps, or a message of a reduction. -/
theorem Joint.Sound.sys_step (sound : x.Sound cfg prog ops mem main calls)
    (sound' : y.Sound cfg prog ops mem main calls) (lists : Lists ops calls x.sys) {a : Action n}
    (taken : Joint.step cfg prog ops x a = some y) :
    Sys.step cfg (ops.program prog) x.sys a = some y.sys ∨ y.sys = x.sys := by
  rcases Joint.step_cases taken with ⟨r, src, rfl, moved, -⟩ | ⟨r, flag, rfl, -, moved, -⟩ |
    ⟨r, flag, k, rfl, stack, pc, moved, -, ⟨-, same⟩ | ⟨value, returns, returned⟩⟩
  · exact .inl moved
  · exact .inl moved
  · exact .inr same
  · have posts : ∀ i, (y.sys.rank i).otherPosts = (x.sys.rank i).otherPosts := by
      intro i
      rw [returned]
      by_cases hi : i = r
      · subst hi
        simp
      · simp [hi]
    obtain ⟨-, result⟩ := sound.result lists pc moved returns posts sound'.inStep
    left
    simp [Sys.step, mainStep, stack, topStep, pc, Sys.view, result, returned, Sys.send]

/-- The contributions of a rank to reductions stay where they are in every step of the whole
system. -/
theorem Joint.step_posts {a : Action n} (taken : Joint.step cfg prog ops x a = some y) (i : Fin n) :
    (x.sys.rank i).otherPosts <+: (y.sys.rank i).otherPosts := by
  rcases Joint.step_cases taken with ⟨r, src, rfl, moved, -⟩ | ⟨r, flag, rfl, -, moved, -⟩ |
    ⟨r, flag, k, rfl, -, -, -, -, ⟨-, same⟩ | ⟨value, -, returned⟩⟩
  · exact step_otherPosts moved i
  · exact step_otherPosts moved i
  · rw [same]
  · rw [returned]
    by_cases hi : i = r
    · subst hi
      simp
    · simp [hi]

/-- The assertion of `barrier` has failed on the rank. -/
def Pc.isThrown : Pc V C → Bool
  | .thrown .. => true
  | _ => false

/-- The assertion of `all_reduce` has failed on the node. -/
def Reduce.Stage.isThrown : Reduce.Stage → Bool
  | .thrown => true
  | _ => false

/-- **No assertion has failed**, in `barrier`, in `all_reduce` or on the result of a receive. -/
def Joint.Unthrown (cfg : Config) (x : Joint n P σ V C τ) : Prop :=
  (∀ r, (x.sys.rank r).pc.isThrown = false ∧ (x.tree.node r).stage.isThrown = false) ∧
    x.sys.Untruncated cfg

instance (cfg : Config) (x : Joint n P σ V C τ) : Decidable (x.Unthrown cfg) :=
  inferInstanceAs (Decidable (_ ∧ _))

/-- The step is one after which no assertion has failed. -/
def Joint.Passes (cfg : Config) (prog : Program n P σ V C) (ops : Reductions V τ)
    (x : Joint n P σ V C τ) (a : Action n) : Prop :=
  ∀ y ∈ Joint.step cfg prog ops x a, y.Unthrown cfg

instance (x : Joint n P σ V C τ) (a : Action n) : Decidable (x.Passes cfg prog ops a) :=
  inferInstanceAs (Decidable (∀ y ∈ Joint.step cfg prog ops x a, y.Unthrown cfg))

variable [Inhabited V]

theorem Joint.sound_init : (joint cfg prog ops mem main).init.Sound cfg prog ops mem main calls where
  sys := .init
  reducing := by simp [joint, comm, Rank.init]
  free := fun _ _ => rfl
  inStep := @Reduce.inStep_init n V _ _ true calls
  made := fun _ => Nat.zero_le _

/-- **Every state of a run is one of both machines**: without the tree it is a state of `comm`,
and the tree, told of any list of calls that agrees with the contributions, is in step. -/
theorem sound_of_reachable (h : (joint cfg prog ops mem main).ReachableBy (Joint.Passes cfg prog ops) x)
    (lists : Lists ops calls x.sys) : x.Sound cfg prog ops mem main calls := by
  refine h.invariant (I := fun x => ∀ calls, Lists ops calls x.sys →
    x.Sound cfg prog ops mem main calls) (fun calls _ => Joint.sound_init) ?_ calls lists
  intro x a y _ inv passes taken calls lists
  have before := lists.of_prefix (Joint.step_posts taken)
  have sound := inv calls before
  rcases Joint.step_cases taken with ⟨r, src, rfl, moved, tree, -⟩ |
    ⟨r, flag, rfl, outside, moved, tree, -⟩ | ⟨r, flag, k, rfl, stack, pc, moved, -, goes⟩
  · exact sound.listens moved tree
  · exact sound.moves lists outside moved tree
  · have unthrown := ((passes y taken).1 r).2
    refine sound.reduces before stack pc moved goes fun thrown => ?_
    simp [thrown, Reduce.Stage.isThrown] at unthrown

end Runs

end YGM
