import YGM.Comm.Model

/-!
# Straight-line user code

The smallest instance of `Program`: user code is a list of communicator calls,
and a packed call carries the size of its arguments and the list its handler
runs.  Runs of the communicator on concrete programs are written with it.

A run too long to be computed is put together from stretches in which the main thread of one
rank moves by itself (`Alone`), and from steps that every rank takes whatever the others have
done so far (`leads_all`); a barrier that finds nothing outstanding is such steps
(`leads_barrier`).
-/

namespace YGM

variable {n : ℕ}

/-- A communicator call that straight-line user code makes. -/
inductive Act (n : ℕ)
  /-- `async(dest, …)` with `args` bytes of arguments and a handler doing `body`. -/
  | async (dest : Fin n) (args : ℕ) (body : List (Act n))
  | asyncFlush (dest : Fin n)
  | asyncFlushAll
  | barrier

/-- The user code that makes a list of calls, one after the other, and returns when the list is
empty. -/
def script (n : ℕ) : Program n (ℕ × List (Act n)) Unit Unit (List (Act n)) where
  next code _ :=
    match code with
    | [] => .ret ()
    | .async dest args body :: k => .async dest (args, body) k
    | .asyncFlush dest :: k => .asyncFlush dest k
    | .asyncFlushAll :: k => .asyncFlushAll k
    | .barrier :: k => .barrier k
  handler _ payload := payload.2
  packedSize payload := 8 + payload.1
  offset_le payload := Nat.le_add_right 8 payload.1
  combine _ := ()

/-- The communicator on straight-line main programs, one list of calls for each rank. -/
def scriptComm (cfg : Config) (main : Fin n → List (Act n)) :
    Machine (Sys n (ℕ × List (Act n)) Unit Unit (List (Act n))) (Action n) :=
  comm cfg (script n) (fun _ => ()) main

/-- The main thread of `r` moves `k` times in a row, and `MPI_Test` reports every request that
is complete. -/
def mains (r : Fin n) (k : ℕ) : List (Action n) :=
  List.replicate k (.main r true)

/-! ## Long runs -/

section Long

variable {P σ V C : Type} {cfg : Config} {prog : Program n P σ V C}
variable {mem : Fin n → σ} {main : Fin n → C}

/-- Steps of a main thread that depend on nothing outside its rank and send nothing, so they can
be taken whatever the rest of the system is. -/
def Alone (cfg : Config) (prog : Program n P σ V C) (r : Fin n) :
    Rank n P σ V C → Rank n P σ V C → Prop :=
  Relation.ReflTransGen fun s t => ∀ w, mainStep cfg prog r w s = some (t, none)

theorem Alone.leads {r : Fin n} {s t : Rank n P σ V C} (alone : Alone cfg prog r s t)
    (ranks : Fin n → Rank n P σ V C) (net : Fin n → Fin n → List (Packet n P)) :
    (comm cfg prog mem main).Leads ⟨Function.update ranks r s, net⟩
      ⟨Function.update ranks r t, net⟩ := by
  induction alone with
  | refl => exact .refl
  | @tail s t _ moves ih =>
      refine ih.tail ⟨.main r true, ?_⟩
      show Sys.step cfg prog ⟨Function.update ranks r s, net⟩ (.main r true) = _
      simp only [Sys.step, Function.update_self, moves, Option.map_some, Function.update_idem]
      rfl

/-- If sends may be buffered, an `async_flush` that finds its send buffer filled sends the
buffer and returns. -/
theorem leads_flush {r d : Fin n} {s : Rank n P σ V C} {rest : List (Frame n P C)}
    (stack : s.stack = .flush d :: rest) (other : d ≠ r) (some : s.sendBuffers d ≠ [])
    (buffered : cfg.synchronous = false) (ranks : Fin n → Rank n P σ V C)
    (net : Fin n → Fin n → List (Packet n P)) :
    (comm cfg prog mem main).Leads ⟨Function.update ranks r s, net⟩
      ⟨Function.update ranks r { s with
          sendBuffers := Function.update s.sendBuffers d []
          stack := rest }, Sys.send net r (.some (d, .buffer (s.sendBuffers d)))⟩ := by
  have sent : Alone cfg prog r
      { s with
        sendBuffers := Function.update s.sendBuffers d []
        stack := .sending d :: rest }
      { s with
        sendBuffers := Function.update s.sendBuffers d []
        stack := rest } := .single fun w => by simp [mainStep, frameStep, buffered]
  refine .trans (.single ⟨.main r true, ?_⟩) (sent.leads ranks _)
  show Sys.step cfg prog ⟨Function.update ranks r s, net⟩ (.main r true) = _
  simp [Sys.step, mainStep, stack, frameStep, asyncFlush, other, some]

/-- An `async_flush_all` that finds nothing to send returns without changing anything else. -/
theorem flushAll_alone {r : Fin n} {s : Rank n P σ V C} {rest : List (Frame n P C)}
    (empty : ∀ d, d ≠ r → s.sendBuffers d = []) (i : ℕ) (stack : s.stack = .flushAll i :: rest) :
    Alone cfg prog r s { s with stack := rest } := by
  induction left : n - i generalizing i s with
  | zero =>
      refine .single fun w => ?_
      simp [mainStep, stack, frameStep, show ¬ i < n by omega]
  | succ k ih =>
      have more : i < n := by omega
      have nothing : flushDest r i = r ∨ s.sendBuffers (flushDest r i) = [] := by
        by_cases own : flushDest r i = r
        · exact .inl own
        · exact .inr (empty _ own)
      refine .head (b := { s with stack := .flush (flushDest r i) :: .flushAll (i + 1) :: rest })
        (fun w => by simp [mainStep, stack, frameStep, more]) ?_
      refine .head (b := { s with stack := .flushAll (i + 1) :: rest })
        (fun w => by simp [mainStep, frameStep, asyncFlush, nothing]) ?_
      exact ih empty (i + 1) rfl (by omega)

/-- A `wait_local_idle` that finds empty send buffers and an empty receive queue returns, having
received nothing. -/
theorem idle_alone {r : Fin n} {s : Rank n P σ V C} {rest : List (Frame n P C)}
    (empty : ∀ d, d ≠ r → s.sendBuffers d = []) (queue : s.receiveQueue = [])
    (stack : s.stack = .idle :: rest) :
    Alone cfg prog r s { s with received := false, stack := rest } := by
  refine .head (b := { s with stack := .flushAll 0 :: .recv false :: .idleTest :: rest })
    (fun w => by simp [mainStep, stack, frameStep]) ?_
  refine (flushAll_alone (s := { s with stack := .flushAll 0 :: .recv false :: .idleTest :: rest })
    empty 0 rfl).trans ?_
  refine .head (b := { s with received := false, stack := .idleTest :: rest })
    (fun w => by simp [mainStep, frameStep, queue]) ?_
  exact .single fun w => by simp [mainStep, frameStep]

/-- **Every rank takes a step**, if each has one that it can take whichever of the others have
already taken theirs. -/
theorem leads_all {c : Sys n P σ V C} (new : Fin n → Rank n P σ V C)
    (steps : ∀ d : Sys n P σ V C, (∀ i, d.rank i = c.rank i ∨ d.rank i = new i) → ∀ r,
      d.rank r = c.rank r →
        ∃ flag, mainStep cfg prog r (d.view prog r flag) (c.rank r) = some (new r, none)) :
    (comm cfg prog mem main).Leads c { c with rank := new } := by
  suffices some_ : ∀ moved : List (Fin n), (comm cfg prog mem main).Leads c
      { c with rank := fun i => if i ∈ moved then new i else c.rank i } by
    simpa using some_ (List.finRange n)
  intro moved
  induction moved with
  | nil => exact .refl
  | cons r moved ih =>
      by_cases before : r ∈ moved
      · have same : (fun i => if i ∈ r :: moved then new i else c.rank i)
            = fun i => if i ∈ moved then new i else c.rank i := by
          funext i
          by_cases here : i = r <;> simp [here, before]
        rwa [same]
      · set d : Sys n P σ V C := { c with rank := fun i => if i ∈ moved then new i else c.rank i }
          with hd
        have still : d.rank r = c.rank r := by simp [hd, before]
        obtain ⟨flag, moves⟩ := steps d (fun i => by by_cases hi : i ∈ moved <;> simp [hd, hi]) r still
        refine ih.tail ⟨.main r flag, ?_⟩
        show Sys.step cfg prog d (.main r flag) = _
        rw [Sys.step, still, moves]
        refine congrArg some (congrArg₂ Sys.mk ?_ rfl)
        funext i
        by_cases here : i = r
        · subst here
          simp
        · simp [hd, here]

/-- The result of the first collective, if every rank has posted to it and the second is not
complete. -/
theorem allCount_first {c : Sys n P σ V C} (kind : Kind) (count : Fin n → ℤ)
    (posts : ∀ i, ∃ more, (c.rank i).barrierPosts = (kind, count i) :: more) {r : Fin n}
    (last : (c.rank r).barrierPosts.length = 1) : c.allCount r = some (∑ i, count i) := by
  have complete : ∀ i, (c.rank r).barrierPosts.length - 1 < (c.rank i).barrierPosts.length := by
    intro i
    obtain ⟨more, eq⟩ := posts i
    simp [last, eq]
  rw [Sys.allCount, result, if_pos complete, total, last]
  refine congrArg some (Finset.sum_congr rfl fun i _ => ?_)
  obtain ⟨more, eq⟩ := posts i
  simp [contribution, eq]

theorem allCount_second {c : Sys n P σ V C} (first : Fin n → Kind × ℤ) (kind : Kind)
    (count : Fin n → ℤ) (posts : ∀ i, (c.rank i).barrierPosts = [first i, (kind, count i)]) (r : Fin n) :
    c.allCount r = some (∑ i, count i) := by
  have complete : ∀ i, (c.rank r).barrierPosts.length - 1 < (c.rank i).barrierPosts.length := by
    simp [posts]
  rw [Sys.allCount, result, if_pos complete, total]
  refine congrArg some (Finset.sum_congr rfl fun i _ => ?_)
  simp [contribution, posts]

/-- **A first barrier that finds nothing outstanding** is left by all ranks, with the counters
as they were. -/
theorem leads_barrier {c : Sys n P σ V C} {count : Fin n → ℤ}
    (sample : ∀ r, (c.rank r).pc = .sample) (stack : ∀ r, (c.rank r).stack = [])
    (posts : ∀ r, (c.rank r).barrierPosts = [])
    (counts : ∀ r, (c.rank r).sendCount - (c.rank r).recvCount = count r)
    (zero : ∑ r, count r = 0) :
    (comm cfg prog mem main).Leads c { c with rank := fun r => { c.rank r with
      pc := .user
      epoch := (c.rank r).epoch + 1
      barrierPosts := [(.first, count r), (.second, count r)] } } := by
  let sampled (r : Fin n) : Rank n P σ V C := { c.rank r with
    pc := .test (count r)
    barrierPosts := [(.first, count r)] }
  let confirmed (r : Fin n) : Rank n P σ V C := { c.rank r with
    pc := .second (count r) (count r)
    barrierPosts := [(.first, count r), (.second, count r)] }
  refine (leads_all sampled fun d _ r _ => ⟨true, ?_⟩).trans
    ((leads_all confirmed fun d ranks r still => ⟨true, ?_⟩).trans
      (leads_all _ fun d ranks r still => ⟨true, ?_⟩))
  · simp [mainStep, stack, topStep, sample, posts, sampled, Rank.localCount, counts]
  · have result : d.allCount r = some (∑ i, count i) := by
      refine allCount_first .first count (fun i => ?_) (by simp [still, sampled])
      rcases ranks i with same | moved
      · exact ⟨[], by simp [same, sampled]⟩
      · exact ⟨[(.second, count i)], by simp [moved, confirmed]⟩
    simp [mainStep, sampled, stack, topStep, Sys.view, result, zero, confirmed, Rank.localCount,
      counts]
  · have result : d.allCount r = some (∑ i, count i) := by
      refine allCount_second (fun i => (.first, count i)) .second count (fun i => ?_) r
      rcases ranks i with same | moved
      · simp [same, confirmed]
      · simp [moved]
    simp [mainStep, confirmed, stack, topStep, Sys.view, result, zero]

end Long

end YGM
