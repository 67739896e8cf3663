import YGM.Comm.Outline
import YGM.Comm.Reductions
import YGM.Containers.Refinement

/-!
# Collective operations separate epochs

`clear`, `size`, `count`, `swap`, `for_all`, `serialize` and `deserialize` are a barrier
and a local step, with nothing behind it.  The local step is code that is only reached
from `barrier`, so it runs between two epochs (`fresh_of_reachable`): what was called
before the barrier has been executed everywhere, and nothing that any rank calls after
it has been executed here, as no call is executed between the return of `barrier` and
the local step.

`size` and `count` then reduce what every rank found in its local step.  A rank that has
contributed to the reduction has done so with that number and no other
(`Stands.posted`), so all ranks get the sum of these numbers.
-/

namespace YGM

variable {n : ℕ} {ι K V A τ U : Type} [DecidableEq ι] [LinearOrder K]
variable {env : Env n ι K V A τ U} {cfg : Config}

/-! ## The local step is fresh -/

/-- The code points of local steps, which are reached by leaving a `barrier` and in no other
way. -/
def Code.IsStep : Code n ι K V A τ U → Prop
  | .step .. => True
  | _ => False

/-- A code point that issues operations, if at all, before it goes on with code that is no local
step. -/
def Code.Issues : Code n ι K V A τ U → Prop
  | .issue _ _ k => ¬ k.IsStep ∧ k.Issues
  | _ => True

theorem Env.command_avoids {wrap : U → Code n ι K V A τ U}
    {ret : Mem n ι K V A τ → Cmd n (Payload ι K V A U) (Mem n ι K V A τ) (Value ι K V)
      (Code n ι K V A τ U)} (wraps : ∀ k, ¬ (wrap k).IsStep) (rets : ∀ mem, (ret mem).Avoids Code.IsStep)
    (mem : Mem n ι K V A τ) (call : Call n ι K V A τ U) :
    (env.command mem wrap ret call).Avoids Code.IsStep := by
  cases call with
  | ret user => exact rets _
  | barrier k => trivial
  | collective step k => trivial
  | allReduceSum value k => exact fun _ => wraps _
  | topk id k cfn next => exact fun _ => wraps _
  | bagInsert name item k => exact id
  | _ => exact wraps _

theorem Env.command_keeps_issues {wrap : U → Code n ι K V A τ U}
    {ret : Mem n ι K V A τ → Cmd n (Payload ι K V A U) (Mem n ι K V A τ) (Value ι K V)
      (Code n ι K V A τ U)} (wraps : ∀ k, ¬ (wrap k).IsStep ∧ (wrap k).Issues)
    {cause : Option (Rpc n (Payload ι K V A U))}
    (rets : ∀ mem, (ret mem).Keeps (fun _ => Code.Issues) (fun _ _ => True) cause)
    (mem : Mem n ι K V A τ) (call : Call n ι K V A τ U) :
    (env.command mem wrap ret call).Keeps (fun _ => Code.Issues) (fun _ _ => True) cause := by
  cases call with
  | ret user => exact rets _
  | compute user k => exact (wraps k).2
  | asyncFlush dest k => exact (wraps k).2
  | asyncFlushAll k => exact (wraps k).2
  | barrier k => exact fun _ => (wraps k).2
  | collective step k => exact fun _ => trivial
  | allReduceSum value k => exact fun _ _ => (wraps _).2
  | topk id k cfn next => exact fun _ _ => (wraps _).2
  | bagInsert name item k => exact wraps k
  | _ => exact ⟨trivial, (wraps _).2⟩

/-- The outline of all programs: after issuing an operation, the user's code goes on and no
local step comes next. -/
def Env.issuing (env : Env n ι K V A τ U) : Outline env.program where
  code := fun _ => Code.Issues
  call := fun _ _ => True
  start := fun m _ => by
    cases payload : m.payload <;> simp [program, Code.Issues]
  next := fun cause k mem issues => by
    cases k with
    | user u =>
        refine env.command_keeps_issues (fun _ => ?_) (fun _ => ?_) mem _
        · exact ⟨id, trivial⟩
        · trivial
    | serve src o =>
        simp only [program, serve]
        repeat' split
        all_goals trivial
    | entry src id key a pos =>
        simp only [program, visitEntry]
        repeat' split
        all_goals trivial
    | visiting u src id' key a pos =>
        simp only [program]
        refine env.command_keeps_issues (fun _ => ?_) (fun _ => ?_) mem _
        · exact ⟨id, trivial⟩
        · trivial
    | issue dest o k => exact ⟨trivial, issues.2⟩
    | step step k =>
        simp only [program]
        split
        · trivial
        · trivial
        · exact fun _ _ => trivial

theorem Env.program_avoids (env : Env n ι K V A τ U)
    (cause : Option (Rpc n (Payload ι K V A U))) (k : Code n ι K V A τ U)
    (mem : Mem n ι K V A τ) (issues : env.issuing.code cause k) :
    (env.program.next k mem).Avoids Code.IsStep := by
  cases k with
  | user u =>
      refine env.command_avoids (fun _ => ?_) (fun _ => ?_) mem _
      · exact id
      · trivial
  | serve src o =>
      simp only [program, serve]
      repeat' split
      all_goals first | trivial | exact id
  | entry src id' key a pos =>
      simp only [program, visitEntry]
      repeat' split
      all_goals first | trivial | exact id
  | visiting u src id' key a pos =>
      simp only [program]
      refine env.command_avoids (fun _ => ?_) (fun _ => ?_) mem _
      · exact id
      · exact id
  | issue dest o k => exact issues.1
  | step step k =>
      simp only [program]
      split
      · trivial
      · exact id
      · exact fun _ => id

/-! ## The step of a rank at its local step -/

/-- The state of the communicator on which the container program runs. -/
abbrev Tables (n : ℕ) (ι K V A τ U : Type) [LinearOrder K] : Type :=
  Sys n (Payload ι K V A U) (Mem n ι K V A τ) (Value ι K V) (Code n ι K V A τ U)

/-- **A rank is at the local step** of a collective operation: it has left the barrier of the
operation and is about to take the step. -/
structure AtStep (s : Rank n (Payload ι K V A U) (Mem n ι K V A τ) (Value ι K V)
    (Code n ι K V A τ U)) (step : LocalStep ι K V τ) (k : ℕ → U) : Prop where
  pc : s.pc = .user
  code : s.code = .step step k

section Step

variable {c : Tables n ι K V A τ U} {r : Fin n} {step : LocalStep ι K V τ} {k : ℕ → U}

/-- The main program of a rank at a local step takes this step, which changes the memory or
contributes a number to a reduction. -/
theorem AtStep.takes (at_step : AtStep (c.rank r) step k) (stack : (c.rank r).stack = [])
    (flag : Bool) :
    Sys.step cfg env.program c (.main r flag) =
      match (c.rank r).mem.localStep step with
      | none => none
      | some (.inl after) => some { c with rank := Function.update c.rank r { c.rank r with
          mem := after.log (.step step), code := .user (k 0), stack := [] } }
      | some (.inr value) => some { c with rank := Function.update c.rank r { c.rank r with
          pc := .reduce fun out => .user (k out.num)
          otherPosts := (c.rank r).otherPosts ++ [.count value] } } := by
  have code := at_step.code
  have pc := at_step.pc
  cases effect : (c.rank r).mem.localStep step with
  | none =>
      simp [Sys.step, mainStep, stack, topStep, pc, code, Env.program, effect, userStep]
  | some effect' =>
      cases effect' <;>
        simp [Sys.step, mainStep, stack, topStep, pc, code, Env.program, effect, userStep,
          Rank.resume, Sys.send]

end Step

/-- **A rank that is at a local step with a number to contribute** either stays there with its
memory and its contributions unchanged, or has contributed this number. -/
theorem AtStep.posted {c d : Tables n ι K V A τ U} {r : Fin n} {step : LocalStep ι K V τ}
    {k : ℕ → U} (at_step : AtStep (c.rank r) step k) (stack : (c.rank r).stack = []) {amount : ℕ}
    (value : (c.rank r).mem.localStep step = some (.inr amount))
    {start : Fin n → Mem n ι K V A τ} {main : Fin n → Code n ι K V A τ U}
    (leads : (comm cfg env.program start main).Leads c d) :
    (AtStep (d.rank r) step k ∧ (d.rank r).stack = [] ∧ (d.rank r).mem = (c.rank r).mem ∧
      (d.rank r).otherPosts = (c.rank r).otherPosts) ∨
    (c.rank r).otherPosts ++ [.count amount] <+: (d.rank r).otherPosts := by
  induction leads with
  | refl => exact .inl ⟨at_step, stack, rfl, rfl⟩
  | @tail d d' _ taken ih =>
      obtain ⟨a, taken⟩ := taken
      change Sys.step cfg env.program d a = some d' at taken
      rcases Sys.step_cases taken with
        ⟨i, flag, t, sent, rfl, move, rfl⟩ | ⟨i, src, t, stream, -, receive, rfl⟩
      · by_cases hi : r = i
        · subst hi
          rcases ih with ⟨stands, idle, mem, posts⟩ | posted
          · right
            rw [stands.takes idle, mem, value] at taken
            have after := congrArg (fun d : Tables n ι K V A τ U => (d.rank r).otherPosts)
              (Option.some.inj taken)
            simp only [Function.update_self] at after ⊢
            rw [← after, posts]
          · right
            simpa using posted.trans move.otherPosts
        · simpa [hi] using ih
      · obtain ⟨listener, queue, eq⟩ := receive.frame r
        simp only [eq]
        rcases ih with ⟨stands, idle, mem, posts⟩ | posted
        · exact .inl ⟨⟨stands.pc, stands.code⟩, idle, mem, posts⟩
        · exact .inr posted

/-! ## Epoch separation -/

/-- **The separation of epochs at a local step.** Calls that main code issues before it enters
the barrier of the operation, and all they cause, have an epoch below that of the rank; calls
that a rank issues after its own return have not. -/
structure Separated (cfg : Config) (env : Env n ι K V A τ U) (c : Tables n ι K V A τ U)
    (r : Fin n) (step : LocalStep ι K V τ) : Prop where
  /-- Every call of an earlier epoch has been executed, on whatever rank. -/
  before : Quiescent c (c.rank r).epoch
  /-- No call of this epoch or a later one has been executed on the rank, and no handler is
  running there. -/
  after : (∀ e ∈ (c.rank r).executed, e.rpc.epoch < (c.rank r).epoch) ∧ (c.rank r).stack = []
  /-- If the local step changes the memory, it is the next step of the rank's main program, and
  executes no call. -/
  changes : ∀ mem, (c.rank r).mem.localStep step = some (.inl mem) → ∀ flag, ∃ d,
    Sys.step cfg env.program c (.main r flag) = some d ∧
      (d.rank r).mem = mem.log (.step step) ∧ (d.rank r).executed = (c.rank r).executed
  /-- If the local step contributes a number, the contribution is the next step of the rank's
  main program. -/
  contributes : ∀ value, (c.rank r).mem.localStep step = some (.inr value) → ∀ flag, ∃ d,
    Sys.step cfg env.program c (.main r flag) = some d ∧
      (d.rank r).otherPosts = (c.rank r).otherPosts ++ [.count value] ∧
      (d.rank r).mem = (c.rank r).mem ∧ (d.rank r).executed = (c.rank r).executed

/-- A container is empty after `clear`. -/
theorem Mem.size_clear (mem : Mem n ι K V A τ) (container : Container ι) :
    (mem.clear container).size container = 0 := by
  cases container <;> simp [clear, size, setMap, setSet, setBag, MapImpl.localClear,
    Multimap.empty, Multimap.size]

section Runs

variable {start : Fin n → Mem n ι K V A τ} {main : Fin n → U}

theorem separated {c : Tables n ι K V A τ U}
    (h : (comm cfg env.program start fun r => .user (main r)).Reachable c) {r : Fin n}
    {step : LocalStep ι K V τ} {k : ℕ → U} (at_step : AtStep (c.rank r) step k) :
    Separated cfg env c r step := by
  have code : (c.rank r).code.IsStep := by
    rw [at_step.code]
    trivial
  have issues : ∀ r, env.issuing.code none (.user (main r)) := fun _ => trivial
  obtain ⟨stack, quiescent, executed⟩ :=
    fresh_of_reachable env.program_avoids issues (fun _ => id) h at_step.pc code
  refine ⟨quiescent, ⟨executed, stack⟩, fun mem effect flag => ?_, fun value effect flag => ?_⟩
  · refine ⟨_, (at_step.takes stack flag).trans (by rw [effect]), ?_, ?_⟩ <;> simp
  · refine ⟨_, (at_step.takes stack flag).trans (by rw [effect]), ?_, ?_, ?_⟩ <;> simp

/-- **Every rank gets the same number** from the reduction of `size` or `count`: the sum of the
numbers that the ranks found in their local steps. -/
theorem reduced_eq {at_rank : Fin n → Tables n ι K V A τ U} {c : Tables n ι K V A τ U}
    {step : LocalStep ι K V τ} {turn : ℕ} {amount : Fin n → ℕ}
    (reached : ∀ i, (comm cfg env.program start fun r => .user (main r)).Reachable (at_rank i))
    (leads : ∀ i, (comm cfg env.program start fun r => .user (main r)).Leads (at_rank i) c)
    (at_step : ∀ i, ∃ k, AtStep ((at_rank i).rank i) step k)
    (same : ∀ i, ((at_rank i).rank i).otherPosts.length = turn)
    (value : ∀ i, ((at_rank i).rank i).mem.localStep step = some (.inr (amount i)))
    {r : Fin n} (waits : (c.rank r).otherPosts.length = turn + 1) {result : Value ι K V}
    (returned : c.reduced env.program r = some result) :
    result = .count (∑ i, amount i) := by
  simp only [Sys.reduced, waits, Nat.add_sub_cancel] at returned
  split at returned
  case isTrue posted =>
    have found : ∀ i, (c.rank i).otherPosts.get ⟨turn, posted i⟩ = .count (amount i) := by
      intro i
      obtain ⟨k, here⟩ := at_step i
      have stack := (separated (reached i) here).after.2
      rcases here.posted stack (value i) (leads i) with ⟨-, -, -, posts⟩ | posts
      · have more := posted i
        rw [posts, same i] at more
        exact absurd more (Nat.lt_irrefl _)
      · have at_turn := posts.getElem (i := turn) (by simp [same i])
        rw [List.get_eq_getElem, ← at_turn]
        simp [← same i]
    cases returned
    have ranks : 0 < n := r.pos
    simp only [Env.program, Env.combine, ranks, ↓reduceDIte, found, Value.num]
    rw [Fin.sum_univ_def]
  case isFalse => cases returned

/-- **Epoch separation.**  A rank takes the local step of a collective operation after
all calls issued before and before all calls issued after; `clear` leaves nothing of what
came before; and `size` and `count`, which all ranks call as their next collective, return
the sum of what the ranks found in their local steps on every rank. -/
theorem epoch_separation :
    (∀ c r step k, (comm cfg env.program start fun r => .user (main r)).Reachable c →
      AtStep (c.rank r) step k → Separated cfg env c r step ∧
        ∀ container mem, step = .clear container →
          (c.rank r).mem.localStep step = some (.inl mem) → mem.size container = 0) ∧
    ∀ (at_rank : Fin n → Tables n ι K V A τ U) c step turn (amount : Fin n → ℕ),
      (∀ i, (comm cfg env.program start fun r => .user (main r)).Reachable (at_rank i)) →
      (∀ i, (comm cfg env.program start fun r => .user (main r)).Leads (at_rank i) c) →
      (∀ i, ∃ k, AtStep ((at_rank i).rank i) step k) →
      (∀ i, ((at_rank i).rank i).otherPosts.length = turn) →
      (∀ i, ((at_rank i).rank i).mem.localStep step = some (.inr (amount i))) →
      ∀ r result, (c.rank r).otherPosts.length = turn + 1 →
        c.reduced env.program r = some result → result = .count (∑ i, amount i) := by
  refine ⟨fun c r step k h at_step => ⟨separated h at_step, ?_⟩,
    fun at_rank c step turn amount reached leads at_step same value r result waits =>
      reduced_eq reached leads at_step same value waits⟩
  rintro container mem rfl effect
  cases effect
  exact Mem.size_clear _ _

end Runs

/-- A program of two ranks that insert, ask for the size of a map and insert again. -/
def sizeCalls (u : ℕ) (mem : Mem 2 Unit ℕ ℕ ℕ Unit) : Call 2 Unit ℕ ℕ ℕ Unit ℕ :=
  match mem.self, u with
  | 0, 0 => .mapInsert ⟨false, ()⟩ 1 5 1
  | 1, 0 => .mapInsert ⟨false, ()⟩ 2 6 1
  | 0, 1 => .mapInsert ⟨false, ()⟩ 3 7 2
  | _, 1 | _, 2 => .collective (.size (.map ⟨false, ()⟩)) fun size => 10 + size
  | _, 13 => .mapInsert ⟨false, ()⟩ 8 8 20
  | _, _ => .ret ()

def sizeEnv : Env 2 Unit ℕ ℕ ℕ Unit ℕ :=
  { tableEnv with next := sizeCalls, offset_le := tableEnv_offset }

def sizeComm : Machine (Tables 2 Unit ℕ ℕ ℕ Unit ℕ) (Action 2) :=
  comm ⟨16, false⟩ sizeEnv.program tableStart fun _ => .user 0

/-- The container whose size a rank at this code point is about to contribute, if there is one. -/
def Code.sizeOf? : Code n ι K V A τ U → Option (Container ι)
  | .step (.size container) _ => some container
  | _ => none

omit [DecidableEq ι] in
theorem AtStep.of_size {s : Rank n (Payload ι K V A U) (Mem n ι K V A τ) (Value ι K V)
    (Code n ι K V A τ U)} {container : Container ι} (pc : s.pc.isUser = true)
    (code : s.code.sizeOf? = some container) : ∃ k, AtStep s (.size container) k := by
  cases found : s.code with
  | step step k =>
      cases step with
      | size container' =>
          rw [found] at code
          cases code
          exact ⟨k, Pc.eq_user pc, found⟩
      | _ => simp [found, Code.sizeOf?] at code
  | _ => simp [found, Code.sizeOf?] at code

/-- A reachable state of the program in which rank 1 is at its local step. -/
def sizeStep1 : Tables 2 Unit ℕ ℕ ℕ Unit ℕ :=
  sizeComm.drive (fun _ _ => True) sizeComm.init
    ((List.replicate 5 (mains 0 9 ++ mains 1 9 ++
      [.listen 0 1, .listen 0 1, .listen 1 0, .listen 1 0])).flatten ++ mains 0 9 ++ mains 1 1)

/-- A later state of the run, in which rank 0 is at its local step. -/
def sizeStep0 : Tables 2 Unit ℕ ℕ ℕ Unit ℕ :=
  sizeComm.drive (fun _ _ => True) sizeStep1 (mains 0 1)

/-- A still later state of the run, in which both ranks have contributed their sizes. -/
def sizeReduced : Tables 2 Unit ℕ ℕ ℕ Unit ℕ :=
  sizeComm.drive (fun _ _ => True) sizeStep0 (mains 0 1 ++ mains 1 1)

/-- The states in which rank 0 and rank 1 are at their local steps. -/
def sizeSteps : Fin 2 → Tables 2 Unit ℕ ℕ ℕ Unit ℕ
  | 0 => sizeStep0
  | 1 => sizeStep1

/-- In the run, rank 1 finds two entries in its local step and rank 0 finds one, and the
reduction returns three. -/
theorem epoch_separation_sizes :
    Separated ⟨16, false⟩ sizeEnv (sizeSteps 1) 1 (.size (.map ⟨false, ()⟩)) ∧
      sizeReduced.reduced sizeEnv.program 1 = some (.count 3) := by
  have step1 : sizeComm.Reachable sizeStep1 := Machine.ReachableBy.init.drive _
  have step0 : sizeComm.Reachable sizeStep0 := step1.drive _
  have reached : ∀ i, sizeComm.Reachable (sizeSteps i) :=
    Fin.forall_fin_two.mpr ⟨step0, step1⟩
  have leads0 : sizeComm.Leads sizeStep0 sizeReduced := Machine.Leads.drive .refl _
  have leads1 : sizeComm.Leads sizeStep1 sizeReduced :=
    Machine.Leads.drive (Machine.Leads.drive .refl _) _
  have leads : ∀ i, sizeComm.Leads (sizeSteps i) sizeReduced :=
    Fin.forall_fin_two.mpr ⟨leads0, leads1⟩
  have users : ∀ i, ((sizeSteps i).rank i).pc.isUser = true := by decide +kernel
  have codes : ∀ i, ((sizeSteps i).rank i).code.sizeOf? = some (.map ⟨false, ()⟩) := by
    decide +kernel
  have at_step : ∀ i, ∃ k, AtStep ((sizeSteps i).rank i) (.size (.map ⟨false, ()⟩)) k :=
    fun i => AtStep.of_size (users i) (codes i)
  obtain ⟨k, here⟩ := at_step 1
  refine ⟨(epoch_separation.1 _ _ _ _ (reached 1) here).1, ?_⟩
  have contributed : (sizeReduced.rank 1).otherPosts.length = 0 + 1 := by decide +kernel
  have completed : (sizeReduced.reduced sizeEnv.program 1).isSome := by decide +kernel
  obtain ⟨result, returned⟩ := Option.isSome_iff_exists.mp completed
  have total := epoch_separation.2 sizeSteps sizeReduced (.size (.map ⟨false, ()⟩)) 0
    (fun i => ((sizeSteps i).rank i).mem.size (.map ⟨false, ()⟩)) reached leads at_step
    (by decide +kernel) (fun _ => rfl) 1 result contributed returned
  have three : ∑ i, ((sizeSteps i).rank i).mem.size (.map ⟨false, ()⟩) = 3 := by
    rw [Fin.sum_univ_two]
    decide +kernel
  rw [returned, total, three]

end YGM
