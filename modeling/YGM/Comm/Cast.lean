import YGM.Comm.Activations
import YGM.Comm.Reductions
import YGM.Comm.Script

/-!
# Broadcast and multicast

This file is `async_bcast` and `async_mcast` of `include/ygm/detail/comm_impl.hpp`: a loop
that calls `async` for one destination after the other.  The arguments and the list of
destinations are passed by reference, and each turn of the loop reads them again: after a
call of the own rank, whose handler has run by then, and after whatever `async` has taken
from the receive queue.

A user program (`CastUser`) may broadcast besides everything else it does.  It runs on the
communicator as `castProgram`, whose code points are those of the user and the loops in
progress (`Loop`).  A broadcast is known by its rank and its number there; `CastMem.casts`
keeps the destinations and the arguments each one was called with, and `Tagged.cast` the
broadcast a call belongs to.  Nothing reads these.

Every copy of a broadcast has been started or is still owed by its loop
(`balanced_of_reachable`), as long as nothing that runs while a loop is suspended changes
what the loop has still to read (`CastUser.Undisturbed`).  A handler that writes to the object the
caller passed does change it, and ranks behind it get another value.
-/

namespace YGM

variable {n : ℕ} {P σ V C : Type}

/-! ## The loop -/

/-- **The next command of user code with broadcasts**: a plain command of the communicator, or
one of the two calls that start a loop. -/
inductive CastCmd (n : ℕ) (P σ V C : Type)
  | plain (cmd : Cmd n P σ V C)
  /-- `async_bcast(…)`, with arguments that are read from memory. -/
  | asyncBcast (arg : σ → P) (k : C)
  /-- `async_mcast(dests, …)`. -/
  | asyncMcast (dests : σ → List (Fin n)) (arg : σ → P) (k : C)

/-- **User code with broadcasts**: the same data as for `Program`, with commands that may be
broadcasts. -/
structure CastUser (n : ℕ) (P σ V C : Type) where
  next : C → σ → CastCmd n P σ V C
  handler : Fin n → P → C
  packedSize : P → ℕ
  offset_le : ∀ p, 8 ≤ packedSize p
  combine : (Fin n → V) → V

/-- The arguments of a call, and the broadcast of the issuing rank it belongs to
(history). -/
structure Tagged (P : Type) where
  value : P
  cast : Option ℕ
deriving DecidableEq

/-- The memory of a rank, and the broadcasts called there, with what they were called with
(history). -/
structure CastMem (n : ℕ) (P σ : Type) where
  mem : σ
  casts : List (List (Fin n) × P)

/-- **A broadcast in progress.**  `size` is the number of destinations the loop was entered
with, `pos` the next of them. -/
structure Loop (n : ℕ) (P σ C : Type) where
  /-- The number of the broadcast (history). -/
  cast : ℕ
  dests : σ → List (Fin n)
  size : ℕ
  arg : σ → P
  pos : ℕ
  k : C

/-- The code points of `castProgram`: those of the user code, and the broadcast loops in
progress. -/
inductive CastCode (n : ℕ) (P σ C : Type)
  | user (k : C)
  | loop (l : Loop n P σ C)

/-- A command of user code that is no broadcast, as a command of `castProgram`. -/
def Cmd.toCast (s : CastMem n P σ) :
    Cmd n P σ V C → Cmd n (Tagged P) (CastMem n P σ) V (CastCode n P σ C)
  | .ret mem => .ret { s with mem := mem }
  | .update mem k => .update { s with mem := mem } (.user k)
  | .async dest payload k => .async dest ⟨payload, none⟩ (.user k)
  | .asyncFlush dest k => .asyncFlush dest (.user k)
  | .asyncFlushAll k => .asyncFlushAll (.user k)
  | .barrier k => .barrier (.user k)
  | .allReduce value k => .allReduce value fun result => .user (k result)
  | .kill k => .kill (.user k)

/-- User code enters the loop of a broadcast, which is noted with its destinations and its
arguments. -/
def asyncCast (s : CastMem n P σ) (dests : σ → List (Fin n)) (arg : σ → P) (k : C) :
    Cmd n (Tagged P) (CastMem n P σ) V (CastCode n P σ C) :=
  .update { s with casts := s.casts ++ [(dests s.mem, arg s.mem)] }
    (.loop ⟨s.casts.length, dests, (dests s.mem).length, arg, 0, k⟩)

/-- **One turn of the loop.**  The destination and the arguments are read from the memory
as it is at this turn, the destination by its position in the list.  A list that has become
shorter than it was leaves nothing to read; the source is undefined there, and the loop does
not go on.  The source walks the list with iterators instead of positions: a handler that
lets the referenced vector grow past its capacity invalidates them, even where every entry
keeps its value.  Such runs are outside the model, which goes on reading by position. -/
def Loop.next (l : Loop n P σ C) (s : CastMem n P σ) :
    Cmd n (Tagged P) (CastMem n P σ) V (CastCode n P σ C) :=
  if l.pos < l.size then
    match (l.dests s.mem)[l.pos]? with
    | some dest =>
        .async dest ⟨l.arg s.mem, some l.cast⟩ (.loop { l with pos := l.pos + 1 })
    | none => .update s (.loop l)
  else .update s (.user l.k)

/-- **User code with broadcasts, as the communicator runs it**: a call that starts a broadcast
is replaced by the turns of its loop. -/
def castProgram (u : CastUser n P σ V C) :
    Program n (Tagged P) (CastMem n P σ) V (CastCode n P σ C) where
  next
    | .user k, s =>
        match u.next k s.mem with
        | .plain cmd => cmd.toCast s
        | .asyncBcast arg k => asyncCast s (fun _ => List.finRange n) arg k
        | .asyncMcast dests arg k => asyncCast s dests arg k
    | .loop l, s => l.next s
  handler src payload := .user (u.handler src payload.value)
  packedSize payload := u.packedSize payload.value
  offset_le payload := u.offset_le payload.value
  combine := u.combine

/-- The communicator on user code with broadcasts, which starts at `main r` with memory `mem r`
on rank `r`. -/
def castComm (cfg : Config) (u : CastUser n P σ V C) (mem : Fin n → σ) (main : Fin n → C) :
    Machine (Sys n (Tagged P) (CastMem n P σ) V (CastCode n P σ C)) (Action n) :=
  comm cfg (castProgram u) (fun r => ⟨mem r, []⟩) fun r => .user (main r)

/-! ## What a broadcast should do -/

/-- The copies that a broadcast should make: one for each destination, with the arguments of the
call. -/
def copies (cast : List (Fin n) × P) : List (Fin n × P) :=
  cast.1.map fun dest => (dest, cast.2)

/-- **The handlers executed for broadcast `i` of rank `r`**: where each of them ran, and with
which arguments. -/
def executions (c : Sys n (Tagged P) (CastMem n P σ) V (CastCode n P σ C)) (r : Fin n)
    (i : ℕ) : Multiset (Fin n × P) :=
  ∑ d, (((c.rank d).executed.filterMap fun e =>
    if e.src = r ∧ e.rpc.payload.cast = some i then some (d, e.rpc.payload.value)
    else none : List (Fin n × P)) : Multiset (Fin n × P))

/-- **A broadcast delivers one value, once to each destination.** -/
structure Delivers (c : Sys n (Tagged P) (CastMem n P σ) V (CastCode n P σ C)) (r : Fin n)
    (i : ℕ) (cast : List (Fin n) × P) : Prop where
  /-- No destination gets the call more often than it occurs, and none gets another value. -/
  once : executions c r i ≤ copies cast
  /-- When the broadcast has returned and no call of it is pending, all have got it. -/
  all : (∀ l, .loop l ∈ (c.rank r).codes → l.cast ≠ i) →
    (∀ m ∈ c.pending, m.src = r → m.payload.cast ≠ some i) → executions c r i = copies cast

/-! ## The condition -/

/-- The copies that a loop has still to make, with the destinations and the arguments as they
are read from `mem`. -/
def Loop.owed (l : Loop n P σ C) (mem : σ) : List (Fin n × P) :=
  copies (((l.dests mem).take l.size).drop l.pos, l.arg mem)

def CastCode.owed (mem : σ) : CastCode n P σ C → List (Fin n × P)
  | .user _ => []
  | .loop l => l.owed mem

/-- The memory that running user code leaves, in a step in which it computes or returns. -/
def CastUser.leaves (u : CastUser n P σ V C)
    (s : Rank n (Tagged P) (CastMem n P σ) V (CastCode n P σ C)) : Option σ :=
  match s.running with
  | some (.user k) =>
      match u.next k s.mem.mem with
      | .plain (.update mem _) => some mem
      | .plain (.ret mem) => some mem
      | _ => none
  | _ => none

/-- **No broadcast is disturbed**: code that runs while the loop of a broadcast is suspended
leaves the arguments and the destinations that the loop has still to read as they are.  The
condition is on the values that are read by position.  It does not exclude that a handler
appends to the referenced vector until the vector is moved, which leaves these values alone
and invalidates the iterators of the source; such runs are outside the model
(`Loop.next`). -/
def CastUser.Undisturbed (u : CastUser n P σ V C)
    (c : Sys n (Tagged P) (CastMem n P σ) V (CastCode n P σ C)) : Action n → Prop
  | .main r _ => ∀ mem ∈ u.leaves (c.rank r), ∀ code ∈ (c.rank r).waiting,
      code.owed mem = code.owed (c.rank r).mem.mem
  | .listen _ _ => True

instance [DecidableEq P] (u : CastUser n P σ V C)
    (c : Sys n (Tagged P) (CastMem n P σ) V (CastCode n P σ C)) :
    ∀ a, Decidable (u.Undisturbed c a)
  | .main r _ => inferInstanceAs (Decidable (∀ mem ∈ u.leaves (c.rank r),
      ∀ code ∈ (c.rank r).waiting, code.owed mem = code.owed (c.rank r).mem.mem))
  | .listen _ _ => inferInstanceAs (Decidable True)

/-! ## Accounts -/

/-- The copies of broadcast `i` that a rank has still to start at this code point. -/
def CastCode.owes (i : ℕ) (mem : σ) : CastCode n P σ C → List (Fin n × P)
  | .user _ => []
  | .loop l => if l.cast = i then l.owed mem else []

theorem CastCode.owes_eq {i : ℕ} {mem mem' : σ} {code : CastCode n P σ C}
    (same : code.owed mem' = code.owed mem) : code.owes i mem' = code.owes i mem := by
  cases code with
  | user k => rfl
  | loop l =>
      change l.owed mem' = l.owed mem at same
      simp only [CastCode.owes, same]

/-- The copy that a call is, if it belongs to broadcast `i` of the rank that issued it. -/
def Rpc.copy? (i : ℕ) (m : Rpc n (Tagged P)) : Option (Fin n × P) :=
  if m.payload.cast = some i then some (m.dest, m.payload.value) else none

/-- All copies that broadcast `i` should make, given the broadcasts called so far. -/
def expected (casts : List (List (Fin n) × P)) (i : ℕ) : Multiset (Fin n × P) :=
  ((casts[i]?.map copies).getD [] : List (Fin n × P))

section Rank

variable (s : Rank n (Tagged P) (CastMem n P σ) V (CastCode n P σ C)) (i : ℕ)

/-- The copies of broadcast `i` that the rank has started. -/
def Rank.sent : Multiset (Fin n × P) :=
  s.started.filterMap (Rpc.copy? i)

/-- The copies of broadcast `i` that the loops of the rank have still to start. -/
def Rank.owing : Multiset (Fin n × P) :=
  (s.codes.flatMap (CastCode.owes i s.mem.mem) : List (Fin n × P))

/-- **The accounts of a rank**: every copy of every broadcast called there has been started or
is owed by its loop. -/
def Rank.Balanced : Prop :=
  ∀ i, s.sent i + s.owing i = expected s.mem.casts i

end Rank

/-- A loop with a destination left owes the copy for that destination and what it owes at the
next position. -/
theorem Loop.owed_of_getElem? {l : Loop n P σ C} {mem : σ} {dest : Fin n}
    (more : l.pos < l.size) (here : (l.dests mem)[l.pos]? = some dest) :
    l.owed mem = (dest, l.arg mem) :: Loop.owed { l with pos := l.pos + 1 } mem := by
  have next : ((l.dests mem).take l.size)[l.pos]? = some dest := by
    rw [List.getElem?_take_of_lt more, here]
  obtain ⟨lt, eq⟩ := List.getElem?_eq_some_iff.mp next
  simp only [Loop.owed, List.drop_eq_getElem_cons lt, eq, copies, List.map_cons]

theorem Loop.owed_of_le {l : Loop n P σ C} {mem : σ} (done : l.size ≤ l.pos) :
    l.owed mem = [] := by
  have short : ((l.dests mem).take l.size).length ≤ l.pos :=
    (List.length_take_le _ _).trans done
  simp [Loop.owed, List.drop_eq_nil_of_le short, copies]

section Code

variable {u : CastUser n P σ V C} {s : CastMem n P σ} {code : CastCode n P σ C}

/-- A loop computes and calls and does nothing else, so code whose next command is neither is
user code. -/
theorem castProgram_user
    (cmd : ∀ s' k, (castProgram u).next code s ≠ .update s' k)
    (call : ∀ dest payload k, (castProgram u).next code s ≠ .async dest payload k) :
    ∃ k cmd, code = .user k ∧ u.next k s.mem = .plain cmd ∧
      (castProgram u).next code s = cmd.toCast s := by
  cases code with
  | user k =>
      cases next : u.next k s.mem with
      | plain cmd => exact ⟨k, cmd, rfl, next, by simp [castProgram, next]⟩
      | asyncBcast arg k' => simp [castProgram, next, asyncCast] at cmd
      | asyncMcast dests arg k' => simp [castProgram, next, asyncCast] at cmd
  | loop l =>
      by_cases more : l.pos < l.size
      · cases here : (l.dests s.mem)[l.pos]? <;>
          simp [castProgram, Loop.next, more, here] at cmd call
      · simp [castProgram, Loop.next, more] at cmd

/-- **A call** that the code makes is the first copy it owes, or belongs to no broadcast `i` and
leaves what is owed as it is. -/
theorem castProgram_async {dest : Fin n} {payload : Tagged P} {k' : CastCode n P σ C}
    (cmd : (castProgram u).next code s = .async dest payload k') (i : ℕ) :
    code.owes i s.mem
      = (if payload.cast = some i then [(dest, payload.value)] else [])
        ++ k'.owes i s.mem := by
  cases code with
  | user k =>
      cases next : u.next k s.mem with
      | plain user =>
          simp only [castProgram, next] at cmd
          cases user <;> simp only [Cmd.toCast, reduceCtorEq, Cmd.async.injEq] at cmd
          obtain ⟨rfl, rfl, rfl⟩ := cmd
          rfl
      | asyncBcast arg k' => simp [castProgram, next, asyncCast] at cmd
      | asyncMcast dests arg k' => simp [castProgram, next, asyncCast] at cmd
  | loop l =>
      simp only [castProgram, Loop.next] at cmd
      split at cmd
      case isTrue more =>
        split at cmd
        case h_1 here =>
          simp only [Cmd.async.injEq] at cmd
          obtain ⟨rfl, rfl, rfl⟩ := cmd
          by_cases mine : l.cast = i
          · simp [CastCode.owes, mine, Loop.owed_of_getElem? more here]
          · simp [CastCode.owes, mine]
        case h_2 => cases cmd
      case isFalse => cases cmd

/-- **A computation** can begin a broadcast; the code at which it goes on owes the copies that
it adds to the expected ones. -/
theorem castProgram_update {s' : CastMem n P σ} {k' : CastCode n P σ C}
    (cmd : (castProgram u).next code s = .update s' k') (i : ℕ) :
    expected s'.casts i + (code.owes i s.mem : Multiset (Fin n × P))
      = expected s.casts i + (k'.owes i s'.mem : Multiset (Fin n × P)) := by
  have enters : ∀ {dests : σ → List (Fin n)} {arg : σ → P} {k : C},
      asyncCast (V := V) s dests arg k = .update s' k' →
      expected s'.casts i = expected s.casts i + (k'.owes i s'.mem : Multiset (Fin n × P)) := by
    intro dests arg k entered
    simp only [asyncCast, Cmd.update.injEq] at entered
    obtain ⟨rfl, rfl⟩ := entered
    rcases lt_trichotomy i s.casts.length with lt | rfl | gt
    · simp [expected, CastCode.owes, List.getElem?_append_left lt, lt.ne']
    · simp [expected, CastCode.owes, Loop.owed]
    · have old : s.casts[i]? = none := List.getElem?_eq_none gt.le
      have new : (s.casts ++ [(dests s.mem, arg s.mem)])[i]? = none :=
        List.getElem?_eq_none (by simpa using Nat.succ_le_of_lt gt)
      simp [expected, CastCode.owes, old, new, gt.ne]
  cases code with
  | user k =>
      cases next : u.next k s.mem with
      | plain user =>
          simp only [castProgram, next] at cmd
          cases user <;> simp only [Cmd.toCast, reduceCtorEq, Cmd.update.injEq] at cmd
          obtain ⟨rfl, rfl⟩ := cmd
          rfl
      | asyncBcast arg k =>
          simp only [castProgram, next] at cmd
          simpa [CastCode.owes] using enters cmd
      | asyncMcast dests arg k =>
          simp only [castProgram, next] at cmd
          simpa [CastCode.owes] using enters cmd
  | loop l =>
      simp only [castProgram, Loop.next] at cmd
      split at cmd
      case isTrue more =>
        split at cmd
        case h_1 => cases cmd
        case h_2 =>
          simp only [Cmd.update.injEq] at cmd
          obtain ⟨rfl, rfl⟩ := cmd
          rfl
      case isFalse done =>
        simp only [Cmd.update.injEq] at cmd
        obtain ⟨rfl, rfl⟩ := cmd
        simp [CastCode.owes, Loop.owed_of_le (not_lt.mp done)]

/-- The memory that a computation leaves is the old one, or the one that user code computes. -/
theorem castProgram_update_mem {s' : CastMem n P σ} {k' : CastCode n P σ C}
    (cmd : (castProgram u).next code s = .update s' k') :
    s'.mem = s.mem ∨ ∃ k k', code = .user k ∧ u.next k s.mem = .plain (.update s'.mem k') := by
  cases code with
  | user k =>
      cases next : u.next k s.mem with
      | plain user =>
          simp only [castProgram, next] at cmd
          cases user <;> simp only [Cmd.toCast, reduceCtorEq, Cmd.update.injEq] at cmd
          obtain ⟨rfl, rfl⟩ := cmd
          exact .inr ⟨k, _, rfl, next⟩
      | asyncBcast arg k =>
          simp only [castProgram, next, asyncCast, Cmd.update.injEq] at cmd
          obtain ⟨rfl, -⟩ := cmd
          exact .inl rfl
      | asyncMcast dests arg k =>
          simp only [castProgram, next, asyncCast, Cmd.update.injEq] at cmd
          obtain ⟨rfl, -⟩ := cmd
          exact .inl rfl
  | loop l =>
      simp only [castProgram, Loop.next] at cmd
      split at cmd
      · split at cmd
        · cases cmd
        · simp only [Cmd.update.injEq] at cmd
          exact .inl (by rw [cmd.1])
      · simp only [Cmd.update.injEq] at cmd
        exact .inl (by rw [cmd.1])

theorem castProgram_ret {s' : CastMem n P σ} (cmd : (castProgram u).next code s = .ret s') :
    ∃ k, code = .user k ∧ u.next k s.mem = .plain (.ret s'.mem) ∧ s'.casts = s.casts := by
  obtain ⟨k, user, rfl, next, eq⟩ := @castProgram_user _ _ _ _ _ u s code
    (by simp [cmd]) (by simp [cmd])
  rw [cmd] at eq
  cases user <;> simp only [Cmd.toCast, reduceCtorEq, Cmd.ret.injEq] at eq
  exact ⟨k, rfl, by rw [next, eq], by rw [eq]⟩

theorem castProgram_allReduce {value : V} {k' : V → CastCode n P σ C}
    (cmd : (castProgram u).next code s = .allReduce value k') :
    (∃ k, code = .user k) ∧ ∀ result, ∃ k, k' result = .user k := by
  obtain ⟨k, user, rfl, -, eq⟩ := @castProgram_user _ _ _ _ _ u s code
    (by simp [cmd]) (by simp [cmd])
  rw [cmd] at eq
  cases user <;> simp only [Cmd.toCast, reduceCtorEq, Cmd.allReduce.injEq] at eq
  obtain ⟨-, rfl⟩ := eq
  exact ⟨⟨k, rfl⟩, fun result => ⟨_, rfl⟩⟩

/-- Code that calls the communicator for something else than an `async` is user code, before the
call and after it. -/
theorem castProgram_leave {k' : CastCode n P σ C}
    (cmd : (∃ dest, (castProgram u).next code s = .asyncFlush dest k') ∨
      (castProgram u).next code s = .asyncFlushAll k' ∨
      (castProgram u).next code s = .barrier k' ∨ (castProgram u).next code s = .kill k') :
    (∃ k, code = .user k) ∧ ∃ k, k' = .user k := by
  obtain ⟨k, user, rfl, -, eq⟩ := @castProgram_user _ _ _ _ _ u s code
    (by rcases cmd with ⟨dest, cmd⟩ | cmd | cmd | cmd <;> simp [cmd])
    (by rcases cmd with ⟨dest, cmd⟩ | cmd | cmd | cmd <;> simp [cmd])
  refine ⟨⟨k, rfl⟩, ?_⟩
  rcases cmd with ⟨dest, cmd⟩ | cmd | cmd | cmd <;>
  · rw [cmd] at eq
    cases user <;> simp only [Cmd.toCast, reduceCtorEq, Cmd.asyncFlush.injEq,
      Cmd.asyncFlushAll.injEq, Cmd.barrier.injEq, Cmd.kill.injEq] at eq
    simp [eq]

end Code

/-! ## Steps -/

section Step

variable {u : CastUser n P σ V C} {r : Fin n}
variable {s t : Rank n (Tagged P) (CastMem n P σ) V (CastCode n P σ C)} {i : ℕ}

theorem Rank.owing_of_running {k : CastCode n P σ C} (running : s.running = some k) :
    s.owing i = (k.owes i s.mem.mem : Multiset (Fin n × P))
      + (s.waiting.flatMap (CastCode.owes i s.mem.mem) : List (Fin n × P)) := by
  simp [Rank.owing, s.codes_eq, running]

theorem Rank.owing_of_codes {codes : List (CastCode n P σ C)} (h : t.codes = codes) :
    t.owing i = (codes.flatMap (CastCode.owes i t.mem.mem) : List (Fin n × P)) := by
  rw [Rank.owing, h]

/-- The waiting code of a rank owes the same copies after an undisturbed step as before. -/
theorem CastUser.waiting_owes {mem : σ} (same : mem = s.mem.mem ∨ mem ∈ u.leaves s)
    (undisturbed : ∀ mem ∈ u.leaves s, ∀ code ∈ s.waiting, code.owed mem = code.owed s.mem.mem) :
    s.waiting.flatMap (CastCode.owes i mem) = s.waiting.flatMap (CastCode.owes i s.mem.mem) := by
  rcases same with rfl | leaves
  · rfl
  · exact List.flatMap_congr fun code hcode => CastCode.owes_eq (undisturbed mem leaves code hcode)

theorem Rank.sent_add {m : Rpc n (Tagged P)} (started : t.started = s.started + {m}) :
    t.sent i = s.sent i + ((m.copy? i).toList : List (Fin n × P)) := by
  rw [Rank.sent, started, Multiset.filterMap_add, Rank.sent]
  congr 1

/-- A call keeps the accounts: the copy that it starts is no longer owed by the code that made
it. -/
theorem Rank.Balanced.async (h : s.Balanced) {k k' : CastCode n P σ C} {m : Rpc n (Tagged P)}
    (running : s.running = some k)
    (cmd : (castProgram u).next k s.mem = .async m.dest m.payload k')
    (codes : ∀ i, t.codes.flatMap (CastCode.owes i s.mem.mem)
      = k'.owes i s.mem.mem ++ s.waiting.flatMap (CastCode.owes i s.mem.mem))
    (mem : t.mem = s.mem) (started : t.started = s.started + {m}) : t.Balanced := by
  intro i
  have before := h i
  have copy : (m.copy? i).toList
      = if m.payload.cast = some i then [(m.dest, m.payload.value)] else [] := by
    by_cases mine : m.payload.cast = some i <;> simp [Rpc.copy?, mine]
  rw [Rank.owing_of_running running, castProgram_async cmd i, ← copy] at before
  rw [Rank.sent_add started, Rank.owing, mem, codes, ← before]
  simp only [← Multiset.coe_add]
  abel

/-- **A step keeps the accounts** of its rank, if it does not disturb a broadcast. -/
theorem Acts.balanced (acts : Acts (castProgram u) r s t) (h : s.Balanced)
    (entered : ∀ k, s.pc = .reduce k → ∃ value,
      (castProgram u).next s.code s.mem = .allReduce value k)
    (undisturbed : ∀ mem ∈ u.leaves s, ∀ code ∈ s.waiting, code.owed mem = code.owed s.mem.mem) :
    t.Balanced := by
  intro i
  have before := h i
  cases acts with
  | quiet idle codes mem started =>
      rw [Rank.sent, started, Rank.owing, codes, mem]
      exact before
  | start m idle received codes running mem started =>
      rw [Rank.sent, started, Rank.owing_of_codes codes, mem]
      exact before
  | reduced value k pc idle old codes running mem started =>
      obtain ⟨posted, cmd⟩ := entered k pc
      obtain ⟨⟨k', code⟩, after⟩ := castProgram_allReduce cmd
      obtain ⟨k'', next⟩ := after value
      rw [Rank.owing_of_codes old, code] at before
      rw [Rank.sent, started, Rank.owing_of_codes codes, next, mem]
      exact before
  | ret k running cmd codes started =>
      obtain ⟨k', rfl, next, casts⟩ := castProgram_ret cmd
      have leaves : t.mem.mem ∈ u.leaves s := by simp [CastUser.leaves, running, next]
      rw [Rank.owing_of_running running] at before
      rw [Rank.sent, started, Rank.owing_of_codes codes, casts,
        CastUser.waiting_owes (.inr leaves) undisturbed, ← before]
      simp [CastCode.owes, Rank.sent]
  | update k k' running cmd codes after started =>
      have same : t.mem.mem = s.mem.mem ∨ t.mem.mem ∈ u.leaves s := by
        rcases castProgram_update_mem cmd with same | ⟨k, k', rfl, next⟩
        · exact .inl same
        · exact .inr (by simp [CastUser.leaves, running, next])
      have account := castProgram_update cmd i
      rw [Rank.owing_of_running running] at before
      rw [Rank.sent, started, Rank.owing_of_codes codes, List.flatMap_cons,
        CastUser.waiting_owes same undisturbed, ← Multiset.coe_add]
      rw [← before] at account
      refine add_right_cancel (b := (k.owes i s.mem.mem : Multiset (Fin n × P))) ?_
      rw [account, Rank.sent]
      abel
  | remote k k' m running src cmd codes idle mem started =>
      exact h.async running cmd (fun i => by rw [codes, List.flatMap_cons]) mem started i
  | self k k' m running src dest cmd codes after mem started =>
      exact h.async running cmd (fun i => by rw [codes, List.flatMap_cons]; rfl) mem started i
  | leave k k' running cmd codes idle mem started =>
      obtain ⟨⟨k, rfl⟩, k', rfl⟩ := castProgram_leave cmd
      rw [Rank.owing_of_running running] at before
      rw [Rank.sent, started, Rank.owing_of_codes codes, mem]
      exact before
  | reduce value k running cmd pc old codes idle mem started =>
      rw [Rank.sent, started, Rank.owing, codes, mem]
      exact before

end Step

/-! ## Runs -/

section Runs

variable {cfg : Config} {u : CastUser n P σ V C} {mem : Fin n → σ} {main : Fin n → C}
variable {c : Sys n (Tagged P) (CastMem n P σ) V (CastCode n P σ C)}

theorem balanced_of_reachable (h : (castComm cfg u mem main).ReachableBy u.Undisturbed c)
    (r : Fin n) : (c.rank r).Balanced := by
  refine h.invariant (I := fun c => ∀ r, (c.rank r).Balanced) ?_ ?_ r
  · intro r i
    simp [castComm, comm, Rank.init, Rank.sent, Rank.started, Rank.handed, Rank.owing,
      Rank.codes, CastCode.owes, expected]
  · intro c a d before inv undisturbed taken i
    rcases Sys.step_cases taken with
      ⟨r, flag, t, sent, rfl, move, rfl⟩ | ⟨r, src, t, stream, -, receive, rfl⟩
    · by_cases hi : i = r
      · subst hi
        have acts := move.acts ((Sys.routed_of_reachable before.reachable).rank i)
        have entered := fun k pc => ((inTurn_of_reachable before.reachable).entered i k pc).2
        simpa using acts.balanced (inv i) (fun k pc => by
          obtain ⟨value, -, cmd⟩ := entered k pc
          exact ⟨value, cmd⟩) undisturbed
      · simpa [hi] using inv i
    · obtain ⟨listener, queue, eq⟩ := receive.frame i
      simp only [eq]
      exact inv i

/-- The copy that a call is, if it belongs to broadcast `i` of rank `r`. -/
def Rpc.copyOf? (r : Fin n) (i : ℕ) (m : Rpc n (Tagged P)) : Option (Fin n × P) :=
  if m.src = r then m.copy? i else none

/-- Every call that a rank has started has that rank as its source. -/
theorem Rank.Routed.started {s : Rank n P σ V C} {r : Fin n} (h : s.Routed r) {m : Rpc n P}
    (started : m ∈ s.started) : m.src = r := by
  rcases Multiset.mem_add.mp started with issued | handed
  · exact h.issued m issued
  · obtain ⟨frame, stack, here⟩ := List.mem_flatMap.mp (Multiset.mem_coe.mp handed)
    have routed := h.stack frame stack
    cases frame <;> simp only [Frame.handed, List.mem_singleton, List.not_mem_nil] at here <;>
    · subst here
      exact routed.1

/-- Every copy that a rank has started has been executed, or the call is pending. -/
theorem sent_eq (h : (castComm cfg u mem main).Reachable c) (r : Fin n) (i : ℕ) :
    (c.rank r).sent i = executions c r i + c.pending.filterMap (Rpc.copyOf? r i) := by
  have routed := Sys.routed_of_reachable h
  have total := congrArg (Multiset.filterMap (Rpc.copyOf? r i)) (Sys.started_eq h)
  rw [Multiset.filterMap_add, filterMap_sum, Sys.executed, filterMap_sum] at total
  have own : ∑ d, (c.rank d).started.filterMap (Rpc.copyOf? r i) = (c.rank r).sent i := by
    rw [Finset.sum_eq_single r]
    · refine filterMap_congr fun m hm => ?_
      simp [Rpc.copyOf?, (routed.rank r).started hm]
    · intro d _ other
      refine filterMap_eq_zero fun m hm => ?_
      simp [Rpc.copyOf?, (routed.rank d).started hm, other]
    · simp
  have ran : ∑ d, (c.rank d).done.filterMap (Rpc.copyOf? r i) = executions c r i := by
    refine Finset.sum_congr rfl fun d _ => ?_
    rw [Rank.done, Multiset.filterMap_coe, List.filterMap_map]
    refine congrArg _ (List.filterMap_congr fun e he => ?_)
    obtain ⟨src, dest⟩ := (routed.rank d).executed e he
    by_cases mine : e.src = r
    · simp [Rpc.copyOf?, Rpc.copy?, ← src, mine, dest]
    · simp [Rpc.copyOf?, ← src, mine]
  rw [← own, total, ran]

/-- **Broadcasts that are not disturbed deliver one value**: each destination executes the
handler with the arguments of the call, at most once for each time it is listed and, when the
call has returned and nothing is pending, exactly as often. -/
theorem casts_deliver (h : (castComm cfg u mem main).ReachableBy u.Undisturbed c) (r : Fin n)
    {i : ℕ} {cast : List (Fin n) × P} (called : (c.rank r).mem.casts[i]? = some cast) :
    Delivers c r i cast := by
  have account := balanced_of_reachable h r i
  rw [sent_eq h.reachable, expected, called] at account
  simp only [Option.map_some, Option.getD_some] at account
  refine ⟨?_, fun returned quiet => ?_⟩
  · rw [← account, add_assoc]
    exact Multiset.le_add_right _ _
  · have nothing : (c.rank r).owing i = 0 := by
      refine congrArg _ (List.flatMap_eq_nil_iff.mpr fun code hcode => ?_)
      cases code with
      | user k => rfl
      | loop l => simp [CastCode.owes, returned l hcode]
    have none : c.pending.filterMap (Rpc.copyOf? r i) = 0 := by
      refine filterMap_eq_zero fun m hm => ?_
      by_cases mine : m.src = r
      · simp [Rpc.copyOf?, Rpc.copy?, mine, quiet m hm mine]
      · simp [Rpc.copyOf?, mine]
    rw [← account, nothing, none, add_zero, add_zero]

end Runs

/-! ## Two ranks -/

/-- The code points of the user code of the runs below. -/
inductive CastPoint
  | call
  | wait
  | done
  | note (value : ℕ)

/-- User code that broadcasts an object by reference, to handlers that write to the object of
their rank. -/
def noteUser (note : ℕ → ℕ → ℕ) : CastUser 2 ℕ ℕ Unit CastPoint where
  next
    | .call, _ => .asyncBcast id .wait
    | .wait, _ => .plain (.barrier .done)
    | .done, object => .plain (.ret object)
    | .note value, object => .plain (.ret (note value object))
  handler _ value := .note value
  packedSize _ := 16
  offset_le _ := by decide
  combine _ := ()

/-- The two-rank run in which rank 0 broadcasts its object 5, while the object of rank 1 is 3. -/
def noteComm (note : ℕ → ℕ → ℕ) :
    Machine (Sys 2 (Tagged ℕ) (CastMem 2 ℕ ℕ) Unit (CastCode 2 ℕ ℕ CastPoint)) (Action 2) :=
  castComm ⟨64, false⟩ (noteUser note) ![5, 3] ![.call, .wait]

/-- The steps of a run up to the state in which both handlers have run. -/
def noteSteps : List (Action 2) :=
  mains 0 20 ++ .listen 1 0 :: mains 1 20

/-- The state after `noteSteps` when the handlers keep the larger value, which does not disturb
the broadcast. -/
def noteDone : Sys 2 (Tagged ℕ) (CastMem 2 ℕ ℕ) Unit (CastCode 2 ℕ ℕ CastPoint) :=
  (noteComm max).drive (noteUser max).Undisturbed (noteComm max).init noteSteps

theorem casts_deliver_max :
    executions noteDone 0 0 = {(0, 5), (1, 5)} ∧ Delivers noteDone 0 0 ([0, 1], 5) := by
  have reached : (noteComm max).ReachableBy (noteUser max).Undisturbed noteDone :=
    Machine.ReachableBy.init.drive noteSteps
  exact ⟨by decide +kernel, casts_deliver reached 0 (by decide +kernel)⟩

/-- **A handler that writes to the object that is being broadcast** changes what the next
ranks get: rank 1 gets 10. -/
theorem bcast_sends_two_values : ∃ c, (noteComm fun value object => value + object).Reachable c ∧
    (c.rank 0).mem.casts[0]? = some ([0, 1], 5) ∧ executions c 0 0 = {(0, 5), (1, 10)} ∧
    ¬ Delivers c 0 0 ([0, 1], 5) := by
  let c := (noteComm fun value object => value + object).drive (fun _ _ => True)
    (noteComm fun value object => value + object).init noteSteps
  have run : (c.rank 0).mem.casts[0]? = some ([0, 1], 5) ∧
      executions c 0 0 = {(0, 5), (1, 10)} := by decide +kernel
  refine ⟨c, Machine.ReachableBy.init.drive _, run.1, run.2, fun delivers => ?_⟩
  have once := delivers.once
  rw [run.2] at once
  exact absurd once (by decide +kernel)

end YGM
