import YGM.Counting.Flushed

/-!
# The cache of one rank

The program of one rank, run by itself: a call of the communicator is done at once, and
what the handlers and the other ranks do meanwhile may change anything but the cache of
this rank (`Alone.step`).  The calls it makes are recorded.

A machine of this kind has a run for every sequence of calls of `async_insert` and of
queries, which begin with `count_cache_flush_all`, as the code between them is arbitrary
(`Env.next`).  The keys can have any hashes.

Then the cache changes nothing but the number of calls (`cache_agrees`): what was sent for
a key and what is still in its slot add up to the number of its inserts.
-/

namespace YGM.Counting

variable {n : ℕ} {K τ U : Type} [LinearOrder K]

/-- **A rank by itself**: the code it runs, its memory, and the calls it has issued. -/
structure Alone (n : ℕ) (K τ U : Type) [LinearOrder K] where
  code : Code n K τ U
  mem : Mem K τ
  /-- The destination and the content of every `async`, oldest first (history). -/
  calls : List (Fin n × Payload K U)

/-- The memory that a rank finds when a call of the communicator returns: everything except the
cache and the history may have changed. -/
def Mem.after (mem other : Mem K τ) : Mem K τ :=
  { other with cache := mem.cache, inserted := mem.inserted }

/-- The memory that the rank finds after a call of the communicator, and the result of a
reduction. -/
structure Meanwhile (K τ : Type) [LinearOrder K] where
  mem : Mem K τ
  result : ℕ

/-- The amounts of the issued calls that update the count of a key by `m_map.async_visit`. -/
def visits (key : K) (calls : List (Fin n × Payload K U)) : List ℤ :=
  calls.filterMap fun call =>
    match call.2 with
    | .visit key' toAdd => if key' = key then some toAdd else none
    | _ => none

section Steps

variable [Inhabited K] (env : Env n K τ U)

/-- **One step of a rank by itself**, with what happens meanwhile if the step calls the
communicator. -/
def Alone.step (s : Alone n K τ U) (a : Meanwhile K τ) : Option (Alone n K τ U) :=
  let returns (code : Code n K τ U) : Alone n K τ U := { s with code, mem := s.mem.after a.mem }
  match env.program.next s.code s.mem with
  | .ret _ => none
  | .update mem k => some { s with code := k, mem }
  | .async dest payload k => some { returns k with calls := s.calls ++ [(dest, payload)] }
  | .asyncFlush _ k | .asyncFlushAll k | .barrier k | .kill k => some (returns k)
  | .allReduce _ k => some (returns (k a.result))

/-- **The machine of a single rank**, in which handlers and other ranks are free to change
everything except the cache. -/
def alone (start : Mem K τ) (main : U) : Machine (Alone n K τ U) (Meanwhile K τ) where
  init := ⟨.user main, start, []⟩
  step := Alone.step env

end Steps

/-- The calls of a rank by itself, in the form in which the communicator records them. -/
def Alone.started (s : Alone n K τ U) : Multiset (Rpc n (Payload K U)) :=
  (s.calls : Multiset (Fin n × Payload K U)).map fun call => ⟨call.1, call.1, call.2, 0, 0⟩

theorem Alone.started_concat (s : Alone n K τ U) (code : Code n K τ U) (mem : Mem K τ)
    (dest : Fin n) (payload : Payload K U) :
    Alone.started ⟨code, mem, s.calls ++ [(dest, payload)]⟩
      = s.started + {⟨dest, dest, payload, 0, 0⟩} := by
  simp only [Alone.started, ← Multiset.coe_add, Multiset.map_add]
  rfl

section Invariants

variable [Inhabited K] {env : Env n K τ U} {s t : Alone n K τ U} {a : Meanwhile K τ}

/-- A step of a rank by itself keeps the invariant that steps of the communicator keep. -/
theorem Kept.alone (h : Kept env (some s.code) [] s.mem s.started)
    (taken : Alone.step env s a = some t) : Kept env (some t.code) [] t.mem t.started := by
  have still : ∀ slot ∈ env.works s.code, slot ∉ flushing ([] : List (Code n K τ U)) := by
    simp [flushing]
  unfold Alone.step at taken
  cases cmd : env.program.next s.code s.mem with
  | ret mem => simp [cmd] at taken
  | update mem k =>
      simp only [cmd, Option.some.injEq] at taken
      subst taken
      exact h.update still cmd
  | async dest payload k =>
      simp only [cmd, Option.some.injEq] at taken
      subst taken
      have called : Kept env none [k] s.mem (s.started + {⟨dest, dest, payload, 0, 0⟩}) :=
        h.async still cmd
      have back : Kept env none [k] (s.mem.after a.mem)
          (s.started + {⟨dest, dest, payload, 0, 0⟩}) :=
        called.swap rfl rfl rfl (by simp) (by simp) (by simp) (by simp [Mem.after])
      rw [Alone.started_concat]
      exact back.resume
  | asyncFlush dest k =>
      simp only [cmd, Option.some.injEq] at taken
      subst taken
      obtain ⟨plain, plain'⟩ := env.plain_of_leave (.inl ⟨dest, cmd⟩)
      exact h.goes plain plain' rfl rfl
  | asyncFlushAll k =>
      simp only [cmd, Option.some.injEq] at taken
      subst taken
      obtain ⟨plain, plain'⟩ := env.plain_of_leave (.inr (.inl cmd))
      exact h.goes plain plain' rfl rfl
  | barrier k =>
      simp only [cmd, Option.some.injEq] at taken
      subst taken
      obtain ⟨plain, plain'⟩ := env.plain_of_leave (.inr (.inr (.inl cmd)))
      exact h.goes plain plain' rfl rfl
  | kill k =>
      simp only [cmd, Option.some.injEq] at taken
      subst taken
      obtain ⟨plain, plain'⟩ := env.plain_of_leave (.inr (.inr (.inr cmd)))
      exact h.goes plain plain' rfl rfl
  | allReduce value k =>
      simp only [cmd, Option.some.injEq] at taken
      subst taken
      obtain ⟨plain, plain'⟩ := env.plain_of_reduce cmd
      exact h.goes plain (plain' _) rfl rfl

/-- A step of a rank by itself leads to the code and to the cache that its command gives. -/
theorem Alone.goes (taken : Alone.step env s a = some t) :
    ∃ mem', Goes s.mem (env.program.next s.code s.mem) mem' t.code ∧
      t.mem.cache = mem'.cache := by
  unfold Alone.step at taken
  cases cmd : env.program.next s.code s.mem with
  | ret mem => simp [cmd] at taken
  | allReduce value k =>
      simp only [cmd, Option.some.injEq] at taken
      subst taken
      exact ⟨s.mem, ⟨rfl, _, rfl⟩, rfl⟩
  | _ =>
      simp only [cmd, Option.some.injEq] at taken
      subst taken
      exact ⟨_, ⟨rfl, rfl⟩, rfl⟩

/-- **The invariant of a rank by itself**, in every reachable state: its cache fits the calls it
has issued, and the slots passed by a query are settled. -/
theorem alone_of_reachable {start : Mem K τ} (new : start.New) {main : U}
    (h : (alone env start main).Reachable s) :
    Kept env (some s.code) [] s.mem s.started ∧ Settled s.mem.cache [s.code] := by
  refine h.invariant (I := fun s => Kept env (some s.code) [] s.mem s.started ∧
    Settled s.mem.cache [s.code]) ⟨Kept.init new main, ?_⟩ ?_
  · exact ⟨by simp [alone, Code.Passed], by simp [alone, Code.fills], by simp [alone, Code.Follows]⟩
  · rintro s a t - ⟨kept, settled⟩ taken
    obtain ⟨mem', goes, cache⟩ := Alone.goes taken
    refine ⟨kept.alone taken, ?_⟩
    rw [cache]
    exact settled.next (by simp) goes

end Invariants

/-! ## What the calls amount to -/

/-- The amounts of the calls of a rank for a key add up to the sum of its visits. -/
theorem amounts_started (s : Alone n K τ U) (key : K) :
    amounts s.started key = (visits key s.calls).sum := by
  have call : ∀ calls : List (Fin n × Payload K U),
      (calls.map fun call => call.2.amount key).sum = (visits key calls).sum := by
    intro calls
    induction calls with
    | nil => rfl
    | cons call calls ih =>
        rw [List.map_cons, List.sum_cons, ih, visits, visits, List.filterMap_cons]
        cases payload : call.2 with
        | visit key' toAdd => by_cases same : key' = key <;> simp [Payload.amount, same]
        | _ => simp [Payload.amount]
  rw [← call, amounts, Alone.started, Multiset.map_map, Multiset.map_coe, Multiset.sum_coe]
  rfl

/-- **The cache agrees with counting every insert at once**, in a state of one rank. -/
structure Agrees (env : Env n K τ U) (s : Alone n K τ U) : Prop where
  /-- Between calls of the cache, the amounts sent for a key and the count in its slot add up to
  the number of its inserts. -/
  counts : s.code.Plain → ∀ key, (visits key s.calls).sum
    + s.mem.cache.cached (env.slot key) key = s.mem.inserted.count key
  /-- Every call that updates a count adds at least one. -/
  positive : ∀ key, ∀ toAdd ∈ visits key s.calls, 1 ≤ toAdd
  /-- Between calls of the cache, a slot is free or holds a positive count, below the maximum,
  of a key that has its place in this slot. -/
  slots : s.code.Plain → ∀ slot, (s.mem.cache.slots slot).2 = -1 ∨
    1 ≤ (s.mem.cache.slots slot).2 ∧ (s.mem.cache.slots slot).2 ≤ int32Max - 1 ∧
      env.slot (s.mem.cache.slots slot).1 = slot
  /-- After `count_cache_flush_all`, no slot holds a count, and the amounts sent for a key are
  the number of its inserts. -/
  flushed : ∀ q, s.code = .enter q → (∀ slot, (s.mem.cache.slots slot).2 = -1) ∧
    ∀ key, (visits key s.calls).sum = s.mem.inserted.count key
  /-- An increment of a count does not wrap around. -/
  increments : ∀ key u, s.code = .insert key u → (s.mem.cache.slots (env.slot key)).2 ≠ -1 →
    int32 ((s.mem.cache.slots (env.slot key)).2 + 1) = (s.mem.cache.slots (env.slot key)).2 + 1

/-- **The cache of a rank agrees with uncached counting**, in every state of a run in which
nothing else works on it: the amounts sent for a key and the count in its slot add up to the
number of its inserts, whatever keys share the slot. -/
theorem cache_agrees [Inhabited K] {env : Env n K τ U} {start : Mem K τ} (new : start.New)
    {main : U} {s : Alone n K τ U} (h : (alone env start main).Reachable s) : Agrees env s := by
  obtain ⟨kept, settled⟩ := alone_of_reachable new h
  have counts : s.code.Plain → ∀ key, (visits key s.calls).sum
      + s.mem.cache.cached (env.slot key) key = s.mem.inserted.count key := by
    intro plain key
    have balance := kept.balance key
    rw [amounts_started] at balance
    simpa [flushing, List.filterMap_cons, plain.clearing, plain.owes, Env.held] using balance
  have slots : s.code.Plain → ∀ slot, (s.mem.cache.slots slot).2 = -1 ∨
      1 ≤ (s.mem.cache.slots slot).2 ∧ (s.mem.cache.slots slot).2 ≤ int32Max - 1 ∧
        env.slot (s.mem.cache.slots slot).1 = slot := by
    intro plain slot
    have notFull : (s.mem.cache.slots slot).2 ≠ int32Max := by
      intro full
      rcases kept.full slot full with busy | here
      · simp [flushing, plain.clearing] at busy
      · simp [plain.fullSlot] at here
    rcases kept.slots slot with free | ⟨low, high, home⟩
    · exact .inl free
    · exact .inr ⟨low, by omega, home⟩
  refine ⟨counts, fun key toAdd visit => ?_, slots, fun q enter => ?_, fun key u insert taken => ?_⟩
  · obtain ⟨⟨dest, payload⟩, called, adds⟩ := List.mem_filterMap.mp visit
    cases payload with
    | visit key' toAdd' =>
        by_cases same : key' = key
        · obtain rfl : toAdd' = toAdd := by simpa [same] using adds
          have started : ⟨dest, dest, .visit key' toAdd', 0, 0⟩ ∈ s.started :=
            Multiset.mem_map.mpr ⟨_, called, rfl⟩
          exact (kept.positive _ started key' toAdd' rfl).1
        · simp [same] at adds
    | _ => simp at adds
  · have plain : s.code.Plain := by simp [enter, Code.Plain]
    have free : ∀ slot, (s.mem.cache.slots slot).2 = -1 := by
      intro slot
      have low := settled.free s.code rfl slot (by simp [enter, Code.Passed])
      rcases slots plain slot with free | ⟨high, -⟩
      · exact free
      · omega
    refine ⟨free, fun key => ?_⟩
    have total := counts plain key
    simpa [Cache.cached, free] using total
  · have plain : s.code.Plain := by simp [insert, Code.Plain]
    obtain ⟨low, high, -⟩ := (slots plain (env.slot key)).resolve_left taken
    simp only [int32Max] at high
    rw [int32, Int.bmod_def]
    omega

/-- A state of one rank that has inserted two keys of one slot. -/
def colliding : Alone 2 ℕ Unit ℕ :=
  (alone (nestedEnv 1) (emptyMem 0) 0).drive (fun _ _ => True)
    (alone (nestedEnv 1) (emptyMem 0) 0).init (List.replicate 12 ⟨emptyMem 0, 0⟩)

/-- In this state, the count of the first key has been sent, and the count of the second key is
in the slot. -/
theorem cache_agrees_colliding :
    visits 1 colliding.calls = [1] ∧ visits (1 + countCacheSize) colliding.calls = [] ∧
      colliding.mem.cache.slots 1 = (1 + countCacheSize, 1) ∧
      colliding.mem.inserted = [1, 1 + countCacheSize] ∧ Agrees (nestedEnv 1) colliding :=
  ⟨by decide +kernel, by decide +kernel, by decide +kernel, by decide +kernel,
    cache_agrees (emptyMem_new 0) (Machine.ReachableBy.init.drive _)⟩

end YGM.Counting
