import YGM.Comm.Activations
import YGM.Comm.Script
import YGM.Comm.Reductions
import YGM.Counting.Model
import Mathlib.Algebra.Order.BigOperators.Group.Finset
import Mathlib.Algebra.Order.BigOperators.Group.Multiset

/-!
# `counting_set` conserves counts

What a call of `async_insert` has counted is in the cache of its rank, or has left it in
a flush.  While a flush is on its way through its `async`, its count is in the call and
still in the slot; what the slot has is then no longer held (`Env.held`).  As long as no
other code works on that slot until it is cleared (`Env.Undisturbed`), what a rank has
started to flush and what it holds add up to what it has counted (`Kept`).

The flushes of all ranks that have been executed are the counts of the map
(`Visited`), the others are pending, so the sum over all ranks follows
(`counts_conserved`).  An insert into a slot that is being flushed is lost, and a flush
of such a slot is made twice (`insert_lost`).
-/

namespace YGM.Counting

variable {n : ℕ} {K τ U : Type} [LinearOrder K]

/-- The state of a rank that runs the program of the counting set. -/
abbrev CountRank (n : ℕ) (K τ U : Type) [LinearOrder K] : Type :=
  Rank n (Payload K U) (Mem K τ) ℕ (Code n K τ U)

/-- The state of all ranks that run the program of the counting set. -/
abbrev CountSys (n : ℕ) (K τ U : Type) [LinearOrder K] : Type :=
  Sys n (Payload K U) (Mem K τ) ℕ (Code n K τ U)

/-! ## Flushes -/

/-- The number of calls `async_insert(key)`, at most one, that have counted and are waiting for
this flush. -/
def After.owes (key : K) : After K τ U → ℤ
  | .done key' _ => if key' = key then 1 else 0
  | _ => 0

/-- A key with which a flushed slot is to be filled has its place in this slot. -/
def After.Home (env : Env n K τ U) (slot : ℕ) : After K τ U → Prop
  | .fill key _ => env.slot key = slot
  | _ => True

namespace Code

variable (key : K)

/-- The slot that code is about to clear after its call has returned. -/
def clearing : Code n K τ U → Option ℕ
  | .clear slot _ => some slot
  | _ => none

/-- Code that waits can be called by other code at any time, so it is in none of the steps of
`cache_insert`. -/
def Waits : Code n K τ U → Prop
  | .fill .. | .check .. | .done .. | .flush .. => False
  | _ => True

/-- Code that neither changes the cache nor is in the middle of an insertion. -/
def Plain : Code n K τ U → Prop
  | .fill .. | .check .. | .done .. | .flush .. | .clear .. => False
  | _ => True

/-- The number of calls `async_insert(key)`, at most one, that have counted and not returned at
this code point. -/
def owes : Code n K τ U → ℤ
  | .check _ key' _ | .done key' _ => if key' = key then 1 else 0
  | .flush _ a | .clear _ a => a.owes key
  | _ => 0

/-- A key that code is about to put into a slot has its place in this slot. -/
def Home (env : Env n K τ U) : Code n K τ U → Prop
  | .fill slot key _ => env.slot key = slot
  | .flush slot a | .clear slot a => a.Home env slot
  | _ => True

@[simp] theorem owes_flush (slot : ℕ) (a : After K τ U) :
    (flush slot a : Code n K τ U).owes key = a.owes key :=
  rfl

@[simp] theorem owes_clear (slot : ℕ) (a : After K τ U) :
    (clear slot a : Code n K τ U).owes key = a.owes key :=
  rfl

/-- The conditions on the cache under which code may run, where the slots `busy` are being
flushed. -/
def Fits (cache : Cache K) (busy : List ℕ) : Code n K τ U → Prop
  | .fill slot _ _ => (cache.slots slot).2 = -1 ∧ slot ∉ busy
  | .check slot _ _ => slot ∉ busy
  | .flush slot _ => 0 < (cache.slots slot).2
  | _ => True

/-- The slot that may hold the maximal count while this code is running. -/
def fullSlot : Code n K τ U → Option ℕ
  | .check slot _ _ | .flush slot _ => some slot
  | _ => none

section Plain

variable {k : Code n K τ U} (plain : k.Plain)
include plain

omit [LinearOrder K] in
theorem Plain.waits : k.Waits := by
  cases k <;> trivial

omit [LinearOrder K] in
theorem Plain.clearing : k.clearing = none := by
  cases k <;> first | rfl | exact plain.elim

theorem Plain.owes (key : K) : k.owes key = 0 := by
  cases k <;> first | rfl | exact plain.elim

theorem Plain.home (env : Env n K τ U) : k.Home env := by
  cases k <;> trivial

omit [LinearOrder K] in
theorem Plain.fits (cache : Cache K) (busy : List ℕ) : k.Fits cache busy := by
  cases k <;> trivial

omit [LinearOrder K] in
theorem Plain.fullSlot : k.fullSlot = none := by
  cases k <;> first | rfl | exact plain.elim

end Plain

end Code

/-- **The slots that are being flushed** by the given activations. -/
def flushing (codes : List (Code n K τ U)) : List ℕ :=
  codes.filterMap Code.clearing

omit [LinearOrder K] in
theorem flushing_cons {k : Code n K τ U} (h : k.clearing = none) (codes : List (Code n K τ U)) :
    flushing (k :: codes) = flushing codes := by
  simp [flushing, h]

omit [LinearOrder K] in
@[simp] theorem flushing_clear (slot : ℕ) (k : After K τ U) (codes : List (Code n K τ U)) :
    flushing (.clear slot k :: codes) = slot :: flushing codes :=
  rfl

/-- The amount that a call adds to the count of a key, which is 0 unless it is a flush of this
key. -/
def Payload.amount (key : K) : Payload K U → ℤ
  | .visit key' toAdd => if key' = key then toAdd else 0
  | _ => 0

/-- The amount that a multiset of calls adds to the count of a key. -/
def amounts (calls : Multiset (Rpc n (Payload K U))) (key : K) : ℤ :=
  (calls.map fun m => m.payload.amount key).sum

/-- **The count that the cache holds of a key**, where a slot that is being flushed holds
nothing. -/
def Env.held (env : Env n K τ U) (cache : Cache K) (busy : List ℕ) (key : K) : ℤ :=
  if env.slot key ∈ busy then 0 else cache.cached (env.slot key) key

/-- The slot on which code is about to start to work, in `cache_insert` or `count_cache_flush`. -/
def Env.works (env : Env n K τ U) : Code n K τ U → Option ℕ
  | .insert key _ => some (env.slot key)
  | .flush slot _ => some slot
  | _ => none

/-- **No disturbance**: no code starts to work on a slot that other code of its rank is
flushing. -/
def Env.Undisturbed (env : Env n K τ U) (c : CountSys n K τ U) : Action n → Prop
  | .main r _ => ∀ slot ∈ (c.rank r).running.bind env.works, slot ∉ flushing (c.rank r).waiting
  | .listen _ _ => True

instance (env : Env n K τ U) (c : CountSys n K τ U) : ∀ a, Decidable (env.Undisturbed c a)
  | .main r _ => inferInstanceAs
      (Decidable (∀ slot ∈ (c.rank r).running.bind env.works, slot ∉ flushing (c.rank r).waiting))
  | .listen _ _ => inferInstanceAs (Decidable True)

/-! ## What one rank keeps -/

/-- **The invariant of a rank**, about the code it runs, the code that waits, its memory and the
calls it has started. -/
structure Kept (env : Env n K τ U) (running : Option (Code n K τ U))
    (waiting : List (Code n K τ U)) (mem : Mem K τ)
    (started : Multiset (Rpc n (Payload K U))) : Prop where
  slots : ∀ slot, (mem.cache.slots slot).2 = -1 ∨
    0 < (mem.cache.slots slot).2 ∧ (mem.cache.slots slot).2 ≤ int32Max ∧
      env.slot (mem.cache.slots slot).1 = slot
  /-- A slot with the maximal count is being flushed, or is about to be flushed by the running
  code. -/
  full : ∀ slot, (mem.cache.slots slot).2 = int32Max →
    slot ∈ flushing (running.toList ++ waiting) ∨ running.bind Code.fullSlot = some slot
  once : (flushing (running.toList ++ waiting)).Nodup
  home : ∀ code ∈ running.toList ++ waiting, code.Home env
  waits : ∀ code ∈ waiting, code.Waits
  fits : ∀ code ∈ running, code.Fits mem.cache (flushing waiting)
  balance : ∀ key, amounts started key
      + env.held mem.cache (flushing (running.toList ++ waiting)) key
    = (mem.inserted.count key : ℤ)
      + ((running.toList ++ waiting).map (Code.owes key)).sum
  positive : ∀ m ∈ started, ∀ key toAdd, m.payload = .visit key toAdd →
    0 < toAdd ∧ m.dest = env.partitioner.owner key

section Kept

variable {env : Env n K τ U} {mem mem' : Mem K τ} {waiting : List (Code n K τ U)}
variable {started : Multiset (Rpc n (Payload K U))} {k k' : Code n K τ U}

/-- Code that was interrupted runs again with the invariant of its rank. -/
theorem Kept.resume (h : Kept env none (k :: waiting) mem started) :
    Kept env (some k) waiting mem started := by
  have waits := h.waits k (by simp)
  refine ⟨h.slots, fun slot full => ?_, h.once, h.home,
    fun code hcode => h.waits code (by simp [hcode]), ?_, h.balance, h.positive⟩
  · exact .inl ((h.full slot full).resolve_right (by simp))
  · rintro code ⟨⟩
    cases k <;> trivial

/-- Running code that may wait can be interrupted, and keeps the invariant of its rank. -/
theorem Kept.suspend (h : Kept env (some k) waiting mem started) (waits : k.Waits) :
    Kept env none (k :: waiting) mem started := by
  refine ⟨h.slots, fun slot full => ?_, h.once, h.home, ?_, by simp, h.balance, h.positive⟩
  · refine .inl ((h.full slot full).resolve_right ?_)
    cases k <;> first | exact waits.elim | simp [Code.fullSlot]
  · simpa using ⟨waits, h.waits⟩

/-- **Running code that goes on with the same cache keeps the invariant**, if the new code fits
the cache and owes as many returns as the old code did. -/
theorem Kept.swap {running running' : Option (Code n K τ U)}
    (h : Kept env running waiting mem started) (clearing : running.bind Code.clearing = none)
    (clearing' : running'.bind Code.clearing = none) (cache : mem'.cache = mem.cache)
    (full : ∀ slot, (mem.cache.slots slot).2 = int32Max →
      running.bind Code.fullSlot = some slot → running'.bind Code.fullSlot = some slot)
    (home : ∀ code ∈ running', code.Home env)
    (fits : ∀ code ∈ running', code.Fits mem.cache (flushing waiting))
    (owes : ∀ key, (mem'.inserted.count key : ℤ) + (running'.toList.map (Code.owes key)).sum
      = (mem.inserted.count key : ℤ) + (running.toList.map (Code.owes key)).sum) :
    Kept env running' waiting mem' started := by
  have busy : flushing (running.toList ++ waiting) = flushing waiting := by
    cases running with
    | none => rfl
    | some k => exact flushing_cons clearing waiting
  have busy' : flushing (running'.toList ++ waiting) = flushing waiting := by
    cases running' with
    | none => rfl
    | some k => exact flushing_cons clearing' waiting
  refine ⟨by simpa only [cache] using h.slots, fun slot most => ?_, ?_, fun code hcode => ?_,
    h.waits, by simpa only [cache] using fits, fun key => ?_, h.positive⟩
  · rw [cache] at most
    have old := h.full slot most
    rw [busy] at old
    rw [busy']
    exact old.imp_right (full slot most)
  · rw [busy', ← busy]
    exact h.once
  · rcases List.mem_append.mp hcode with hcode | hcode
    · exact home code (by simpa using hcode)
    · exact h.home code (List.mem_append.mpr (.inr hcode))
  · have balance := h.balance key
    rw [busy, List.map_append, List.sum_append] at balance
    rw [busy', cache, balance, List.map_append, List.sum_append, ← add_assoc, ← add_assoc, owes]

/-- Plain code that returns, with the cache and the history as they were, keeps the invariant. -/
theorem Kept.ret (h : Kept env (some k) waiting mem started) (plain : k.Plain)
    (cache : mem'.cache = mem.cache) (inserted : mem'.inserted = mem.inserted) :
    Kept env none waiting mem' started :=
  h.swap plain.clearing rfl cache (by simp [plain.fullSlot]) (by simp) (by simp)
    (by simp [inserted, plain.owes])

/-- Plain code that starts to run keeps the invariant. -/
theorem Kept.start (h : Kept env none waiting mem started) (plain : k.Plain) :
    Kept env (some k) waiting mem started :=
  h.swap rfl plain.clearing rfl (by simp) (by simpa using plain.home env)
    (by simpa using plain.fits mem.cache _) (by simp [plain.owes])

theorem Kept.goes (h : Kept env (some k) waiting mem started) (plain : k.Plain)
    (plain' : k'.Plain) (cache : mem'.cache = mem.cache)
    (inserted : mem'.inserted = mem.inserted) : Kept env (some k') waiting mem' started :=
  (h.ret plain cache inserted).start plain'

/-- Code that is about to flush a taken slot, and owes no return, may start to run. -/
theorem Kept.toFlush (h : Kept env none waiting mem started) {slot : ℕ} {a : After K τ U}
    (taken : 0 < (mem.cache.slots slot).2) (home : a.Home env slot)
    (owes : ∀ key, a.owes key = 0) : Kept env (some (.flush slot a)) waiting mem started :=
  h.swap rfl rfl rfl (by simp) (by simpa [Code.Home] using home)
    (by simpa [Code.Fits] using taken) (by simp [Code.owes, owes])

/-- A call that is not a flush keeps the invariant. -/
theorem Kept.call {running : Option (Code n K τ U)} (h : Kept env running waiting mem started)
    {m : Rpc n (Payload K U)} (other : ∀ key toAdd, m.payload ≠ .visit key toAdd) :
    Kept env running waiting mem (started + {m}) := by
  refine ⟨h.slots, h.full, h.once, h.home, h.waits, h.fits, fun key => ?_, ?_⟩
  · rw [← h.balance key]
    have none : m.payload.amount key = 0 := by
      cases payload : m.payload with
      | visit key toAdd => exact absurd payload (other key toAdd)
      | _ => rfl
    simp [amounts, none]
  · intro m' hm' key toAdd payload
    rcases Multiset.mem_add.mp hm' with old | new
    · exact h.positive m' old key toAdd payload
    · rw [Multiset.mem_singleton.mp new] at payload
      exact absurd payload (other key toAdd)

theorem Kept.sends (h : Kept env (some k) waiting mem started) (plain : k.Plain)
    (plain' : k'.Plain) {m : Rpc n (Payload K U)}
    (other : ∀ key toAdd, m.payload ≠ .visit key toAdd) :
    Kept env none (k' :: waiting) mem (started + {m}) :=
  ((h.goes plain plain' rfl rfl).suspend plain'.waits).call other

/-- **A key that is counted in a slot that is not being flushed** keeps the invariant, with the
count now in the slot and the return owed. -/
theorem Kept.counted (h : Kept env (some k) waiting mem started) (clearing : k.clearing = none)
    (owes : ∀ key, k.owes key = 0) (fullSlot : k.fullSlot = none) {key : K}
    (still : env.slot key ∉ flushing waiting) {count : ℤ} (low : 0 < count)
    (high : count ≤ int32Max)
    (old : ∀ key', env.slot key' = env.slot key →
      mem.cache.cached (env.slot key) key' = if key = key' then count - 1 else 0) (u : U) :
    Kept env (some (.check (env.slot key) key u)) waiting (mem.put (env.slot key) (key, count))
      started := by
  have busy : flushing ((some k).toList ++ waiting) = flushing waiting :=
    flushing_cons clearing waiting
  have busy' : flushing ((some (Code.check (env.slot key) key u)).toList ++ waiting)
      = flushing waiting := flushing_cons rfl waiting
  refine ⟨fun slot => ?_, fun slot full => ?_, ?_, ?_, h.waits, ?_, fun key' => ?_, h.positive⟩
  · by_cases here : slot = env.slot key
    · subst here
      exact .inr (by simpa [Mem.put] using ⟨low, high⟩)
    · simpa [Mem.put, Cache.put_slots_of_ne _ _ here] using h.slots slot
  · rw [busy']
    by_cases here : slot = env.slot key
    · subst here
      exact .inr rfl
    · rw [Mem.put, Cache.put_slots_of_ne _ _ here] at full
      have old := h.full slot full
      rw [busy] at old
      exact .inl (old.resolve_right (by simp [fullSlot]))
  · rw [busy']
    have once := h.once
    rwa [busy] at once
  · intro code hcode
    rcases List.mem_cons.mp hcode with rfl | hcode
    · trivial
    · exact h.home code (by simpa using .inr hcode)
  · rintro code ⟨⟩
    exact still
  · have balance := h.balance key'
    rw [busy] at balance
    rw [busy']
    by_cases here : env.slot key' = env.slot key
    · simp only [Env.held, here, still, if_false, old key' here, Option.toList_some,
        List.singleton_append, List.map_cons, List.sum_cons, owes, zero_add] at balance
      simp only [Env.held, here, still, if_false, Option.toList_some, List.singleton_append,
        List.map_cons, List.sum_cons, Code.owes, Cache.cached, Mem.put, Cache.put_slots_self]
      by_cases same : key = key'
      · simp only [same, if_true, true_and] at balance ⊢
        rw [if_pos (by omega)]
        omega
      · simpa [same] using balance
    · have apart : key ≠ key' := fun same => here (same ▸ rfl)
      simp only [Option.toList_some, List.singleton_append, List.map_cons, List.sum_cons, owes,
        zero_add] at balance
      simpa [Env.held, Cache.cached, Mem.put, Cache.put_slots_of_ne _ _ here, Code.owes, apart]
        using balance

/-- `cache_insert` keeps the invariant up to the flush of its slot or the comparison with the
maximum. -/
theorem Kept.insert {key : K} {u : U} (h : Kept env (some (.insert key u)) waiting mem started)
    (still : env.slot key ∉ flushing waiting)
    (cmd : env.cacheInsert mem key u = .update mem' k') :
    Kept env (some k') waiting mem' started := by
  have slots := h.slots (env.slot key)
  simp only [Env.cacheInsert] at cmd
  split at cmd
  case isTrue free =>
    cases cmd
    refine h.counted rfl (fun _ => rfl) rfl still one_pos (by decide) (fun key' _ => ?_) u
    simp [Cache.cached, free]
  case isFalse taken =>
    obtain ⟨low, high, -⟩ := slots.resolve_left taken
    split at cmd
    case isTrue here =>
      have notFull : (mem.cache.slots (env.slot key)).2 ≠ int32Max := fun full =>
        (h.full _ full).elim still (by simp [Code.fullSlot])
      have next : int32 ((mem.cache.slots (env.slot key)).2 + 1)
          = (mem.cache.slots (env.slot key)).2 + 1 := by
        simp only [int32Max] at high notFull
        simp only [int32, Int.bmod_def]
        omega
      cases cmd
      rw [next, here]
      refine h.counted rfl (fun _ => rfl) rfl still (by omega) (by omega) (fun key' _ => ?_) u
      simp [Cache.cached, taken, here]
    case isFalse other =>
      cases cmd
      exact (h.ret trivial rfl rfl).toFlush low rfl fun _ => rfl

/-- `cache_insert` keeps the invariant when it fills the slot after a flush. -/
theorem Kept.fill {slot : ℕ} {key : K} {u : U}
    (h : Kept env (some (.fill slot key u)) waiting mem started) :
    Kept env (some (.check slot key u)) waiting (mem.put slot (key, 1)) started := by
  obtain ⟨free, still⟩ := h.fits _ rfl
  have home : env.slot key = slot := h.home (.fill slot key u) (by simp)
  subst home
  refine h.counted rfl (fun _ => rfl) rfl still one_pos (by decide) (fun key' _ => ?_) u
  simp [Cache.cached, free]

/-- The comparison of `cache_insert` with the maximum keeps the invariant, and a slot with the
maximal count is flushed next. -/
theorem Kept.check {slot : ℕ} {key : K} {u : U}
    (h : Kept env (some (.check slot key u)) waiting mem started) :
    Kept env (some (if (mem.cache.slots slot).2 = int32Max then .flush slot (.done key u)
      else .done key u)) waiting mem started := by
  split
  case isTrue most =>
    refine h.swap rfl rfl rfl (fun _ _ here => here) (by simp [Code.Home, After.Home]) ?_ fun _ => rfl
    rintro code ⟨⟩
    simp [Code.Fits, most, int32Max]
  case isFalse less =>
    refine h.swap rfl rfl rfl (fun slot' most here => ?_) (by simp [Code.Home])
      (by simp [Code.Fits]) fun _ => rfl
    cases here
    exact absurd most less

/-- The return of `async_insert` keeps the invariant, with the key now in the history and no
return owed. -/
theorem Kept.done {key : K} {u u' : U} (h : Kept env (some (.done key u)) waiting mem started) :
    Kept env (some (.user u')) waiting { mem with inserted := mem.inserted ++ [key] }
      started := by
  refine h.swap rfl rfl rfl (by simp [Code.fullSlot]) (by simp [Code.Home])
    (by simp [Code.Fits]) fun key' => ?_
  by_cases same : key = key' <;> simp [Code.owes, List.count_append, same]

/-- **The call of a flush keeps the invariant**: the count is in the call, and the slot counts
as empty. -/
theorem Kept.flush {slot : ℕ} {a : After K τ U}
    (h : Kept env (some (.flush slot a)) waiting mem started) (still : slot ∉ flushing waiting)
    {m : Rpc n (Payload K U)}
    (payload : m.payload = .visit (mem.cache.slots slot).1 (mem.cache.slots slot).2)
    (dest : m.dest = env.partitioner.owner (mem.cache.slots slot).1) :
    Kept env none (.clear slot a :: waiting) mem (started + {m}) := by
  have busy : flushing ((some (Code.flush slot a)).toList ++ waiting) = flushing waiting :=
    flushing_cons rfl waiting
  have taken : 0 < (mem.cache.slots slot).2 := h.fits _ rfl
  obtain ⟨-, -, own⟩ := (h.slots slot).resolve_left (by omega)
  refine ⟨h.slots, fun slot' full => ?_, ?_, fun code hcode => ?_, ?_, by simp, fun key => ?_,
    fun m' hm' key toAdd visit => ?_⟩
  · left
    have old := h.full slot' full
    rw [busy] at old
    rcases old with old | here
    · simp [old]
    · cases here
      simp
  · have once := h.once
    rw [busy] at once
    simpa using ⟨still, once⟩
  · rcases List.mem_cons.mp hcode with rfl | hcode
    · exact h.home (.flush slot a) (by simp)
    · exact h.home code (by simpa using .inr hcode)
  · simpa using ⟨trivial, h.waits⟩
  · have balance := h.balance key
    rw [busy] at balance
    simp only [Option.toList_some, Option.toList_none, List.singleton_append, List.nil_append,
      List.map_cons, List.sum_cons, Code.owes, flushing_clear, amounts, Multiset.map_add,
      Multiset.sum_add, Multiset.map_singleton, Multiset.sum_singleton, payload,
      Payload.amount] at balance ⊢
    rw [← balance]
    by_cases here : env.slot key = slot
    · subst here
      simp only [Env.held, still, if_false, List.mem_cons_self, if_true, Cache.cached]
      have notFree : (mem.cache.slots (env.slot key)).2 ≠ -1 := by omega
      simp only [notFree, ne_eq, not_false_eq_true, and_true]
      omega
    · have apart : (mem.cache.slots slot).1 ≠ key := fun same => here (same ▸ own)
      simp [Env.held, here, apart]
  · rcases Multiset.mem_add.mp hm' with old | new
    · exact h.positive m' old key toAdd visit
    · rw [Multiset.mem_singleton.mp new, payload] at visit
      cases visit
      rw [Multiset.mem_singleton.mp new]
      exact ⟨taken, dest⟩

/-- **The end of a flush keeps the invariant**: the slot is cleared when its call has returned. -/
theorem Kept.clear [Inhabited K] {slot : ℕ} {a : After K τ U}
    (h : Kept env (some (.clear slot a)) waiting mem started) :
    Kept env (some (a.code slot)) waiting (mem.put slot (default, -1)) started := by
  have once : slot ∉ flushing waiting ∧ (flushing waiting).Nodup := by
    simpa using h.once
  have clearing : (a.code slot : Code n K τ U).clearing = none := by cases a <;> rfl
  have busy : flushing ((some (a.code slot : Code n K τ U)).toList ++ waiting)
      = flushing waiting := flushing_cons clearing waiting
  refine ⟨fun slot' => ?_, fun slot' full => ?_, ?_, fun code hcode => ?_, h.waits, ?_,
    fun key => ?_, h.positive⟩
  · by_cases here : slot' = slot
    · subst here
      exact .inl (by simp [Mem.put])
    · simpa [Mem.put, Cache.put_slots_of_ne _ _ here] using h.slots slot'
  · by_cases here : slot' = slot
    · subst here
      simp [Mem.put, int32Max] at full
    · rw [Mem.put, Cache.put_slots_of_ne _ _ here] at full
      have old := (h.full slot' full).resolve_right (by simp [Code.fullSlot])
      rw [busy]
      exact .inl (by simpa [here] using old)
  · rw [busy]
    exact once.2
  · rcases List.mem_cons.mp hcode with rfl | hcode
    · have home := h.home (.clear slot a) (by simp)
      cases a <;> trivial
    · exact h.home code (by simpa using .inr hcode)
  · rintro code ⟨⟩
    cases a with
    | fill key u => exact ⟨by simp [Mem.put], once.1⟩
    | _ => trivial
  · have balance := h.balance key
    have owes : (a.code slot : Code n K τ U).owes key = a.owes key := by cases a <;> rfl
    rw [busy]
    simp only [Option.toList_some, List.singleton_append, List.map_cons, List.sum_cons,
      Code.owes_clear, flushing_clear, owes, Mem.put_cache, Mem.put_inserted] at balance ⊢
    rw [← balance]
    by_cases here : env.slot key = slot
    · subst here
      simp [Env.held, once.1, Cache.cached]
    · simp [Env.held, here, Cache.cached, Cache.put_slots_of_ne _ _ here]

section Steps

variable [Inhabited K]

/-- **A computation keeps the invariant**, if it does not start to work on a slot that is being
flushed. -/
theorem Kept.update (h : Kept env (some k) waiting mem started)
    (still : ∀ slot ∈ env.works k, slot ∉ flushing waiting)
    (cmd : env.program.next k mem = .update mem' k') :
    Kept env (some k') waiting mem' started := by
  cases k with
  | user u =>
      simp only [Env.program, Call.command] at cmd
      split at cmd <;> cases cmd <;> exact h.goes trivial trivial rfl rfl
  | insert key u => exact h.insert (still _ rfl) cmd
  | fill slot key u =>
      cases cmd
      exact h.fill
  | check slot key u =>
      have next := h.check
      simp only [Env.program] at cmd
      split at cmd
      case isTrue most =>
        cases cmd
        simpa only [most, if_true] using next
      case isFalse less =>
        cases cmd
        simpa only [less, if_false] using next
  | done key u =>
      cases cmd
      exact h.done
  | clear slot a =>
      cases cmd
      exact h.clear
  | flushAll i again q =>
      simp only [Env.program] at cmd
      split at cmd
      case h_1 slot found =>
        cases cmd
        exact (h.ret trivial rfl rfl).toFlush (Cache.next_some found).2.1 trivial fun _ => rfl
      case h_2 =>
        cases cmd
        refine h.goes trivial ?_ rfl rfl
        cases again <;> trivial
  | read q => cases q <;> cases cmd <;> exact h.goes trivial trivial rfl rfl
  | gathered preturn k =>
      cases cmd
      exact h.goes trivial trivial rfl rfl
  | fetching preturn keys k => cases keys <;> cases cmd
  | _ => cases cmd

/-- **A call keeps the invariant**, if it does not start to work on a slot that is being
flushed. -/
theorem Kept.async (h : Kept env (some k) waiting mem started)
    (still : ∀ slot ∈ env.works k, slot ∉ flushing waiting) {m : Rpc n (Payload K U)}
    (cmd : env.program.next k mem = .async m.dest m.payload k') :
    Kept env none (k' :: waiting) mem (started + {m}) := by
  cases k with
  | user u =>
      simp only [Env.program, Call.command] at cmd
      split at cmd
      case h_3 =>
        obtain ⟨-, payload, rfl⟩ := Cmd.async.inj cmd
        exact h.sends trivial (by trivial) (by simp [← payload])
      all_goals cases cmd
  | flush slot a =>
      simp only [Env.program, Cmd.async.injEq] at cmd
      obtain ⟨dest, payload, rfl⟩ := cmd
      exact h.flush (still _ rfl) payload.symm dest.symm
  | fetching preturn keys k =>
      cases keys with
      | nil => cases cmd
      | cons key rest =>
          simp only [Env.program, Cmd.async.injEq] at cmd
          obtain ⟨dest, payload, rfl⟩ := cmd
          exact h.sends trivial (by trivial) (by simp [← payload])
  | fetch src key pcont =>
      simp only [Env.program, Cmd.async.injEq] at cmd
      obtain ⟨dest, payload, rfl⟩ := cmd
      exact h.sends trivial (by trivial) (by simp [← payload])
  | insert key u =>
      simp only [Env.program, Env.cacheInsert] at cmd
      repeat' split at cmd
      all_goals cases cmd
  | check slot key u =>
      simp only [Env.program] at cmd
      split at cmd <;> cases cmd
  | flushAll i again q =>
      simp only [Env.program] at cmd
      split at cmd <;> cases cmd
  | read q => cases q <;> cases cmd
  | _ => cases cmd

/-- Code that flushes send buffers, enters a barrier or shuts down is plain, and goes on with
plain code. -/
theorem Env.plain_of_leave {k k' : Code n K τ U}
    (cmd : (∃ dest, env.program.next k mem = .asyncFlush dest k') ∨
      env.program.next k mem = .asyncFlushAll k' ∨
      env.program.next k mem = .barrier k' ∨ env.program.next k mem = .kill k') :
    k.Plain ∧ k'.Plain := by
  cases k with
  | user u =>
      simp only [Env.program, Call.command] at cmd
      refine ⟨trivial, ?_⟩
      split at cmd <;> simp at cmd <;> subst cmd <;> trivial
  | enter q =>
      simp only [Env.program, Cmd.barrier.injEq, reduceCtorEq, exists_false, false_or,
        or_false] at cmd
      subst cmd
      exact ⟨trivial, trivial⟩
  | fetching preturn keys k =>
      cases keys <;> simp only [Env.program, Cmd.barrier.injEq, reduceCtorEq, exists_false,
        false_or, or_false] at cmd
      subst cmd
      exact ⟨trivial, trivial⟩
  | insert key u =>
      simp only [Env.program, Env.cacheInsert] at cmd
      repeat' split at cmd
      all_goals simp at cmd
  | check slot key u =>
      simp only [Env.program] at cmd
      split at cmd <;> simp at cmd
  | flushAll i again q =>
      simp only [Env.program] at cmd
      split at cmd <;> simp at cmd
  | read q => cases q <;> simp [Env.program, Query.answer] at cmd
  | _ => simp [Env.program] at cmd

/-- Code that takes part in a reduction is plain, and goes on with plain code. -/
theorem Env.plain_of_reduce {k : Code n K τ U} {value : ℕ} {next : ℕ → Code n K τ U}
    (cmd : env.program.next k mem = .allReduce value next) :
    k.Plain ∧ ∀ out, (next out).Plain := by
  cases k with
  | user u =>
      simp only [Env.program, Call.command] at cmd
      split at cmd <;> cases cmd
      exact ⟨trivial, fun _ => trivial⟩
  | read q =>
      cases q <;> cases cmd <;> exact ⟨trivial, fun _ => trivial⟩
  | fetching preturn keys k => cases keys <;> cases cmd
  | insert key u =>
      simp only [Env.program, Env.cacheInsert] at cmd
      repeat' split at cmd
      all_goals cases cmd
  | check slot key u =>
      simp only [Env.program] at cmd
      split at cmd <;> cases cmd
  | flushAll i again q =>
      simp only [Env.program] at cmd
      split at cmd <;> cases cmd
  | _ => cases cmd

/-- A handler that returns is plain, and leaves the cache and the history as they are. -/
theorem Env.plain_of_ret {k : Code n K τ U} (cmd : env.program.next k mem = .ret mem') :
    k.Plain ∧ mem'.cache = mem.cache ∧ mem'.inserted = mem.inserted := by
  cases k with
  | user u =>
      simp only [Env.program, Call.command] at cmd
      split at cmd <;> cases cmd
      exact ⟨trivial, rfl, rfl⟩
  | fetching preturn keys k => cases keys <;> cases cmd
  | insert key u =>
      simp only [Env.program, Env.cacheInsert] at cmd
      repeat' split at cmd
      all_goals cases cmd
  | check slot key u =>
      simp only [Env.program] at cmd
      split at cmd <;> cases cmd
  | flushAll i again q =>
      simp only [Env.program] at cmd
      split at cmd <;> cases cmd
  | read q => cases q <;> cases cmd
  | visit | fetched | returner =>
      cases cmd
      exact ⟨trivial, rfl, rfl⟩
  | _ => cases cmd

/-- A handler starts with plain code. -/
theorem Env.plain_handler (src : Fin n) (payload : Payload K U) :
    (env.program.handler src payload).Plain := by
  cases payload <;> trivial

/-- **A move of a rank keeps the invariant**, if the running code does not start to work on a
slot that is being flushed. -/
theorem Kept.acts {r : Fin n} {s t : CountRank n K τ U}
    (h : Kept env s.running s.waiting s.mem s.started)
    (still : ∀ slot ∈ s.running.bind env.works, slot ∉ flushing s.waiting)
    (inside : ∀ k, s.pc = .reduce k → ∃ value, env.program.next s.code s.mem = .allReduce value k)
    (acts : Acts env.program r s t) : Kept env t.running t.waiting t.mem t.started := by
  -- what waited may be running again
  have exposed : Kept env none t.codes t.mem t.started →
      Kept env t.running t.waiting t.mem t.started := by
    intro h
    rw [t.codes_eq] at h
    cases running : t.running with
    | none => simpa [running] using h
    | some k =>
        rw [running] at h
        exact h.resume
  cases acts with
  | quiet idle codes mem started =>
      refine exposed ?_
      rw [codes, mem, started, ← Rank.waiting_of_idle idle]
      exact idle ▸ h
  | start m idle received codes running mem started =>
      rw [running, Rank.waiting_of_running running codes, mem, started,
        ← Rank.waiting_of_idle idle]
      exact Kept.start (idle ▸ h) (env.plain_handler _ _)
  | reduced value k pc idle before codes running mem started =>
      obtain ⟨_, cmd⟩ := inside k pc
      obtain ⟨plain, plain'⟩ := env.plain_of_reduce cmd
      rw [running, Rank.waiting_of_running running codes, mem, started]
      rw [idle, Rank.waiting_of_idle idle, before] at h
      exact h.resume.goes plain (plain' value) rfl rfl
  | ret k running cmd codes started =>
      obtain ⟨plain, cache, inserted⟩ := env.plain_of_ret cmd
      refine exposed ?_
      rw [codes, started]
      exact Kept.ret (running ▸ h) plain cache inserted
  | update k k' running cmd codes after started =>
      rw [after, Rank.waiting_of_running after codes, started]
      exact Kept.update (running ▸ h) (by simpa [running] using still) cmd
  | remote k k' m running src cmd codes idle mem started =>
      rw [idle, Rank.waiting_of_idle idle, codes, mem, started]
      exact Kept.async (running ▸ h) (by simpa [running] using still) cmd
  | self k k' m running src dest cmd codes after mem started =>
      rw [after, Rank.waiting_of_running after codes, mem, started]
      exact (Kept.async (running ▸ h) (by simpa [running] using still) cmd).start
        (env.plain_handler _ _)
  | leave k k' running cmd codes idle mem started =>
      obtain ⟨plain, plain'⟩ := env.plain_of_leave cmd
      rw [idle, Rank.waiting_of_idle idle, codes, mem, started]
      exact (Kept.goes (running ▸ h) plain plain' rfl rfl).suspend plain'.waits
  | reduce value k running cmd pc before codes idle mem started =>
      obtain ⟨plain, -⟩ := env.plain_of_reduce cmd
      have waiting : s.waiting = [] := Rank.waiting_of_running running before
      rw [idle, Rank.waiting_of_idle idle, codes, before, mem, started]
      rw [running, waiting] at h
      exact h.suspend plain.waits

end Steps

end Kept

/-! ## Runs -/

section Runs

variable [Inhabited K] {env : Env n K τ U} {cfg : Config}
variable {start : Fin n → Mem K τ} {main : Fin n → U} {c : CountSys n K τ U}

/-- The memory of a rank at its start, with nothing cached and nothing counted. -/
structure Mem.New (mem : Mem K τ) : Prop where
  cache : mem.cache = .empty
  map : mem.map = ⟨0, .empty⟩
  inserted : mem.inserted = []

theorem Kept.init {mem : Mem K τ} (new : mem.New) (u : U) :
    Kept env (some (.user u)) [] mem 0 := by
  have free : ∀ slot, (mem.cache.slots slot).2 = -1 := by simp [new.cache, Cache.empty]
  refine ⟨fun slot => .inl (free slot), fun slot full => ?_, ?_, ?_, by simp, ?_,
    fun key => ?_, by simp⟩
  · rw [free slot] at full
    cases full
  · simp [flushing, Code.clearing, List.filterMap_cons]
  · simp [Code.Home]
  · simp [Code.Fits]
  · simp [amounts, Env.held, Cache.cached, free, new.inserted, Code.owes]

/-- **Every rank keeps the invariant** in every run in which no flush is disturbed. -/
theorem kept_of_reachable (new : ∀ r, (start r).New)
    (h : (comm cfg env.program start fun r => .user (main r)).ReachableBy env.Undisturbed c)
    (r : Fin n) :
    Kept env (c.rank r).running (c.rank r).waiting (c.rank r).mem (c.rank r).started := by
  refine h.invariant (I := fun c => ∀ r, Kept env (c.rank r).running (c.rank r).waiting
    (c.rank r).mem (c.rank r).started) (fun r => ?_) ?_ r
  · have begins : Kept env _ _ _ 0 := Kept.init (new r) (main r)
    simpa [comm, Rank.init, Rank.running, Rank.waiting, Rank.codes, Rank.started, Rank.handed]
      using begins
  · intro c a d before inv allowed taken i
    rcases Sys.step_cases taken with
      ⟨r, flag, t, sent, rfl, move, rfl⟩ | ⟨r, src, t, stream, -, receive, rfl⟩
    · by_cases hi : i = r
      · subst hi
        simp only [Function.update_self]
        exact (inv i).acts allowed
          (fun k pc => ((inTurn_of_reachable before.reachable).entered i k pc).2.imp
            fun _ => And.right)
          (move.acts ((Sys.routed_of_reachable before.reachable).rank i))
      · simpa [hi] using inv i
    · obtain ⟨listener, queue, eq⟩ := receive.frame i
      simp only [eq]
      exact inv i

end Runs

/-! ## The map -/

theorem sizeT_add (x y : ℤ) : sizeT ((sizeT x : ℤ) + y) = sizeT (x + y) := by
  simp only [sizeT]
  omega

/-- The amount that the flushes executed on a rank have added to the count of a key. -/
def visitSum (executed : List (Exec n (Payload K U))) (key : K) : ℤ :=
  (executed.map fun e => e.rpc.payload.amount key).sum

/-- Whether a call is a flush of this key. -/
def Payload.visits (key : K) : Payload K U → Bool
  | .visit key' _ => decide (key' = key)
  | _ => false

/-- Whether a flush of this key has been executed on the rank. -/
def visitsKey (executed : List (Exec n (Payload K U))) (key : K) : Bool :=
  executed.any fun e => e.rpc.payload.visits key

/-- **The map of a rank holds the amounts that the flushes executed there have added**, as
`size_t` values. -/
def Visited (executed : List (Exec n (Payload K U))) (mem : Mem K τ) : Prop :=
  mem.map.defaultValue = 0 ∧ ∀ key, mem.map.localGet key =
    if visitsKey executed key then [sizeT (visitSum executed key)] else []

/-- The code that handles a flush is run for a call with this flush, and other code is run for
no flush. -/
def Code.Serves (cause : Option (Rpc n (Payload K U))) : Code n K τ U → Prop
  | .visit key toAdd => ∃ m ∈ cause, m.payload = .visit key toAdd
  | _ => ∀ m ∈ cause, ∀ key toAdd, m.payload ≠ .visit key toAdd

section Map

variable {env : Env n K τ U}

theorem visitSum_eq_zero {executed : List (Exec n (Payload K U))} {key : K}
    (none : visitsKey executed key = false) : visitSum executed key = 0 := by
  refine List.sum_eq_zero fun x hx => ?_
  obtain ⟨e, he, rfl⟩ := List.mem_map.mp hx
  have other := List.any_eq_false.mp none e he
  cases payload : e.rpc.payload with
  | visit key' toAdd =>
      have apart : key' ≠ key := by simpa [payload, Payload.visits] using other
      simp [Payload.amount, apart]
  | _ => rfl

@[simp] theorem visitSum_append (executed : List (Exec n (Payload K U)))
    (e : Exec n (Payload K U)) (key : K) :
    visitSum (executed ++ [e]) key = visitSum executed key + e.rpc.payload.amount key := by
  simp [visitSum]

@[simp] theorem visitsKey_append (executed : List (Exec n (Payload K U)))
    (e : Exec n (Payload K U)) (key : K) :
    visitsKey (executed ++ [e]) key = (visitsKey executed key || e.rpc.payload.visits key) := by
  simp [visitsKey]

theorem Visited.ret {executed : List (Exec n (Payload K U))} {mem mem' : Mem K τ}
    (h : Visited executed mem) (map : mem'.map = mem.map) {e : Exec n (Payload K U)}
    (other : ∀ key toAdd, e.rpc.payload ≠ .visit key toAdd) :
    Visited (executed ++ [e]) mem' := by
  have none : ∀ key, e.rpc.payload.visits key = false ∧ e.rpc.payload.amount key = 0 := by
    intro key
    cases payload : e.rpc.payload with
    | visit key toAdd => exact absurd payload (other key toAdd)
    | _ => exact ⟨rfl, rfl⟩
  refine ⟨by rw [map, h.1], fun key => ?_⟩
  rw [map, h.2 key]
  simp [none]

theorem Visited.visit {executed : List (Exec n (Payload K U))} {mem : Mem K τ}
    (h : Visited executed mem) {e : Exec n (Payload K U)} {key : K} {toAdd : ℤ}
    (payload : e.rpc.payload = .visit key toAdd) :
    Visited (executed ++ [e]) (mem.visited key toAdd) := by
  refine ⟨by simp [Mem.visited, MapImpl.localVisit, h.1], fun key' => ?_⟩
  have old := h.2 key'
  simp only [MapImpl.localGet] at old ⊢
  by_cases same : key = key'
  · subst same
    cases seen : visitsKey executed key with
    | true =>
        simp [Mem.visited, MapImpl.ensure_get, old, seen, payload, Payload.visits, Payload.amount,
          sizeT_add]
    | false =>
        have zero := visitSum_eq_zero seen
        simp [Mem.visited, MapImpl.ensure_get, old, seen, payload, Payload.visits, Payload.amount,
          zero, h.1]
  · simp [Mem.visited, MapImpl.ensure_get, old, payload, Payload.visits, Payload.amount, same]

variable [Inhabited K]

/-- The outline in which flushes are handled by the code of their handler, and by no other code. -/
def Env.serving (env : Env n K τ U) : Outline env.program where
  code := Code.Serves
  call _ _ := True
  start m _ := by
    cases payload : m.payload <;> simp [program, Code.Serves, payload]
  next cause k mem serves := by
    have main : ∀ m ∈ (none : Option (Rpc n (Payload K U))), ∀ key toAdd,
        m.payload ≠ .visit key toAdd := by simp
    cases k with
    | user u =>
        simp only [program, Call.command]
        split <;> first | trivial | exact serves | exact ⟨trivial, serves⟩ | exact fun _ => main |
          exact fun _ _ => main
    | insert key u =>
        simp only [program, cacheInsert]
        repeat' split
        all_goals exact serves
    | check slot key u =>
        simp only [program]
        split <;> exact serves
    | clear slot a => cases a <;> exact serves
    | flushAll i again q =>
        simp only [program]
        split
        · exact serves
        · cases again <;> exact serves
    | enter q => exact fun _ => main
    | read q => cases q <;> first | exact serves | exact fun _ _ => main
    | fetching preturn keys k => cases keys <;> first | exact fun _ => main | exact ⟨trivial, serves⟩
    | flush slot a => exact ⟨trivial, serves⟩
    | fetch src key pcont => exact ⟨trivial, serves⟩
    | visit | fetched | returner => trivial
    | _ => exact serves

/-- **Every map holds the amounts of the flushes executed on its rank**, in every reachable
state. -/
theorem visited_of_reachable {cfg : Config} {start : Fin n → Mem K τ} {main : Fin n → U}
    {c : CountSys n K τ U} (new : ∀ r, (start r).New)
    (h : (comm cfg env.program start fun r => .user (main r)).Reachable c) (r : Fin n) :
    Visited (c.rank r).executed (c.rank r).mem := by
  have begins : ∀ r, env.serving.code none (.user (main r)) := fun r => by
    simp [Env.serving, Code.Serves]
  refine env.serving.memory (I := fun _ => Visited) ⟨?_, ?_⟩ begins (fun r => ?_) h r
  · intro r done mem cause k mem' k' visited serves cmd
    have same : mem'.map = mem.map := by
      cases k with
      | user u =>
          simp only [Env.program, Call.command] at cmd
          split at cmd <;> cases cmd <;> rfl
      | insert key u =>
          simp only [Env.program, Env.cacheInsert] at cmd
          repeat' split at cmd
          all_goals
            cases cmd
            rfl
      | check slot key u =>
          simp only [Env.program] at cmd
          split at cmd <;> cases cmd <;> rfl
      | flushAll i again q =>
          simp only [Env.program] at cmd
          split at cmd <;> cases cmd <;> rfl
      | read q => cases q <;> cases cmd <;> rfl
      | fetching preturn keys k => cases keys <;> cases cmd
      | _ => cases cmd <;> rfl
    exact ⟨by rw [same, visited.1], fun key => by rw [same, visited.2 key]⟩
  · rintro r done mem m k mem' e visited serves dest cmd rfl src
    cases k with
    | visit key toAdd =>
        obtain ⟨_, same, payload⟩ := serves
        cases same
        cases cmd
        exact visited.visit payload
    | user u =>
        simp only [Env.program, Call.command] at cmd
        split at cmd <;> cases cmd
        exact visited.ret rfl (serves _ rfl)
    | fetched | returner =>
        cases cmd
        exact visited.ret rfl (serves _ rfl)
    | insert key u =>
        simp only [Env.program, Env.cacheInsert] at cmd
        repeat' split at cmd
        all_goals cases cmd
    | check slot key u =>
        simp only [Env.program] at cmd
        split at cmd <;> cases cmd
    | flushAll i again q =>
        simp only [Env.program] at cmd
        split at cmd <;> cases cmd
    | read q => cases q <;> cases cmd
    | fetching preturn keys k => cases keys <;> cases cmd
    | _ => cases cmd
  · simp [Visited, (new r).map, visitsKey, MapImpl.localGet]

end Map

/-! ## All ranks -/

section Total

variable [Inhabited K] {env : Env n K τ U} {cfg : Config}
variable {start : Fin n → Mem K τ} {main : Fin n → U} {c : CountSys n K τ U}

/-- Code that is inside no call on the counting set. -/
def Code.Outside : Code n K τ U → Prop
  | .user _ | .visit .. | .fetch .. | .fetched .. | .returner .. => True
  | _ => False

instance : ∀ code : Code n K τ U, Decidable code.Outside
  | .user _ | .visit .. | .fetch .. | .fetched .. | .returner .. =>
      inferInstanceAs (Decidable True)
  | .insert .. | .fill .. | .check .. | .done .. | .flush .. | .clear .. | .flushAll ..
  | .enter _ | .read _ | .fetching .. | .gathered .. => inferInstanceAs (Decidable False)

/-- The number of calls `async_insert(key)` that have returned, on all ranks. -/
def insertions (c : CountSys n K τ U) (key : K) : ℕ :=
  ∑ r, (c.rank r).mem.inserted.count key

/-- The sum of the counts that the caches of all ranks hold of a key. -/
def cachedCounts (env : Env n K τ U) (c : CountSys n K τ U) (key : K) : ℤ :=
  ∑ r, (c.rank r).mem.cache.cached (env.slot key) key

/-- The sum of the values that all parts of the map hold of a key. -/
def storedCounts (c : CountSys n K τ U) (key : K) : ℕ :=
  ∑ r, ((c.rank r).mem.map.localGet key).sum

omit [Inhabited K] in
theorem amounts_add (calls calls' : Multiset (Rpc n (Payload K U))) (key : K) :
    amounts (calls + calls') key = amounts calls key + amounts calls' key := by
  simp [amounts]

omit [Inhabited K] in
theorem amounts_sum (calls : Fin n → Multiset (Rpc n (Payload K U))) (key : K) :
    amounts (∑ r, calls r) key = ∑ r, amounts (calls r) key :=
  map_sum (Multiset.sumAddMonoidHom.comp
    (Multiset.mapAddMonoidHom fun m : Rpc n (Payload K U) => m.payload.amount key)) calls _

omit [Inhabited K] in
theorem amounts_nonneg {calls : Multiset (Rpc n (Payload K U))} {key : K}
    (positive : ∀ m ∈ calls, ∀ key toAdd, m.payload = .visit key toAdd → 0 < toAdd) :
    0 ≤ amounts calls key := by
  refine Multiset.sum_nonneg fun x hx => ?_
  obtain ⟨m, hm, rfl⟩ := Multiset.mem_map.mp hx
  cases payload : m.payload with
  | visit key' toAdd =>
      have := positive m hm key' toAdd payload
      simp only [Payload.amount]
      split <;> omega
  | _ => exact le_rfl

omit [LinearOrder K] [Inhabited K] in
theorem Code.Outside.plain {code : Code n K τ U} (outside : code.Outside) : code.Plain := by
  cases code <;> trivial

omit [LinearOrder K] [Inhabited K] in
theorem flushing_plain {codes : List (Code n K τ U)} (plain : ∀ code ∈ codes, code.Plain) :
    flushing codes = [] :=
  List.filterMap_eq_nil_iff.mpr fun code hcode => (plain code hcode).clearing

omit [Inhabited K] in
theorem owes_plain {codes : List (Code n K τ U)} (plain : ∀ code ∈ codes, code.Plain)
    (key : K) : (codes.map (Code.owes key)).sum = 0 := by
  refine List.sum_eq_zero fun x hx => ?_
  obtain ⟨code, hcode, rfl⟩ := List.mem_map.mp hx
  exact (plain code hcode).owes key

omit [Inhabited K] in
theorem amounts_done (s : CountRank n K τ U) (key : K) :
    amounts s.done key = visitSum s.executed key := by
  simp [amounts, Rank.done, visitSum, Function.comp_def]

/-- The flushes started on all ranks add to the count of a key what the executed ones have added
and the pending ones will add. -/
theorem started_amounts
    (h : (comm cfg env.program start fun r => .user (main r)).Reachable c) (key : K) :
    ∑ r, amounts (c.rank r).started key
      = ∑ r, visitSum (c.rank r).executed key + amounts c.pending key := by
  have total := congrArg (fun calls => amounts calls key) (Sys.started_eq h)
  simpa only [amounts_sum, amounts_add, Sys.executed, amounts_done] using total

/-- **Counts are conserved**, with the amounts of the executed flushes in place of the bounded
values of the map. -/
theorem conserved (new : ∀ r, (start r).New)
    (h : (comm cfg env.program start fun r => .user (main r)).ReachableBy env.Undisturbed c)
    (plain : ∀ r, ∀ code ∈ (c.rank r).codes, code.Plain) (key : K) :
    cachedCounts env c key + amounts c.pending key
      + ∑ r, visitSum (c.rank r).executed key = insertions c key := by
  have ranks : ∀ r, amounts (c.rank r).started key
      + (c.rank r).mem.cache.cached (env.slot key) key
        = ((c.rank r).mem.inserted.count key : ℤ) := by
    intro r
    have balance := (kept_of_reachable new h r).balance key
    rw [← Rank.codes_eq, flushing_plain (plain r), owes_plain (plain r)] at balance
    simpa [Env.held] using balance
  have total := started_amounts h.reachable key
  have all : ∑ r, (amounts (c.rank r).started key
      + (c.rank r).mem.cache.cached (env.slot key) key) = (insertions c key : ℤ) := by
    rw [insertions, Nat.cast_sum]
    exact Finset.sum_congr rfl fun r _ => ranks r
  rw [Finset.sum_add_distrib, total] at all
  rw [← all, cachedCounts]
  abel

/-- Every flush of a key adds a positive amount, and is sent to the owner of the key. -/
theorem positive_of_reachable (new : ∀ r, (start r).New)
    (h : (comm cfg env.program start fun r => .user (main r)).ReachableBy env.Undisturbed c)
    {m : Rpc n (Payload K U)} (hm : m ∈ c.executed + c.pending) {key : K} {toAdd : ℤ}
    (payload : m.payload = .visit key toAdd) :
    0 < toAdd ∧ m.dest = env.partitioner.owner key := by
  rw [← Sys.started_eq h.reachable] at hm
  obtain ⟨r, -, hr⟩ := Multiset.mem_sum.mp hm
  exact (kept_of_reachable new h r).positive m hr key toAdd payload

theorem visitSum_nonneg (new : ∀ r, (start r).New)
    (h : (comm cfg env.program start fun r => .user (main r)).ReachableBy env.Undisturbed c)
    (key : K) (r : Fin n) : 0 ≤ visitSum (c.rank r).executed key := by
  rw [← amounts_done]
  refine amounts_nonneg fun m hm key toAdd payload => ?_
  refine (positive_of_reachable new h (Multiset.mem_add.mpr (.inl ?_)) payload).1
  exact Multiset.mem_sum.mpr ⟨r, Finset.mem_univ r, hm⟩

/-- **`counting_set` conserves counts**, in runs in which no code starts to work on a slot that
is being flushed: the counts in the caches, in the calls under way and in the map add up to the
number of the inserts that have returned. -/
theorem counts_conserved (new : ∀ r, (start r).New)
    (h : (comm cfg env.program start fun r => .user (main r)).ReachableBy env.Undisturbed c)
    (outside : ∀ r, ∀ code ∈ (c.rank r).codes, code.Outside) (key : K)
    (few : insertions c key < 2 ^ 64) :
    cachedCounts env c key + amounts c.pending key + storedCounts c key = insertions c key := by
  have total := conserved new h (fun r code hcode => (outside r code hcode).plain) key
  have visits := visitSum_nonneg new h key
  have pending : 0 ≤ amounts c.pending key := amounts_nonneg fun m hm key toAdd payload =>
    (positive_of_reachable new h (Multiset.mem_add.mpr (.inr hm)) payload).1
  have cached : 0 ≤ cachedCounts env c key := by
    refine Finset.sum_nonneg fun r _ => ?_
    simp only [Cache.cached]
    have slots := (kept_of_reachable new h r).slots (env.slot key)
    split <;> omega
  -- no part of the map has wrapped around
  have stored : ∀ r, (((c.rank r).mem.map.localGet key).sum : ℤ)
      = visitSum (c.rank r).executed key := by
    intro r
    have one : visitSum (c.rank r).executed key ≤ ∑ r, visitSum (c.rank r).executed key :=
      Finset.single_le_sum (f := fun r => visitSum (c.rank r).executed key)
        (fun i _ => visits i) (Finset.mem_univ r)
    have low := visits r
    rw [(visited_of_reachable new h.reachable r).2 key]
    cases seen : visitsKey (c.rank r).executed key with
    | true =>
        simp only [if_true, List.sum_singleton, sizeT]
        omega
    | false => simp [visitSum_eq_zero seen]
  rw [← total, storedCounts, Nat.cast_sum]
  simp only [stored]

end Total

/-! ## A handler that inserts -/

/-- A program in which rank 0 inserts two keys of one slot, and rank 1 calls a handler on rank 0
that inserts `key`. -/
def nestedCalls (key u : ℕ) (_ : Mem ℕ Unit) : Call 2 ℕ Unit ℕ :=
  match u with
  | 0 => .insert 1 1
  | 1 => .insert (1 + countCacheSize) 2
  | 10 => .async 0 20 11
  | 11 => .asyncFlush 0 12
  | 20 => .insert key 21
  | _ => .ret ()

theorem nestedEnv_offset (_ : Payload ℕ ℕ) : 8 ≤ 8 :=
  le_rfl

def nestedEnv (key : ℕ) : Env 2 ℕ Unit ℕ where
  partitioner := hashPartitioner 2 UInt64.ofNat
  hash := UInt64.ofNat
  next := nestedCalls key
  start _ u := u
  packedSize _ := 8
  offset_le := nestedEnv_offset

def emptyMem (_ : Fin 2) : Mem ℕ Unit where
  cache := .empty
  map := ⟨0, .empty⟩
  output _ := .empty
  sptrs := 0
  files _ := none
  user := ()
  inserted := []

theorem emptyMem_new (r : Fin 2) : (emptyMem r).New :=
  ⟨rfl, rfl, rfl⟩

def nestedComm (key : ℕ) : Machine (CountSys 2 ℕ Unit ℕ) (Action 2) :=
  comm ⟨16, false⟩ (nestedEnv key).program emptyMem fun r => .user (10 * r)

/-- A schedule in which the flush of key 1 by rank 0 runs this handler, and all calls on the set
return. -/
def nestedSteps : List (Action 2) :=
  mains 1 8 ++ [.listen 0 1] ++ mains 0 30

/-- The final state of the run in which the handler inserts into another slot. -/
def nestedApart : CountSys 2 ℕ Unit ℕ :=
  (nestedComm 2).drive (nestedEnv 2).Undisturbed (nestedComm 2).init nestedSteps

/-- In this state, the count of key 1 is in the call of the flush, and is conserved. -/
theorem counts_conserved_nested :
    insertions nestedApart 1 = 1 ∧ amounts nestedApart.pending 1 = 1 ∧
      cachedCounts (nestedEnv 2) nestedApart 1 + amounts nestedApart.pending 1
        + storedCounts nestedApart 1 = insertions nestedApart 1 :=
  ⟨by decide +kernel, by decide +kernel,
    counts_conserved emptyMem_new (Machine.ReachableBy.init.drive _) (by decide +kernel) 1
      (by decide +kernel)⟩

/-- The final state of the run in which the handler inserts the key that is being flushed. -/
def nestedSame : CountSys 2 ℕ Unit ℕ :=
  (nestedComm 1).drive (fun _ _ => True) (nestedComm 1).init nestedSteps

/-- **An insertion into a slot that is being flushed is lost**: two calls for key 1 have
returned, and one count is left. -/
theorem insert_lost :
    (nestedComm 1).Reachable nestedSame ∧
      (∀ r, ∀ code ∈ (nestedSame.rank r).codes, code.Outside) ∧
      insertions nestedSame 1 = 2 ∧
      cachedCounts (nestedEnv 1) nestedSame 1 + amounts nestedSame.pending 1
        + storedCounts nestedSame 1 = 1 :=
  ⟨Machine.ReachableBy.init.drive _, by decide +kernel, by decide +kernel, by decide +kernel⟩

end YGM.Counting
