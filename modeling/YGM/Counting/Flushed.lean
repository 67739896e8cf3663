import Mathlib.Algebra.Order.Group.Int
import YGM.Comm.Meeting
import YGM.Counting.Conservation

/-!
# What a query has flushed

A query flushes the slots of the cache one after the other and then enters its barrier.  A
handler that runs meanwhile can count again in a slot that the loop has passed; then the
query misses that count.  As long as this does not happen (`Env.Timely`), the slots passed
stay free (`Settled`), so the cache of a rank in the barrier of a query is empty.

When all ranks are at the end of that barrier nothing is pending, so all that was counted is
in the map (`stored_of_meeting`): on the owner of a key, and nowhere else.
-/

namespace YGM.Counting

variable {n : ℕ} {K τ U : Type} [LinearOrder K]

/-! ## The slots that are passed -/

namespace Code

/-- The slots that the last loop of a query has passed at this code point. -/
def Passed : Code n K τ U → ℕ → Prop
  | .flushAll i false _, slot => slot < i
  | .flush _ (.loop i false _), slot | .clear _ (.loop i false _), slot => slot + 1 < i
  | .enter _, _ | .read _, _ => True
  | _, _ => False

instance : ∀ (k : Code n K τ U) (slot : ℕ), Decidable (k.Passed slot)
  | .flushAll i false _, slot => inferInstanceAs (Decidable (slot < i))
  | .flush _ (.loop i false _), slot | .clear _ (.loop i false _), slot =>
      inferInstanceAs (Decidable (slot + 1 < i))
  | .enter _, _ | .read _, _ => inferInstanceAs (Decidable True)
  | .flushAll _ true _, _ | .flush _ (.loop _ true _), _ | .clear _ (.loop _ true _), _
  | .flush _ (.fill ..), _ | .clear _ (.fill ..), _ | .flush _ (.done ..), _
  | .clear _ (.done ..), _ | .user _, _ | .insert .., _ | .fill .., _ | .check .., _
  | .done .., _ | .fetching .., _ | .gathered .., _ | .visit .., _ | .fetch .., _
  | .fetched .., _ | .returner .., _ => inferInstanceAs (Decidable False)

/-- The slot that a `cache_insert` is about to fill once it has flushed the slot. -/
def fills : Code n K τ U → Option ℕ
  | .fill slot _ _ | .flush slot (.fill ..) | .clear slot (.fill ..) => some slot
  | _ => none

/-- The slot in which a `cache_insert` is about to start to count. -/
def counts (env : Env n K τ U) : Code n K τ U → Option ℕ
  | .insert key _ => some (env.slot key)
  | _ => none

/-- A loop goes on at the slot behind the one it flushes. -/
def Follows : Code n K τ U → Prop
  | .flush slot (.loop i _ _) | .clear slot (.loop i _ _) => i = slot + 1
  | _ => True

/-- Code that is in no loop of a query, and is about to fill no slot. -/
def Aside : Code n K τ U → Prop
  | .user _ | .insert .. | .check .. | .done .. | .fetching .. | .gathered .. | .visit ..
  | .fetch .. | .fetched .. | .returner .. => True
  | _ => False

section Aside

variable {k : Code n K τ U} (aside : k.Aside)
include aside

omit [LinearOrder K] in
theorem Aside.passed (slot : ℕ) : ¬ k.Passed slot := by
  cases k <;> first | exact aside.elim | exact id

omit [LinearOrder K] in
theorem Aside.fills : k.fills = none := by
  cases k <;> first | rfl | exact aside.elim

omit [LinearOrder K] in
theorem Aside.follows : k.Follows := by
  cases k <;> trivial

end Aside

end Code

/-- **No late insert**: no code counts in a slot that the query of its rank has passed. -/
def Env.Timely (env : Env n K τ U) (c : CountSys n K τ U) : Action n → Prop
  | .main r _ => ∀ slot ∈ (c.rank r).running.bind (Code.counts env),
      ¬ (c.rank r).code.Passed slot
  | .listen _ _ => True

instance (env : Env n K τ U) (c : CountSys n K τ U) : ∀ a, Decidable (env.Timely c a)
  | .main r _ => inferInstanceAs (Decidable
      (∀ slot ∈ (c.rank r).running.bind (Code.counts env), ¬ (c.rank r).code.Passed slot))
  | .listen _ _ => inferInstanceAs (Decidable True)

/-- **The slots that the query of a rank has passed are free**, and none of them will be filled
by an insertion that has started.  The last code point of the list is that of the main program. -/
structure Settled (cache : Cache K) (codes : List (Code n K τ U)) : Prop where
  free : ∀ main ∈ codes.getLast?, ∀ slot, main.Passed slot → (cache.slots slot).2 ≤ 0
  fills : ∀ main ∈ codes.getLast?, ∀ k ∈ codes, ∀ slot ∈ k.fills, ¬ main.Passed slot
  follows : ∀ k ∈ codes, k.Follows

section Settled

variable {env : Env n K τ U} {cache cache' : Cache K} {k k' : Code n K τ U}
variable {waiting : List (Code n K τ U)}

omit [LinearOrder K] in
theorem getLast_cons (waiting : List (Code n K τ U)) (k : Code n K τ U) :
    ∀ main ∈ (k :: waiting).getLast?, (waiting = [] ∧ main = k) ∨ main ∈ waiting.getLast? := by
  intro main hmain
  cases waiting with
  | nil => exact .inl ⟨rfl, by simpa using hmain.symm⟩
  | cons w ws => exact .inr (by simpa [List.getLast?_cons_cons] using hmain)

omit [LinearOrder K] in
theorem getLast_waiting {main : Code n K τ U} (h : main ∈ waiting.getLast?) (k : Code n K τ U) :
    main ∈ (k :: waiting).getLast? := by
  cases waiting with
  | nil => simp at h
  | cons w ws => simpa [List.getLast?_cons_cons] using h

omit [LinearOrder K] in
/-- Code that goes on to other code with another cache leaves the passed slots settled, if the
passed slots are free in the new cache and the new code fills none of them. -/
theorem Settled.go (h : Settled cache (k :: waiting))
    (passed : waiting = [] → ∀ slot, k'.Passed slot → (cache'.slots slot).2 ≤ 0)
    (kept : ∀ main ∈ waiting.getLast?, ∀ slot, main.Passed slot →
      (cache.slots slot).2 ≤ 0 → (cache'.slots slot).2 ≤ 0)
    (fills : ∀ slot ∈ k'.fills, ¬ k'.Passed slot ∧ ∀ main ∈ waiting.getLast?, ¬ main.Passed slot)
    (follows : k'.Follows) : Settled cache' (k' :: waiting) := by
  refine ⟨fun main hmain slot hslot => ?_, fun main hmain code hcode slot hslot => ?_,
    fun code hcode => ?_⟩
  · rcases getLast_cons _ _ main hmain with ⟨none, rfl⟩ | old
    · exact passed none slot hslot
    · exact kept main old slot hslot (h.free main (getLast_waiting old k) slot hslot)
  · rcases List.mem_cons.mp hcode with rfl | hcode
    · rcases getLast_cons _ _ main hmain with ⟨none, rfl⟩ | old
      · exact (fills slot hslot).1
      · exact (fills slot hslot).2 main old
    · rcases getLast_cons _ _ main hmain with ⟨rfl, -⟩ | old
      · simp at hcode
      · exact h.fills main (getLast_waiting old k) code (List.mem_cons_of_mem _ hcode) slot hslot
  · rcases List.mem_cons.mp hcode with rfl | hcode
    · exact follows
    · exact h.follows code (List.mem_cons_of_mem _ hcode)

omit [LinearOrder K] in
/-- Code that goes on aside in the same cache leaves the passed slots settled. -/
theorem Settled.aside (h : Settled cache (k :: waiting)) (aside : k'.Aside) :
    Settled cache (k' :: waiting) :=
  h.go (fun _ slot hslot => absurd hslot (aside.passed slot)) (fun _ _ _ _ => id)
    (by simp [aside.fills]) aside.follows

omit [LinearOrder K] in
/-- The start of a handler, whose code is aside, leaves the passed slots settled. -/
theorem Settled.start (h : Settled cache waiting) (some : waiting ≠ []) (aside : k.Aside) :
    Settled cache (k :: waiting) := by
  refine ⟨fun main hmain slot hslot => ?_, fun main hmain code hcode slot hslot => ?_,
    fun code hcode => ?_⟩
  · rcases getLast_cons _ _ main hmain with ⟨none, -⟩ | old
    · exact absurd none some
    · exact h.free main old slot hslot
  · rcases getLast_cons _ _ main hmain with ⟨none, -⟩ | old
    · exact absurd none some
    · rcases List.mem_cons.mp hcode with rfl | hcode
      · simp [aside.fills] at hslot
      · exact h.fills main old code hcode slot hslot
  · rcases List.mem_cons.mp hcode with rfl | hcode
    · exact aside.follows
    · exact h.follows code hcode

omit [LinearOrder K] in
/-- The return of a handler leaves the passed slots settled. -/
theorem Settled.ret (h : Settled cache (k :: waiting)) : Settled cache waiting :=
  ⟨fun main hmain => h.free main (getLast_waiting hmain k),
    fun main hmain code hcode => h.fills main (getLast_waiting hmain k) code
      (List.mem_cons_of_mem _ hcode),
    fun code hcode => h.follows code (List.mem_cons_of_mem _ hcode)⟩

omit [LinearOrder K] in
/-- A write to a slot that the main program has not passed leaves the passed slots settled. -/
theorem Settled.put (h : Settled cache (k :: waiting)) {slot : ℕ} (entry : K × ℤ)
    (open_ : ∀ main ∈ waiting.getLast?, ¬ main.Passed slot) (aside : k'.Aside) :
    Settled (cache.put slot entry) (k' :: waiting) := by
  refine h.go (fun _ slot hslot => absurd hslot (aside.passed slot))
    (fun main hmain slot' passed low => ?_) (by simp [aside.fills]) aside.follows
  have other : slot' ≠ slot := by
    rintro rfl
    exact open_ main hmain passed
  rwa [Cache.put_slots_of_ne _ _ other]

/-- The memory and the code to which a command of user code leads in its own activation. -/
def Goes (mem : Mem K τ) : Cmd n (Payload K U) (Mem K τ) ℕ (Code n K τ U) → Mem K τ →
    Code n K τ U → Prop
  | .ret _, _, _ => False
  | .update mem' k', m, k => m = mem' ∧ k = k'
  | .async _ _ k', m, k | .asyncFlush _ k', m, k | .asyncFlushAll k', m, k | .barrier k', m, k
  | .kill k', m, k => m = mem ∧ k = k'
  | .allReduce _ next, m, k => m = mem ∧ ∃ out, k = next out

section Next

variable [Inhabited K] {mem mem' : Mem K τ}

omit [Inhabited K] in
/-- `cache_insert` leaves the passed slots settled, if its slot is not one of them. -/
theorem Settled.insert {key : K} {u : U} (h : Settled mem.cache (.insert key u :: waiting))
    (timely : ∀ main ∈ waiting.getLast?, ¬ main.Passed (env.slot key))
    (goes : Goes mem (env.cacheInsert mem key u) mem' k') :
    Settled mem'.cache (k' :: waiting) := by
  simp only [Env.cacheInsert] at goes
  split at goes
  · obtain ⟨rfl, rfl⟩ := goes
    exact h.put _ timely trivial
  · split at goes
    · obtain ⟨rfl, rfl⟩ := goes
      exact h.put _ timely trivial
    · obtain ⟨rfl, rfl⟩ := goes
      refine h.go (fun _ _ hslot => hslot.elim) (fun _ _ _ _ => id) ?_ trivial
      rintro slot ⟨⟩
      exact ⟨id, timely⟩

/-- The end of a flush, which clears its slot, leaves the passed slots settled. -/
theorem Settled.clear {slot : ℕ} {a : After K τ U}
    (h : Settled mem.cache (.clear slot a :: waiting)) :
    Settled (mem.cache.put slot (default, -1)) (a.code slot :: waiting) := by
  have cleared : ∀ slot', (mem.cache.slots slot').2 ≤ 0 →
      ((mem.cache.put slot (default, -1)).slots slot').2 ≤ 0 := by
    intro slot' low
    by_cases here : slot' = slot
    · simp [here]
    · rwa [Cache.put_slots_of_ne _ _ here]
  have last : waiting = [] → Code.clear slot a ∈ (Code.clear slot a :: waiting).getLast? := by
    rintro rfl
    rfl
  refine h.go (fun none slot' hslot => ?_) (fun _ _ slot' _ => cleared slot') ?_ ?_
  · cases a with
    | loop i again q =>
        cases again with
        | true => exact hslot.elim
        | false =>
            have follows : i = slot + 1 := h.follows _ (List.mem_cons_self ..)
            have below : slot' < i := hslot
            by_cases here : slot' = slot
            · simp [here]
            · refine cleared slot' (h.free _ (last none) slot' ?_)
              change slot' + 1 < i
              omega
    | _ => exact hslot.elim
  · intro slot' hslot
    cases a with
    | fill key u =>
        cases hslot
        exact ⟨id, fun main hmain =>
          h.fills main (getLast_waiting hmain _) _ (List.mem_cons_self ..) slot rfl⟩
    | _ => cases hslot
  · cases a <;> trivial

/-- The loop of `count_cache_flush_all` leaves the passed slots settled, as it passes only free
slots and flushes the others. -/
theorem Settled.flushAll {i : ℕ} {again : Bool} {q : Query K τ U}
    (h : Settled mem.cache (.flushAll i again q :: waiting))
    (goes : Goes mem (env.program.next (.flushAll i again q) mem) mem' k') :
    Settled mem'.cache (k' :: waiting) := by
  have last : waiting = [] →
      Code.flushAll i again q ∈ (Code.flushAll i again q :: waiting).getLast? := by
    rintro rfl
    rfl
  simp only [Env.program] at goes
  split at goes
  case h_1 slot found =>
    obtain ⟨-, -, between⟩ := Cache.next_some found
    obtain ⟨rfl, rfl⟩ := goes
    refine h.go (fun none slot' hslot => ?_) (fun _ _ _ _ => id) (by simp [Code.fills]) rfl
    cases again with
    | true => exact hslot.elim
    | false =>
        have below : slot' + 1 < slot + 1 := hslot
        by_cases old : slot' < i
        · exact h.free _ (last none) slot' old
        · exact between slot' (not_lt.mp old) (by omega)
  case h_2 found =>
    obtain ⟨rfl, rfl⟩ := goes
    cases again with
    | true =>
        exact h.go (fun _ _ hslot => absurd hslot (Nat.not_lt_zero _)) (fun _ _ _ _ => id)
          (by simp [Code.fills]) trivial
    | false =>
        refine h.go (fun none slot' _ => ?_) (fun _ _ _ _ => id) (by simp [Code.fills]) trivial
        by_cases old : slot' < i
        · exact h.free _ (last none) slot' old
        · exact Cache.next_none found (not_lt.mp old)

/-- **A command of user code leaves the passed slots settled**, if it does not count in one of
them. -/
theorem Settled.next (h : Settled mem.cache (k :: waiting))
    (timely : ∀ slot ∈ k.counts env, ∀ main ∈ waiting.getLast?, ¬ main.Passed slot)
    (goes : Goes mem (env.program.next k mem) mem' k') :
    Settled mem'.cache (k' :: waiting) := by
  cases k with
  | user u =>
      simp only [Env.program, Call.command] at goes
      split at goes
      case h_1 => exact goes.elim
      case h_9 =>
        obtain ⟨rfl, rfl⟩ := goes
        refine h.go (fun _ slot hslot => ?_) (fun _ _ _ _ => id) (by simp [Code.fills]) trivial
        split at hslot
        · exact hslot.elim
        · exact absurd hslot (Nat.not_lt_zero slot)
      case h_7 =>
        obtain ⟨rfl, _, rfl⟩ := goes
        exact h.aside trivial
      all_goals
        obtain ⟨rfl, rfl⟩ := goes
        exact h.aside trivial
  | insert key u => exact h.insert (timely _ rfl) goes
  | fill slot key u =>
      obtain ⟨rfl, rfl⟩ := goes
      exact h.put _ (fun main hmain => h.fills main (getLast_waiting hmain _) _
        (List.mem_cons_self ..) slot rfl) trivial
  | check slot key u =>
      simp only [Env.program] at goes
      split at goes <;> obtain ⟨rfl, rfl⟩ := goes
      · exact h.go (fun _ _ hslot => hslot.elim) (fun _ _ _ _ => id) (by simp [Code.fills]) trivial
      · exact h.aside trivial
  | flush slot a =>
      obtain ⟨rfl, rfl⟩ := goes
      have last : waiting = [] → Code.flush slot a ∈ (Code.flush slot a :: waiting).getLast? := by
        rintro rfl
        rfl
      have follows := h.follows _ (List.mem_cons_self ..)
      refine h.go (fun none slot' hslot => h.free _ (last none) slot' ?_) (fun _ _ _ _ => id) ?_ ?_
      · cases a with
        | loop i again q => cases again <;> exact hslot
        | _ => exact hslot.elim
      · intro slot' hslot
        cases a with
        | fill key u =>
            exact ⟨id, fun main hmain =>
              h.fills main (getLast_waiting hmain _) _ (List.mem_cons_self ..) slot' hslot⟩
        | _ => cases hslot
      · cases a <;> exact follows
  | clear slot a =>
      obtain ⟨rfl, rfl⟩ := goes
      exact h.clear
  | flushAll i again q => exact h.flushAll goes
  | enter q =>
      obtain ⟨rfl, rfl⟩ := goes
      refine h.go (fun none slot _ => ?_) (fun _ _ _ _ => id) (by simp [Code.fills]) trivial
      exact h.free (.enter q) (by rw [none]; rfl) slot trivial
  | read q =>
      cases q <;> simp only [Env.program, Query.answer] at goes
      case count | countAll | size =>
        obtain ⟨rfl, _, rfl⟩ := goes
        exact h.aside trivial
      all_goals
        obtain ⟨rfl, rfl⟩ := goes
        exact h.aside trivial
  | fetching preturn keys k =>
      cases keys <;> obtain ⟨rfl, rfl⟩ := goes <;> exact h.aside trivial
  | visit | fetched | returner => exact goes.elim
  | done | gathered | fetch =>
      obtain ⟨rfl, rfl⟩ := goes
      exact h.aside trivial

/-- **A move of a rank leaves the passed slots settled**, if the running code does not count in
one of them. -/
theorem Settled.acts {r : Fin n} {s t : CountRank n K τ U} (h : Settled s.mem.cache s.codes)
    (timely : ∀ slot ∈ s.running.bind (Code.counts env), ¬ s.code.Passed slot)
    (inside : ∀ k, s.pc = .reduce k → ∃ value, env.program.next s.code s.mem = .allReduce value k)
    (acts : Acts env.program r s t) : Settled t.mem.cache t.codes := by
  have main : ∀ {k}, s.running = some k → ∀ main ∈ s.waiting.getLast?, main = s.code := by
    intro k running main hmain
    have old : main ∈ s.codes.getLast? := by
      rw [s.codes_eq, running]
      exact getLast_waiting hmain k
    simpa [Rank.codes] using old.symm
  have late : ∀ {k}, s.running = some k →
      ∀ slot ∈ k.counts env, ∀ main ∈ s.waiting.getLast?, ¬ main.Passed slot := by
    intro k running slot hslot code hcode
    rw [main running code hcode]
    exact timely slot (by simpa [running] using hslot)
  have codes : ∀ {k}, s.running = some k → Settled s.mem.cache (k :: s.waiting) := by
    intro k running
    rw [s.codes_eq, running] at h
    exact h
  have started : ∀ (src : Fin n) (payload : Payload K U),
      (env.program.handler src payload).Aside := by
    intro src payload
    cases payload <;> trivial
  cases acts with
  | quiet idle codes' mem =>
      rw [codes', mem]
      exact h
  | start m idle received codes' running mem =>
      rw [codes', mem]
      exact h.start (by simp [Rank.codes]) (started _ _)
  | reduced value k pc idle before codes' running mem =>
      obtain ⟨_, cmd⟩ := inside k pc
      rw [codes', mem]
      rw [before] at h
      exact h.next (by simp) (by rw [cmd]; exact ⟨rfl, value, rfl⟩)
  | ret k running cmd codes' =>
      rw [codes', (env.plain_of_ret cmd).2.1]
      exact (codes running).ret
  | update k k' running cmd codes' =>
      rw [codes']
      exact (codes running).next (late running) (by rw [cmd]; exact ⟨rfl, rfl⟩)
  | remote k k' m running src cmd codes' idle mem =>
      rw [codes', mem]
      exact (codes running).next (late running) (by rw [cmd]; exact ⟨rfl, rfl⟩)
  | self k k' m running src dest cmd codes' after mem =>
      rw [codes', mem]
      exact ((codes running).next (late running) (by rw [cmd]; exact ⟨rfl, rfl⟩)).start
        (by simp) (started _ _)
  | leave k k' running cmd codes' idle mem =>
      rw [codes', mem]
      refine (codes running).next (late running) ?_
      rcases cmd with ⟨dest, cmd⟩ | cmd | cmd | cmd <;> rw [cmd] <;> exact ⟨rfl, rfl⟩
  | reduce value k running cmd pc before codes' idle mem =>
      rw [codes', mem]
      exact h

end Next

end Settled

/-! ## Runs -/

section Runs

variable [Inhabited K] {env : Env n K τ U} {cfg : Config}
variable {start : Fin n → Mem K τ} {main : Fin n → U} {c : CountSys n K τ U}

/-- **On every rank the passed slots are settled**, in every run in which no insert is late. -/
theorem settled_of_reachable
    (h : (comm cfg env.program start fun r => .user (main r)).ReachableBy env.Timely c)
    (r : Fin n) : Settled (c.rank r).mem.cache (c.rank r).codes := by
  refine h.invariant (I := fun c => ∀ r, Settled (c.rank r).mem.cache (c.rank r).codes)
    (fun r => ?_) ?_ r
  · refine ⟨?_, ?_, ?_⟩ <;> simp [comm, Rank.init, Rank.codes, Code.Passed, Code.fills, Code.Follows]
  · intro c a d before inv allowed taken i
    rcases Sys.step_cases taken with
      ⟨r, flag, t, sent, rfl, move, rfl⟩ | ⟨r, src, t, stream, -, receive, rfl⟩
    · by_cases hi : i = r
      · subst hi
        simp only [Function.update_self]
        exact (inv i).acts allowed
          (fun k pc => ((inTurn_of_reachable before.reachable).entered i k pc).2.imp
            fun _ => And.right)
          (move.acts ((Sys.routed_of_reachable before.reachable).rank i))
      · simpa [hi] using inv i
    · obtain ⟨listener, queue, eq⟩ := receive.frame i
      simp only [eq]
      exact inv i

/-- A flush executed on a rank is for a key that the rank owns, and adds a positive amount. -/
theorem owner_of_visits (new : ∀ r, (start r).New)
    (h : (comm cfg env.program start fun r => .user (main r)).ReachableBy env.Undisturbed c)
    {r : Fin n} {key : K} (visits : visitsKey (c.rank r).executed key = true) :
    env.partitioner.owner key = r ∧ 0 < visitSum (c.rank r).executed key := by
  have routed := ((Sys.routed_of_reachable h.reachable).rank r).executed
  have done : ∀ e ∈ (c.rank r).executed, ∀ key toAdd, e.rpc.payload = .visit key toAdd →
      0 < toAdd ∧ e.rpc.dest = env.partitioner.owner key := by
    intro e he key toAdd payload
    refine positive_of_reachable new h (Multiset.mem_add.mpr (.inl ?_)) payload
    exact Multiset.mem_sum.mpr ⟨r, Finset.mem_univ r, List.mem_map_of_mem he⟩
  obtain ⟨e, he, here⟩ := List.any_eq_true.mp visits
  cases payload : e.rpc.payload with
  | visit key' toAdd =>
      have same : key' = key := by simpa [payload, Payload.visits] using here
      subst same
      obtain ⟨positive, dest⟩ := done e he key' toAdd payload
      refine ⟨dest.symm.trans (routed e he).2, ?_⟩
      refine (show 0 < e.rpc.payload.amount key' by simpa [payload, Payload.amount]).trans_le ?_
      refine List.single_le_sum (fun x hx => ?_) _ (List.mem_map_of_mem he)
      obtain ⟨e', he', rfl⟩ := List.mem_map.mp hx
      cases payload' : e'.rpc.payload with
      | visit key toAdd =>
          have := (done e' he' key toAdd payload').1
          simp only [Payload.amount]
          split <;> omega
      | _ => exact le_rfl
  | _ => simp [payload, Payload.visits] at here

/-- **When all ranks are at the end of the barrier of a query**, the owner of each key stores
the number of its inserts, and no other rank stores the key. -/
theorem stored_of_meeting (new : ∀ r, (start r).New) {e : ℕ} (meeting : Meeting c e)
    (undisturbed : (comm cfg env.program start fun r => .user (main r)).ReachableBy
      env.Undisturbed c)
    (timely : (comm cfg env.program start fun r => .user (main r)).ReachableBy env.Timely c)
    (queries : ∀ r, ∃ q, (c.rank r).code = .read q) (r : Fin n) (key : K) :
    (c.rank r).mem.map.localGet key
      = if env.partitioner.owner key = r ∧ 0 < insertions c key then [sizeT (insertions c key)]
        else [] := by
  have codes : ∀ r, ∃ q, (c.rank r).codes = [.read q] := by
    intro r
    obtain ⟨q, code⟩ := queries r
    exact ⟨q, by simp [Rank.codes, meeting.stack r, code]⟩
  have plain : ∀ r, ∀ code ∈ (c.rank r).codes, code.Plain := by
    intro r code hcode
    obtain ⟨q, only⟩ := codes r
    rw [only, List.mem_singleton] at hcode
    rw [hcode]
    trivial
  have cached : cachedCounts env c key = 0 := by
    refine Finset.sum_eq_zero fun i _ => ?_
    obtain ⟨q, only⟩ := codes i
    have low := (settled_of_reachable timely i).free (.read q) (by simp [only])
      (env.slot key) trivial
    have slots := (kept_of_reachable new undisturbed i).slots (env.slot key)
    have free : ((c.rank i).mem.cache.slots (env.slot key)).2 = -1 := by omega
    simp [Cache.cached, free]
  have total := conserved new undisturbed plain key
  have pending : amounts c.pending key = 0 := by simp [meeting.pending, amounts]
  have elsewhere : ∀ i, i ≠ env.partitioner.owner key →
      visitsKey (c.rank i).executed key = false := by
    intro i other
    by_contra visits
    exact other (owner_of_visits new undisturbed (by simpa using visits)).1.symm
  rw [cached, pending, zero_add, zero_add, Finset.sum_eq_single (env.partitioner.owner key)
    (fun i _ other => visitSum_eq_zero (elsewhere i other)) (by simp)] at total
  rw [(visited_of_reachable new undisturbed.reachable r).2 key]
  by_cases here : env.partitioner.owner key = r
  · subst here
    cases visits : visitsKey (c.rank (env.partitioner.owner key)).executed key with
    | true =>
        have positive := (owner_of_visits new undisturbed visits).2
        rw [total] at positive ⊢
        have counted : 0 < insertions c key := by exact_mod_cast positive
        simp [counted]
    | false =>
        rw [visitSum_eq_zero visits] at total
        have none : insertions c key = 0 := by exact_mod_cast total.symm
        simp [none]
  · rw [elsewhere r (Ne.symm here)]
    simp [here]

end Runs

/-! ## Programs whose handlers leave the set alone -/

/-- An action of user code that is a call on the set: an insertion or a query. -/
def Call.OfSet : Call n K τ U → Prop
  | .insert .. | .query .. => True
  | _ => False

instance : ∀ call : Call n K τ U, Decidable call.OfSet
  | .insert .. | .query .. => inferInstanceAs (Decidable True)
  | .ret _ | .compute .. | .async .. | .asyncFlush .. | .asyncFlushAll .. | .barrier _
  | .allReduceSum .. => inferInstanceAs (Decidable False)

/-- The user's code at a code point, if it is one of user code. -/
def Code.user? : Code n K τ U → Option U
  | .user u => some u
  | _ => none

/-- **Only main code calls the set**: no handler is about to insert or query. -/
def Env.MainOnly (env : Env n K τ U) (c : CountSys n K τ U) : Action n → Prop
  | .main r _ => (c.rank r).stack.isEmpty ∨ ∀ u ∈ (c.rank r).running.bind Code.user?,
      ¬ (env.next u (c.rank r).mem).OfSet
  | .listen _ _ => True

instance (env : Env n K τ U) (c : CountSys n K τ U) : ∀ a, Decidable (env.MainOnly c a)
  | .main r _ => inferInstanceAs (Decidable ((c.rank r).stack.isEmpty ∨
      ∀ u ∈ (c.rank r).running.bind Code.user?, ¬ (env.next u (c.rank r).mem).OfSet))
  | .listen _ _ => inferInstanceAs (Decidable True)

/-- No activation except the main program is in a call on the set. -/
def HandlersOutside (codes : List (Code n K τ U)) : Prop :=
  ∀ k ∈ codes.dropLast, k.Outside

section MainOnly

variable [Inhabited K] {env : Env n K τ U} {cfg : Config}
variable {start : Fin n → Mem K τ} {main : Fin n → U} {c : CountSys n K τ U}

omit [LinearOrder K] [Inhabited K] in
theorem HandlersOutside.cons {k : Code n K τ U} {waiting : List (Code n K τ U)}
    (h : HandlersOutside waiting) (outside : waiting ≠ [] → k.Outside) :
    HandlersOutside (k :: waiting) := by
  cases waiting with
  | nil => simp [HandlersOutside]
  | cons w ws =>
      intro code hcode
      rw [List.dropLast_cons_cons, List.mem_cons] at hcode
      rcases hcode with rfl | hcode
      · exact outside (by simp)
      · exact h code hcode

omit [LinearOrder K] [Inhabited K] in
theorem HandlersOutside.tail {k : Code n K τ U} {waiting : List (Code n K τ U)}
    (h : HandlersOutside (k :: waiting)) :
    HandlersOutside waiting ∧ (waiting ≠ [] → k.Outside) := by
  cases waiting with
  | nil => simp [HandlersOutside]
  | cons w ws =>
      rw [HandlersOutside, List.dropLast_cons_cons, List.forall_mem_cons] at h
      exact ⟨h.2, fun _ => h.1⟩

/-- Code outside the set that does not call the set next stays outside. -/
theorem Code.Outside.next {k k' : Code n K τ U} {mem mem' : Mem K τ} (outside : k.Outside)
    (alone : ∀ u ∈ k.user?, ¬ (env.next u mem).OfSet)
    (goes : Goes mem (env.program.next k mem) mem' k') : k'.Outside := by
  cases k with
  | user u =>
      have other := alone u rfl
      simp only [Env.program, Call.command] at goes
      split at goes
      case h_1 => exact goes.elim
      case h_7 =>
        obtain ⟨-, _, rfl⟩ := goes
        trivial
      case h_8 called | h_9 called => exact absurd (by rw [called]; trivial) other
      all_goals
        obtain ⟨-, rfl⟩ := goes
        trivial
  | fetch src key pcont =>
      obtain ⟨-, rfl⟩ := goes
      trivial
  | visit | fetched | returner => exact goes.elim
  | _ => exact outside.elim

theorem HandlersOutside.acts {r : Fin n} {s t : CountRank n K τ U} (h : HandlersOutside s.codes)
    (alone : s.stack.isEmpty ∨ ∀ u ∈ s.running.bind Code.user?, ¬ (env.next u s.mem).OfSet)
    (acts : Acts env.program r s t) : HandlersOutside t.codes := by
  have handlers : ∀ (src : Fin n) (payload : Payload K U),
      (env.program.handler src payload).Outside := by
    intro src payload
    cases payload <;> trivial
  have goes : ∀ {k k' mem'}, s.running = some k → Goes s.mem (env.program.next k s.mem) mem' k' →
      HandlersOutside (k' :: s.waiting) := by
    intro k k' mem' running goes
    rw [s.codes_eq, running] at h
    obtain ⟨rest, outside⟩ := h.tail
    refine rest.cons fun some => (outside some).next (alone.elim (fun empty => ?_) ?_) goes
    · refine absurd ?_ some
      simp [Rank.waiting, running, Rank.codes, List.isEmpty_iff.mp empty]
    · simp [running]
  cases acts with
  | quiet idle codes => rwa [codes]
  | start m idle received codes =>
      rw [codes]
      exact h.cons fun _ => handlers _ _
  | reduced value k pc idle before codes =>
      rw [codes]
      simp [HandlersOutside]
  | ret k running cmd codes =>
      rw [s.codes_eq, running] at h
      rw [codes]
      exact h.tail.1
  | update k k' running cmd codes =>
      rw [codes]
      exact goes running (by rw [cmd]; exact ⟨rfl, rfl⟩)
  | remote k k' m running src cmd codes =>
      rw [codes]
      exact goes running (by rw [cmd]; exact ⟨rfl, rfl⟩)
  | self k k' m running src dest cmd codes =>
      rw [codes]
      exact (goes running (by rw [cmd]; exact ⟨rfl, rfl⟩)).cons fun _ => handlers _ _
  | leave k k' running cmd codes =>
      rw [codes]
      refine @goes k k' s.mem running ?_
      rcases cmd with ⟨dest, cmd⟩ | cmd | cmd | cmd <;> rw [cmd] <;> exact ⟨rfl, rfl⟩
  | reduce value k running cmd pc before codes => rwa [codes]

omit [Inhabited K] in
/-- In a state in which no handler is in a call on the set, no step disturbs a flush and no
insert is late. -/
theorem Env.timely_of_outside {a : Action n}
    (outside : ∀ r, HandlersOutside (c.rank r).codes) : env.Undisturbed c a ∧ env.Timely c a := by
  cases a with
  | listen r src => exact ⟨trivial, trivial⟩
  | main r flag =>
      have alone : ∀ {k}, (c.rank r).running = some k → ¬ k.Outside →
          (c.rank r).waiting = [] := by
        intro k running inside
        have handlers := outside r
        rw [(c.rank r).codes_eq, running] at handlers
        by_contra some
        exact inside (handlers.tail.2 some)
      refine ⟨fun slot hslot => ?_, fun slot hslot => ?_⟩
      · obtain ⟨k, running, works⟩ := Option.bind_eq_some_iff.mp hslot
        rw [alone running (by cases k <;> first | exact id | cases works)]
        simp [flushing]
      · obtain ⟨k, running, counts⟩ := Option.bind_eq_some_iff.mp hslot
        have codes := (c.rank r).codes_eq
        rw [running, alone running (by cases k <;> first | exact id | cases counts)] at codes
        have same : k = (c.rank r).code := by
          simpa [Rank.codes] using (congrArg List.getLast? codes).symm
        rw [← same]
        cases k <;> first | exact id | cases counts

/-- **If only main code calls the set**, no flush is disturbed and no insert is late. -/
theorem timely_of_mainOnly
    (h : (comm cfg env.program start fun r => .user (main r)).ReachableBy env.MainOnly c) :
    (comm cfg env.program start fun r => .user (main r)).ReachableBy
        (fun c a => env.Undisturbed c a ∧ env.Timely c a) c ∧
      ∀ r, HandlersOutside (c.rank r).codes := by
  induction h with
  | init => exact ⟨.init, fun r => by simp [comm, Rank.init, Rank.codes, HandlersOutside]⟩
  | @step c a d before allowed taken ih =>
      obtain ⟨reached, outside⟩ := ih
      refine ⟨reached.step (Env.timely_of_outside outside) taken, fun i => ?_⟩
      rcases Sys.step_cases taken with
        ⟨r, flag, t, sent, rfl, move, rfl⟩ | ⟨r, src, t, stream, -, receive, rfl⟩
      · by_cases hi : i = r
        · subst hi
          simp only [Function.update_self]
          exact (outside i).acts allowed
            (move.acts ((Sys.routed_of_reachable before.reachable).rank i))
        · simpa [hi] using outside i
      · obtain ⟨listener, queue, eq⟩ := receive.frame i
        simp only [eq]
        exact outside i

end MainOnly

end YGM.Counting
