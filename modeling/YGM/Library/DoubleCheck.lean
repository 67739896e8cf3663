import Mathlib.Algebra.BigOperators.Fin
import Mathlib.Order.Lattice.Nat
import Mathlib.Data.Fintype.BigOperators
import YGM.Library.Machine

/-!
# Rounds of two collective sums

Parties agree that they are done by summing twice: each posts a value (`Kind.first`);
when the sum of all of them is zero each posts a second value (`Kind.second`); when
that sum is zero too the round is closed, and after any sum that is not zero the
parties start again with a first value.  What a party does between two posts, and
where its values come from, is left open.

## What is proved

* `Aligned` — the `j`-th posts of all parties belong to the same collective, whose
  kind is a function of the earlier sums (`kindAt`); a party has seen the results
  `handled` of them, and has closed as many rounds as those results say (`closed`).
  `Aligned.step` is its step lemma.
* `currentRound` — the number of rounds closed by the results that are complete.  A party
  is never ahead of it (`Aligned.rounds_le`), and behind it only while it waits for a
  second sum (`Aligned.rounds_eq`).
* `Aligned.rounds_step` — when `currentRound` advances, every party is waiting for the same
  second sum, and the values they posted add up to zero.
-/

namespace YGM

open scoped BigOperators

/-- The two kinds of collective that a round consists of. -/
inductive Kind
  /-- The first sum, over values that may have changed since. -/
  | first
  /-- The second sum, which confirms the first. -/
  | second
deriving DecidableEq

variable {ι M : Type} [Fintype ι] [AddCommMonoid M]

/-! ## Sums, kinds and closed rounds -/

section Posts

variable (posts : ι → List (Kind × M))

/-- The value that party `i` has posted to the `j`-th collective, or zero if the party has not
posted to it. -/
def contribution (j : ℕ) (i : ι) : M :=
  ((posts i)[j]?.map Prod.snd).getD 0

/-- The sum that the `j`-th collective computes from the contributions of all parties. -/
def total (j : ℕ) : M :=
  ∑ i, contribution posts j i

/-- The result of the collective that party `i` has posted last, once every party has posted to
it. -/
def result (i : ι) : Option M :=
  if ∀ k, (posts i).length - 1 < (posts k).length then
    some (total posts ((posts i).length - 1))
  else none

variable {posts} in
/-- Parties that have posted equally often are waiting for the same collective, so they see the
same result. -/
theorem result_congr {i k : ι} (level : (posts i).length = (posts k).length) :
    result posts i = result posts k := by
  rw [result, result, level]

variable {posts} in
/-- A result that is complete does not change when parties post more: only later collectives are
affected. -/
theorem result_of_prefix {posts' : ι → List (Kind × M)} (grown : ∀ k, posts k <+: posts' k) {i : ι}
    (same : posts' i = posts i) {x : M} (seen : result posts i = some x) :
    result posts' i = some x := by
  rw [result] at seen
  split at seen
  case isFalse => cases seen
  case isTrue complete =>
    rw [result, same, if_pos fun k => (complete k).trans_le (grown k).length_le, ← seen]
    refine congrArg some (Finset.sum_congr rfl fun k _ => ?_)
    obtain ⟨more, eq⟩ := grown k
    rw [contribution, contribution, ← eq, List.getElem?_append_left (complete k)]

variable {posts} in
/-- If the last posts of all parties belong to one collective, its result is the sum of the
values posted. -/
theorem result_of_last {before : ι → List (Kind × M)} {kind : Kind} {value : ι → M}
    (last : ∀ i, posts i = before i ++ [(kind, value i)])
    (level : ∀ i k, (before i).length = (before k).length) (i : ι) :
    result posts i = some (∑ k, value k) := by
  have length : ∀ k, (posts k).length = (before i).length + 1 := by
    intro k
    rw [last k, List.length_append, level k i]
    rfl
  rw [result, if_pos fun k => by rw [length, length]; exact Nat.lt_succ_self _]
  refine congrArg some (Finset.sum_congr rfl fun k _ => ?_)
  rw [contribution, length i, Nat.add_sub_cancel, last k, level i k,
    List.getElem?_concat_length]
  rfl

omit [Fintype ι] [AddCommMonoid M] in
/-- The number of collectives to which every party has posted, so whose results are complete. -/
noncomputable def depth : ℕ :=
  ⨅ i, (posts i).length

variable [DecidableEq M]

/-- The kind of the `j`-th collective, computed from the sums before it: a second one follows a
first one whose sum is zero, and a first one follows everything else. -/
def kindAt : ℕ → Kind
  | 0 => .first
  | j + 1 => if kindAt j = .first ∧ total posts j = 0 then .second else .first

/-- The number of rounds that the first `j` collectives close: one for each second sum that is
zero. -/
def closed : ℕ → ℕ
  | 0 => 0
  | j + 1 => closed j + if kindAt posts j = .second ∧ total posts j = 0 then 1 else 0

/-- The number of rounds closed by the collectives whose results are complete. -/
noncomputable def currentRound : ℕ :=
  closed posts (depth posts)

variable {posts}

theorem closed_mono : Monotone (closed posts) :=
  monotone_nat_of_le_succ fun _ => Nat.le_add_right _ _

omit [Fintype ι] [AddCommMonoid M] [DecidableEq M] in
theorem depth_le (i : ι) : depth posts ≤ (posts i).length :=
  ciInf_le (OrderBot.bddBelow _) i

omit [Fintype ι] [AddCommMonoid M] [DecidableEq M] in
theorem le_depth [Nonempty ι] {j : ℕ} (h : ∀ i, j ≤ (posts i).length) :
    j ≤ depth posts :=
  le_ciInf h

/-- The kind of a collective depends only on the sums of the collectives before it. -/
theorem kindAt_congr {posts' : ι → List (Kind × M)} {j : ℕ}
    (same : ∀ k < j, total posts' k = total posts k) :
    kindAt posts' j = kindAt posts j := by
  induction j with
  | zero => rfl
  | succ j ih =>
      rw [kindAt, kindAt, ih fun k hk => same k (by omega), same j (by omega)]

/-- A collective of the second kind follows only a collective whose sum is zero. -/
theorem total_of_kindAt_second {j : ℕ} (h : kindAt posts (j + 1) = .second) :
    total posts j = 0 := by
  rw [kindAt] at h
  split at h
  · rename_i both
    exact both.2
  · cases h

/-- The number of rounds closed by the first collectives depends only on their sums. -/
theorem closed_congr {posts' : ι → List (Kind × M)} {j : ℕ}
    (same : ∀ k < j, total posts' k = total posts k) :
    closed posts' j = closed posts j := by
  induction j with
  | zero => rfl
  | succ j ih =>
      rw [closed, closed, ih fun k hk => same k (by omega), same j (by omega),
        kindAt_congr fun k hk => same k (by omega)]

/-- Two sums of zero in a row close at least one round, whichever kind the first of them is of. -/
theorem closed_lt_of_total {j : ℕ} (zero : total posts j = 0) (zero' : total posts (j + 1) = 0) :
    closed posts j < closed posts (j + 2) := by
  cases kind : kindAt posts j with
  | first =>
      have next : kindAt posts (j + 1) = .second := by rw [kindAt, if_pos ⟨kind, zero⟩]
      rw [closed, if_pos ⟨next, zero'⟩]
      exact Nat.lt_succ_of_le (closed_mono (Nat.le_succ j))
  | second =>
      calc closed posts j < closed posts (j + 1) := by
            rw [closed, if_pos ⟨kind, zero⟩]
            exact Nat.lt_succ_self _
        _ ≤ closed posts (j + 2) := closed_mono (Nat.le_succ _)

/-- **Sums of zero close rounds.** While all sums are zero, every second collective closes a
round; so `2 * count` of them close at least `count`. -/
theorem le_closed_of_total {j count : ℕ}
    (zero : ∀ k ≥ j, k < j + 2 * count → total posts k = 0) :
    count ≤ closed posts (j + 2 * count) := by
  induction count with
  | zero => exact Nat.zero_le _
  | succ count ih =>
      calc count + 1 ≤ closed posts (j + 2 * count) + 1 :=
            Nat.succ_le_succ (ih fun k later below => zero k later (by omega))
        _ ≤ closed posts (j + 2 * count + 2) :=
            closed_lt_of_total (zero _ (by omega) (by omega)) (zero _ (by omega) (by omega))

omit [DecidableEq M] in
/-- A party that posts once more changes no sum of an earlier collective. -/
theorem total_update [DecidableEq ι] {i : ι} {post : Kind × M} {j : ℕ}
    (earlier : j < (posts i).length) :
    total (Function.update posts i (posts i ++ [post])) j = total posts j := by
  refine Finset.sum_congr rfl fun k _ => ?_
  by_cases hk : k = i
  · subst hk
    simp [contribution, List.getElem?_append_left earlier]
  · simp [contribution, hk]

end Posts

variable [DecidableEq M]

/-! ## Parties -/

/-- **One party**: what it has posted, the kind of the result it is waiting for, if
it is, and the rounds it has closed. -/
structure Party (M : Type) where
  posts : List (Kind × M)
  waiting : Option Kind
  rounds : ℕ

namespace Party

/-- The number of results that a party has seen: those of all its posts, except for the last one
while it waits. -/
def handled (p : Party M) : ℕ :=
  if p.waiting = none then p.posts.length else p.posts.length - 1

/-- **A step of a party**, given the result of the collective it is waiting for, if that is
complete. -/
inductive Step (result : Option M) (p : Party M) : Party M → Prop
  /-- The party does something that is neither a post nor a result. -/
  | stay : Step result p p
  /-- The party takes a first sample and posts it. -/
  | sample (x : M) (free : p.waiting = none) :
      Step result p { p with posts := p.posts ++ [(.first, x)], waiting := some .first }
  /-- See a first sum of zero and post a second value. -/
  | confirm (x : M) (waits : p.waiting = some .first) (zero : result = some 0) :
      Step result p
        { p with posts := p.posts ++ [(.second, x)], waiting := some .second }
  /-- The party sees a sum that is not zero. -/
  | retry {sum : M} (waits : p.waiting ≠ none) (seen : result = some sum)
      (nonzero : sum ≠ 0) : Step result p { p with waiting := none }
  /-- The party sees a second sum of zero. -/
  | close (waits : p.waiting = some .second) (zero : result = some 0) :
      Step result p { p with waiting := none, rounds := p.rounds + 1 }

end Party

/-- **Parties in step**: the invariant that ties the posts, the kinds and the rounds of all
parties together. -/
structure Aligned (party : ι → Party M) : Prop where
  /-- A result seen by one party is complete. -/
  handled_le : ∀ i k, (party i).handled ≤ (party k).posts.length
  /-- The posts of one index belong to one collective. -/
  kind : ∀ i j post, (party i).posts[j]? = some post →
    post.1 = kindAt (fun k => (party k).posts) j
  /-- A party waits for the collective it has posted last. -/
  last : ∀ i k, (party i).waiting = some k →
    ∃ x, (party i).posts.getLast? = some (k, x)
  /-- A party has closed the rounds its results say. -/
  rounds : ∀ i, (party i).rounds = closed (fun k => (party k).posts) (party i).handled
  /-- A party that is not waiting goes on with a first value. -/
  next : ∀ i, (party i).waiting = none →
    kindAt (fun k => (party k).posts) (party i).posts.length = .first

namespace Aligned

variable {party : ι → Party M}

/-- A waiting party has seen the results of all its posts but the last. -/
theorem length_of_waiting (h : Aligned party) {i : ι} (waits : (party i).waiting ≠ none) :
    (party i).posts.length = (party i).handled + 1 := by
  obtain ⟨k, hk⟩ := Option.ne_none_iff_exists'.mp waits
  obtain ⟨x, hx⟩ := h.last i k hk
  have nonempty : (party i).posts ≠ [] := by
    rintro empty
    simp [empty] at hx
  have := List.length_pos_iff.mpr nonempty
  simp only [Party.handled, waits, if_false]
  omega

theorem length_le (h : Aligned party) (i k : ι) :
    (party k).posts.length ≤ (party i).posts.length + 1 := by
  have := h.handled_le k i
  by_cases waits : (party k).waiting = none
  · simp only [Party.handled, waits, if_true] at this
    omega
  · rw [h.length_of_waiting waits]
    omega

/-- The kind a party waits for is the kind of the collective it has posted last. -/
theorem kindAt_handled (h : Aligned party) {i : ι} {k : Kind}
    (waits : (party i).waiting = some k) :
    kindAt (fun k => (party k).posts) (party i).handled = k := by
  obtain ⟨x, hx⟩ := h.last i k waits
  have length := h.length_of_waiting (i := i) (by simp [waits])
  rw [List.getLast?_eq_getElem?, length] at hx
  exact (h.kind i _ _ hx).symm

/-- The kinds of a party's posts are those of the collectives they belong to, in order. -/
theorem kinds (h : Aligned party) (i : ι) :
    (party i).posts.map Prod.fst
      = (List.range (party i).posts.length).map (kindAt fun k => (party k).posts) := by
  refine List.ext_getElem (by simp) fun j hj _ => ?_
  simp only [List.length_map] at hj
  simp only [List.getElem_map, List.getElem_range]
  exact h.kind i j _ (List.getElem?_eq_getElem hj)

/-! ### Posting -/

section Append

variable [DecidableEq ι] {i : ι} {post : Kind × M} {p : Party M}

omit [Fintype ι] [AddCommMonoid M] [DecidableEq M] in
/-- When party `i` posts, the posts of all parties change by that one post and by nothing else. -/
theorem posts_update (hp : p.posts = (party i).posts ++ [post]) :
    (fun k => (Function.update party i p k).posts)
      = Function.update (fun k => (party k).posts) i ((party i).posts ++ [post]) := by
  funext k
  by_cases hk : k = i
  · subst hk
    simp [hp]
  · simp [hk]

theorem kindAt_update (hp : p.posts = (party i).posts ++ [post]) {j : ℕ}
    (hj : j ≤ (party i).posts.length) :
    kindAt (fun k => (Function.update party i p k).posts) j
      = kindAt (fun k => (party k).posts) j := by
  rw [posts_update hp]
  exact kindAt_congr fun k hk =>
    total_update (by show k < _; omega)

theorem closed_update (hp : p.posts = (party i).posts ++ [post]) {j : ℕ}
    (hj : j ≤ (party i).posts.length) :
    closed (fun k => (Function.update party i p k).posts) j
      = closed (fun k => (party k).posts) j := by
  rw [posts_update hp]
  exact closed_congr fun k hk =>
    total_update (by show k < _; omega)

/-- **A post of the right kind keeps the parties in step**, if every party has posted to the
collectives before and the poster has closed the rounds that these close. -/
theorem append (h : Aligned party) {kind : Kind} {x : M}
    (right : kind = kindAt (fun k => (party k).posts) (party i).posts.length)
    (complete : ∀ k, (party i).posts.length ≤ (party k).posts.length)
    (level : (party i).rounds = closed (fun k => (party k).posts) (party i).posts.length) :
    Aligned (Function.update party i
      { party i with posts := (party i).posts ++ [(kind, x)], waiting := some kind }) := by
  set p : Party M :=
    { party i with posts := (party i).posts ++ [(kind, x)], waiting := some kind }
  have hp : p.posts = (party i).posts ++ [(kind, x)] := rfl
  have own : p.handled = (party i).posts.length := by simp [p, Party.handled]
  -- nobody has seen a result beyond the one just posted
  have bound : ∀ k, (Function.update party i p k).handled ≤ (party i).posts.length := by
    intro k
    by_cases hk : k = i
    · subst hk
      simp [own]
    · simpa [hk] using h.handled_le k i
  refine ⟨?_, ?_, ?_, ?_, ?_⟩
  · intro k l
    refine (bound k).trans ?_
    by_cases hl : l = i
    · subst hl
      simp [hp]
    · simpa [hl] using complete l
  · intro k j post hpost
    by_cases hk : k = i
    · subst hk
      rw [Function.update_self, hp] at hpost
      rcases Nat.lt_or_ge j (party k).posts.length with hj | hj
      · rw [List.getElem?_append_left hj] at hpost
        rw [kindAt_update hp hj.le]
        exact h.kind k j post hpost
      · have short := (List.getElem?_eq_some_iff.mp hpost).1
        simp only [List.length_append, List.length_cons, List.length_nil] at short
        obtain rfl : j = (party k).posts.length := by omega
        simp only [List.getElem?_concat_length, Option.some.injEq] at hpost
        rw [kindAt_update hp le_rfl, ← hpost]
        exact right
    · rw [Function.update_of_ne hk] at hpost
      have short := (List.getElem?_eq_some_iff.mp hpost).1
      have := h.handled_le k i
      have hj : j ≤ (party i).posts.length := by
        by_cases waits : (party k).waiting = none
        · simp only [Party.handled, waits, if_true] at this
          omega
        · rw [h.length_of_waiting waits] at short
          omega
      rw [kindAt_update hp hj]
      exact h.kind k j post hpost
  · intro k kind' hk'
    by_cases hk : k = i
    · subst hk
      simp only [Function.update_self, p, Option.some.injEq] at hk'
      subst hk'
      exact ⟨x, by simp [hp]⟩
    · rw [Function.update_of_ne hk] at hk' ⊢
      exact h.last k kind' hk'
  · intro k
    rw [closed_update hp (bound k)]
    by_cases hk : k = i
    · subst hk
      simpa [own] using level
    · simpa [hk] using h.rounds k
  · intro k free
    by_cases hk : k = i
    · subst hk
      simp [p] at free
    · rw [Function.update_of_ne hk] at free ⊢
      have := h.handled_le k i
      simp only [Party.handled, free, if_true] at this
      rw [kindAt_update hp this]
      exact h.next k free

end Append

/-! ### Seeing a result -/

/-- A waiting party that gets its result learns that every party has posted as often as itself,
and that the result is the sum of that collective. -/
theorem of_result (h : Aligned party) {i : ι} {sum : M} (waits : (party i).waiting ≠ none)
    (seen : result (fun k => (party k).posts) i = some sum) :
    (∀ k, (party i).posts.length ≤ (party k).posts.length) ∧
      total (fun k => (party k).posts) (party i).handled = sum := by
  have length := h.length_of_waiting waits
  simp only [result, length, Nat.add_sub_cancel] at seen
  split at seen
  · rename_i complete
    refine ⟨fun k => ?_, Option.some.inj seen⟩
    have := complete k
    omega
  · cases seen

/-- **Seeing a result keeps the parties in step**, if the next collective is one of the first
kind and the party counts the rounds that the results close. -/
theorem see [DecidableEq ι] (h : Aligned party) {i : ι} {rounds : ℕ}
    (complete : ∀ k, (party i).posts.length ≤ (party k).posts.length)
    (next : kindAt (fun k => (party k).posts) (party i).posts.length = .first)
    (level : rounds = closed (fun k => (party k).posts) (party i).posts.length) :
    Aligned (Function.update party i
      { party i with waiting := none, rounds := rounds }) := by
  set p : Party M := { party i with waiting := none, rounds := rounds }
  have posts : ∀ k, (Function.update party i p k).posts = (party k).posts := by
    intro k
    by_cases hk : k = i
    · subst hk
      simp [p]
    · simp [hk]
  have own : p.handled = (party i).posts.length := by simp [p, Party.handled]
  refine ⟨?_, ?_, ?_, ?_, ?_⟩
  · intro k l
    rw [posts l]
    by_cases hk : k = i
    · subst hk
      simpa [own] using complete l
    · simpa [hk] using h.handled_le k l
  · intro k j post hpost
    simp only [posts] at hpost ⊢
    exact h.kind k j post hpost
  · intro k kind waits
    by_cases hk : k = i
    · subst hk
      simp [p] at waits
    · simp only [Function.update_of_ne hk] at waits ⊢
      exact h.last k kind waits
  · intro k
    simp only [posts]
    by_cases hk : k = i
    · subst hk
      simpa [own] using level
    · simpa [hk] using h.rounds k
  · intro k free
    simp only [posts]
    by_cases hk : k = i
    · subst hk
      exact next
    · rw [Function.update_of_ne hk] at free
      exact h.next k free

/-- **The step lemma**: whatever one of the parties does, they stay in step. -/
theorem step [DecidableEq ι] (h : Aligned party) {i : ι} {p : Party M}
    (taken : (party i).Step (result (fun k => (party k).posts) i) p) :
    Aligned (Function.update party i p) := by
  cases taken with
  | stay => rwa [Function.update_eq_self]
  | sample x free =>
      have length : (party i).handled = (party i).posts.length := by
        simp [Party.handled, free]
      refine h.append (h.next i free).symm (fun k => length ▸ h.handled_le i k) ?_
      rw [h.rounds i, length]
  | confirm x waits zero =>
      have length := h.length_of_waiting (i := i) (by simp [waits])
      obtain ⟨complete, zero⟩ := h.of_result (by simp [waits]) zero
      have first := h.kindAt_handled waits
      refine h.append ?_ complete ?_
      · rw [length, kindAt, if_pos ⟨first, zero⟩]
      · rw [length, closed, first, h.rounds i]
        simp
  | @retry sum waits seen nonzero =>
      have length := h.length_of_waiting waits
      obtain ⟨complete, rfl⟩ := h.of_result waits seen
      refine h.see complete ?_ ?_
      · rw [length, kindAt, if_neg fun both => nonzero both.2]
      · rw [length, closed, if_neg fun both => nonzero both.2, h.rounds i, Nat.add_zero]
  | close waits zero =>
      have length := h.length_of_waiting (i := i) (by simp [waits])
      obtain ⟨complete, zero⟩ := h.of_result (by simp [waits]) zero
      have second := h.kindAt_handled waits
      refine h.see complete ?_ ?_
      · rw [length, kindAt, second]
        simp
      · rw [length, closed, if_pos ⟨second, zero⟩, h.rounds i]

/-! ### Rounds -/

theorem handled_le_depth (h : Aligned party) (i : ι) :
    (party i).handled ≤ depth fun k => (party k).posts :=
  haveI : Nonempty ι := ⟨i⟩
  le_depth (h.handled_le i)

/-- No party has closed more rounds than the complete results close. -/
theorem rounds_le (h : Aligned party) (i : ι) :
    (party i).rounds ≤ currentRound fun k => (party k).posts := by
  rw [h.rounds i]
  exact closed_mono (h.handled_le_depth i)

/-- **A party is behind only while it waits for a second sum**: otherwise it has closed all
rounds that the complete results close. -/
theorem rounds_eq (h : Aligned party) {i : ι} (free : (party i).waiting ≠ some .second) :
    (party i).rounds = currentRound fun k => (party k).posts := by
  refine le_antisymm (h.rounds_le i) ?_
  have le : depth (fun k => (party k).posts) ≤ (party i).posts.length := depth_le i
  rw [h.rounds i]
  cases waits : (party i).waiting with
  | none =>
      simp only [Party.handled, waits, if_true]
      exact closed_mono le
  | some kind =>
      cases kind with
      | first =>
          have length := h.length_of_waiting (i := i) (by simp [waits])
          calc closed (fun k => (party k).posts) (depth fun k => (party k).posts)
              ≤ closed (fun k => (party k).posts) ((party i).handled + 1) :=
                closed_mono (length ▸ le)
            _ = closed (fun k => (party k).posts) (party i).handled := by
                rw [closed, h.kindAt_handled waits]
                simp
      | second => exact absurd waits free

/-- A party that waits for a second sum which is complete and zero is one round behind. -/
theorem rounds_lt (h : Aligned party) {i : ι} (waits : (party i).waiting = some .second)
    (zero : result (fun k => (party k).posts) i = some 0) :
    (party i).rounds < currentRound fun k => (party k).posts := by
  have : Nonempty ι := ⟨i⟩
  have length := h.length_of_waiting (i := i) (by simp [waits])
  obtain ⟨complete, zero⟩ := h.of_result (by simp [waits]) zero
  rw [h.rounds i, ← Nat.succ_le_iff]
  calc closed (fun k => (party k).posts) (party i).handled + 1
      = closed (fun k => (party k).posts) ((party i).handled + 1) := by
        rw [closed, if_pos ⟨h.kindAt_handled waits, zero⟩]
    _ ≤ closed (fun k => (party k).posts) (depth fun k => (party k).posts) :=
        closed_mono (length ▸ le_depth complete)

/-- No party is behind the complete results by more than one round. -/
theorem current_le_succ (h : Aligned party) (i : ι) :
    (currentRound fun k => (party k).posts) ≤ (party i).rounds + 1 := by
  by_cases waits : (party i).waiting = some .second
  · have length := h.length_of_waiting (i := i) (by simp [waits])
    rw [h.rounds i]
    calc closed (fun k => (party k).posts) (depth fun k => (party k).posts)
        ≤ closed (fun k => (party k).posts) ((party i).handled + 1) :=
          closed_mono (length ▸ depth_le i)
      _ ≤ closed (fun k => (party k).posts) (party i).handled + 1 := by
          rw [closed]
          split <;> omega
  · exact (h.rounds_eq waits).ge.trans (Nat.le_succ _)

/-- A party that is behind while it waits for a second sum can get no other result than zero. -/
theorem result_of_rounds_lt (h : Aligned party) {i : ι}
    (waits : (party i).waiting = some .second)
    (behind : (party i).rounds < currentRound fun k => (party k).posts) {x : M}
    (seen : result (fun k => (party k).posts) i = some x) : x = 0 := by
  by_contra nonzero
  have length := h.length_of_waiting (i := i) (by simp [waits])
  obtain ⟨-, sum⟩ := h.of_result (by simp [waits]) seen
  have le : depth (fun k => (party k).posts) ≤ (party i).posts.length := depth_le i
  rw [h.rounds i] at behind
  refine absurd behind (not_lt.mpr ?_)
  calc closed (fun k => (party k).posts) (depth fun k => (party k).posts)
      ≤ closed (fun k => (party k).posts) ((party i).handled + 1) := closed_mono (length ▸ le)
    _ = closed (fun k => (party k).posts) (party i).handled := by
        rw [closed, if_neg (fun closes => nonzero (sum.symm.trans closes.2)), Nat.add_zero]

/-- **A party waits for one that is behind.**  If its result is missing, another party has not
posted yet, although it has seen all results before; it has closed as many rounds, or has its own
result to see. -/
theorem of_missing (h : Aligned party) {i : ι} (waits : (party i).waiting ≠ none)
    (missing : result (fun k => (party k).posts) i = none) :
    ∃ k, (party k).waiting = none ∧ (party k).rounds = (party i).rounds ∨
      (party k).waiting ≠ none ∧ ∃ sum, result (fun k => (party k).posts) k = some sum := by
  have length := h.length_of_waiting waits
  simp only [result, length, Nat.add_sub_cancel, ite_eq_right_iff, reduceCtorEq, imp_false,
    not_forall, not_lt] at missing
  obtain ⟨k, behind⟩ := missing
  have least := h.handled_le i k
  refine ⟨k, ?_⟩
  by_cases free : (party k).waiting = none
  · have own : (party k).handled = (party k).posts.length := by
      simp [Party.handled, free]
    have handled : (party k).handled = (party i).handled := by
      rw [own]
      omega
    exact .inl ⟨free, by rw [h.rounds, h.rounds, handled]⟩
  · have length' := h.length_of_waiting free
    have complete : ∀ l, (party k).posts.length - 1 < (party l).posts.length := by
      intro l
      have := h.handled_le i l
      omega
    exact .inr ⟨free, _, if_pos complete⟩

/-- A waiting party that has posted no more than any other party has its result. -/
theorem exists_result (h : Aligned party) {i : ι} (waits : (party i).waiting ≠ none)
    (least : ∀ k, (party i).posts.length ≤ (party k).posts.length) :
    ∃ sum, result (fun k => (party k).posts) i = some sum := by
  have length := h.length_of_waiting waits
  refine ⟨_, if_pos fun k => ?_⟩
  have := least k
  show (party i).posts.length - 1 < (party k).posts.length
  omega

/-- **A party that is behind has its result**: the second sum it waits for is complete, and it
is zero. -/
theorem result_of_behind (h : Aligned party) {i : ι} (waits : (party i).waiting = some .second)
    (behind : (party i).rounds < currentRound fun k => (party k).posts) :
    result (fun k => (party k).posts) i = some 0 := by
  have length := h.length_of_waiting (i := i) (by simp [waits])
  have ahead : (party i).handled < depth fun k => (party k).posts := by
    by_contra beyond
    rw [h.rounds i] at behind
    exact absurd (closed_mono (Nat.le_of_not_lt beyond)) (Nat.not_le_of_lt behind)
  obtain ⟨sum, seen⟩ := h.exists_result (i := i) (by simp [waits]) fun k => by
    rw [length]
    exact Nat.lt_of_lt_of_le ahead (depth_le k)
  rw [seen, h.result_of_rounds_lt waits behind seen]

/-- Parties that have posted equally often and wait are waiting for collectives of one kind. -/
theorem waiting_eq (h : Aligned party) {i k : ι} {kind kind' : Kind}
    (waits : (party i).waiting = some kind) (waits' : (party k).waiting = some kind')
    (level : (party i).posts.length = (party k).posts.length) : kind = kind' := by
  have length := h.length_of_waiting (i := i) (by simp [waits])
  have length' := h.length_of_waiting (i := k) (by simp [waits'])
  rw [← h.kindAt_handled waits, ← h.kindAt_handled waits']
  exact congrArg _ (by omega)

/-- When the first sum that a party waits for is zero, every party that has posted equally often
waits for that first sum too: none has started over. -/
theorem waiting_of_confirmed (h : Aligned party) {i k : ι}
    (waits : (party i).waiting = some .first)
    (zero : result (fun k => (party k).posts) i = some 0)
    (level : (party i).posts.length = (party k).posts.length) :
    (party k).waiting = some .first := by
  have length := h.length_of_waiting (i := i) (by simp [waits])
  obtain ⟨-, sum⟩ := h.of_result (by simp [waits]) zero
  cases waits' : (party k).waiting with
  | some kind => rw [h.waiting_eq waits waits' level]
  | none =>
      have next := h.next k waits'
      rw [← level, length, kindAt, if_pos ⟨h.kindAt_handled waits, sum⟩] at next
      cases next

/-- **A party that has seen the end of a round has closed it**, and a party that still waits for
this sum is behind. -/
theorem rounds_lt_of_handled (h : Aligned party) {i k : ι}
    (waits : (party i).waiting = some .second)
    (zero : result (fun k => (party k).posts) i = some 0)
    (ahead : (party i).posts.length ≤ (party k).handled) :
    (party i).rounds < (party k).rounds := by
  have length := h.length_of_waiting (i := i) (by simp [waits])
  obtain ⟨-, sum⟩ := h.of_result (by simp [waits]) zero
  rw [h.rounds i, h.rounds k, ← Nat.succ_le_iff]
  calc closed (fun k => (party k).posts) (party i).handled + 1
      = closed (fun k => (party k).posts) ((party i).handled + 1) := by
        rw [closed, if_pos ⟨h.kindAt_handled waits, sum⟩]
    _ ≤ closed (fun k => (party k).posts) (party k).handled := closed_mono (length ▸ ahead)

/-- **When the rounds advance.**  A step that makes one more round complete leaves
every party waiting for one second sum, to which their values add up to zero; none of them
has closed that round. -/
theorem rounds_step [DecidableEq ι] (h : Aligned party) {i : ι} {p : Party M}
    (taken : (party i).Step (result (fun k => (party k).posts) i) p) :
    (currentRound fun k => (Function.update party i p k).posts)
        = (currentRound fun k => (party k).posts) ∨
      (currentRound (fun k => (Function.update party i p k).posts)
          = (currentRound fun k => (party k).posts) + 1 ∧
        ∃ value : ι → M, ∑ k, value k = 0 ∧
          ∀ k, (Function.update party i p k).waiting = some .second ∧
            (Function.update party i p k).posts.getLast? = some (.second, value k) ∧
            (Function.update party i p k).posts.length
              = depth (fun k => (Function.update party i p k).posts) ∧
            (Function.update party i p k).rounds = currentRound fun k => (party k).posts) := by
  have after := h.step taken
  have : Nonempty ι := ⟨i⟩
  set party' := Function.update party i p with hparty'
  by_cases same : ∀ k, (party' k).posts = (party k).posts
  · left
    simp only [same]
  -- the step posts at the index `L` its party had reached
  obtain ⟨post, kind, hp, hkind⟩ :
      ∃ post kind, p.posts = (party i).posts ++ [post] ∧ p.waiting = some kind := by
    cases taken with
    | sample x _ => exact ⟨_, _, rfl, rfl⟩
    | confirm x _ _ => exact ⟨_, _, rfl, rfl⟩
    | stay =>
        refine absurd (fun k => ?_) same
        rw [hparty', Function.update_eq_self]
    | retry | close =>
        refine absurd (fun k => ?_) same
        by_cases hk : k = i
        · subst hk
          simp [hparty']
        · simp [hparty', hk]
  set L := (party i).posts.length with hL
  have own : (party' i).posts = (party i).posts ++ [post] := by simp [hparty', hp]
  have old : depth (fun k => (party k).posts) ≤ L := depth_le i
  have keep : ∀ j ≤ L, closed (fun k => (party' k).posts) j
      = closed (fun k => (party k).posts) j := fun j hj => closed_update hp hj
  have grow : depth (fun k => (party k).posts) ≤ depth fun k => (party' k).posts := by
    refine le_depth fun k => ?_
    by_cases hk : k = i
    · subst hk
      simp only [own, List.length_append]
      omega
    · simpa [hparty', hk] using depth_le k
  have limit : depth (fun k => (party' k).posts) ≤ L + 1 := by
    have : depth (fun k => (party' k).posts) ≤ (party' i).posts.length := depth_le i
    simpa [own] using this
  simp only [currentRound]
  by_cases complete : depth (fun k => (party' k).posts) = L + 1
  · -- everybody has posted at `L`, so nobody has seen its result
    have all : ∀ k, L + 1 ≤ (party' k).posts.length := fun k =>
      complete ▸ depth_le k
    have handled : ∀ k, (party' k).handled ≤ L := by
      intro k
      by_cases hk : k = i
      · subst hk
        simp [hparty', Party.handled, hkind, hp, hL]
      · simpa [hparty', hk] using h.handled_le k i
    have waits : ∀ k, (party' k).waiting ≠ none := by
      intro k free
      have := handled k
      simp only [Party.handled, free, if_true] at this
      have := all k
      omega
    have length : ∀ k, (party' k).posts.length = L + 1 := by
      intro k
      have := after.length_of_waiting (waits k)
      have := handled k
      have := all k
      omega
    have reached : L ≤ depth fun k => (party k).posts := by
      refine le_depth fun k => ?_
      by_cases hk : k = i
      · subst hk
        exact le_rfl
      · have := length k
        simp only [hparty', Function.update_of_ne hk] at this
        omega
    have depthL : depth (fun k => (party k).posts) = L := le_antisymm old reached
    rw [complete, depthL, closed, keep L le_rfl]
    by_cases closes : kindAt (fun k => (party' k).posts) L = .second ∧
        total (fun k => (party' k).posts) L = 0
    · right
      refine ⟨by rw [if_pos closes], contribution (fun k => (party' k).posts) L,
        closes.2, fun k => ?_⟩
      obtain ⟨kind, hkind⟩ := Option.ne_none_iff_exists'.mp (waits k)
      have index : (party' k).handled = L := by
        have := after.length_of_waiting (waits k)
        have := length k
        omega
      have := after.kindAt_handled hkind
      rw [index, closes.1] at this
      subst this
      obtain ⟨x, hx⟩ := after.last k _ hkind
      have rounds : (party' k).rounds = closed (fun k => (party k).posts) L := by
        rw [after.rounds k, index, keep L le_rfl]
      refine ⟨hkind, ?_, length k, rounds⟩
      rw [hx]
      rw [List.getLast?_eq_getElem?, length k] at hx
      simp only [Nat.add_sub_cancel] at hx
      simp [contribution, hx]
    · left
      rw [if_neg closes, Nat.add_zero]
  · left
    have limit' : depth (fun k => (party' k).posts) ≤ L := by omega
    rw [keep _ limit']
    -- had the depth grown, every party would have been past it before
    refine congrArg _ (le_antisymm (le_depth fun k => ?_) grow)
    have : depth (fun k => (party' k).posts) ≤ (party' k).posts.length := depth_le k
    by_cases hk : k = i
    · subst hk
      exact limit'
    · simpa [hparty', hk] using this

end Aligned

end YGM
