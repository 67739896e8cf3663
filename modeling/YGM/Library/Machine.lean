import Mathlib.Data.List.Basic
import Mathlib.Logic.Relation
import Mathlib.Data.Fintype.BigOperators
import Mathlib.Algebra.BigOperators.Fin
import Mathlib.Tactic.Abel

/-!
# Labelled machines and sums over parties

Small tools every run argument of this development goes through.

* `Machine` — a deterministic labelled transition system: the label resolves all
  nondeterminism, so a run is a list of labels and an invariant is proved one
  label at a time (`Machine.ReachableBy.invariant`).  `ReachableBy ok` restricts
  the runs to those whose every step satisfies `ok`; `Reachable` is the
  unrestricted case.
* `Machine.reachable_iff_of_view` — two machines whose steps agree up to a function on
  states reach the same states up to it.
* `Machine.exists_leads_of_variant`, `Machine.exists_leads_forall` — how to show that a
  state with a given property can be reached: by a variant that decreases, or for one
  party after the other.
* `Machine.recording` — the machine with a history that nothing reads.  It has the
  same runs (`ReachableBy.of_recording`, `ReachableBy.exists_recording`).
* `sum_update_add` — the bookkeeping identity behind every "sum over all parties"
  invariant: when one party changes, the total changes by that party's share.
  It is stated additively, so that it serves multisets and integers alike.
  `filterMap_sum` picks items from such a total.
-/

namespace YGM

open scoped BigOperators

/-- **A labelled machine.**  A label names one atomic step; a label that is not
enabled has no successor. -/
structure Machine (S A : Type) where
  /-- The state in which every run starts. -/
  init : S
  /-- One atomic step with a label, if it is possible in the state. -/
  step : S → A → Option S

namespace Machine

variable {S A : Type}

/-- The states reached by runs whose every step satisfies `ok`, a condition on
the state before the step and on its label. -/
inductive ReachableBy (M : Machine S A) (ok : S → A → Prop) : S → Prop
  | init : ReachableBy M ok M.init
  | step {s : S} {a : A} {t : S} (before : ReachableBy M ok s) (allowed : ok s a)
      (taken : M.step s a = some t) : ReachableBy M ok t

/-- The states reached by runs, without any restriction on the steps. -/
def Reachable (M : Machine S A) : S → Prop :=
  M.ReachableBy fun _ _ => True

variable {M : Machine S A} {ok : S → A → Prop}

theorem Reachable.init : M.Reachable M.init :=
  ReachableBy.init

theorem Reachable.step {s t : S} {a : A} (before : M.Reachable s)
    (taken : M.step s a = some t) : M.Reachable t :=
  ReachableBy.step before trivial taken

/-- Every state that a restricted run reaches is reached by a run without restriction. -/
theorem ReachableBy.reachable {s : S} (h : M.ReachableBy ok s) : M.Reachable s := by
  induction h with
  | init => exact Reachable.init
  | step _ _ taken ih => exact ih.step taken

/-- A weaker condition on the steps allows more runs, so at least the same states are reached. -/
theorem ReachableBy.mono {ok' : S → A → Prop} {s : S} (h : M.ReachableBy ok s)
    (weaker : ∀ s a, ok s a → ok' s a) : M.ReachableBy ok' s := by
  induction h with
  | init => exact .init
  | step _ allowed taken ih => exact ih.step (weaker _ _ allowed) taken

/-- **The invariant rule.**  What holds initially and survives every allowed step
from a reachable state holds in every state reached. -/
theorem ReachableBy.invariant {I : S → Prop} (start : I M.init)
    (preserved : ∀ {s : S} {a : A} {t : S}, M.ReachableBy ok s → I s → ok s a →
      M.step s a = some t → I t) {s : S} (h : M.ReachableBy ok s) : I s := by
  induction h with
  | init => exact start
  | step before allowed taken ih => exact preserved before ih allowed taken

/-- The invariant rule for runs whose steps are not restricted: the case of a condition that
always holds. -/
theorem Reachable.invariant {I : S → Prop} (start : I M.init)
    (preserved : ∀ {s : S} {a : A} {t : S}, M.Reachable s → I s →
      M.step s a = some t → I t) {s : S} (h : M.Reachable s) : I s :=
  ReachableBy.invariant start
    (fun before inv _ taken => preserved before.reachable inv taken) h

/-- The machine **leads** from `s` to `t` if some finite sequence of enabled steps takes the one
to the other. -/
def Leads (M : Machine S A) : S → S → Prop :=
  Relation.ReflTransGen fun s t => ∃ a, M.step s a = some t

theorem Reachable.leads {s t : S} (before : M.Reachable s) (leads : M.Leads s t) :
    M.Reachable t := by
  induction leads with
  | refl => exact before
  | tail _ taken ih =>
      obtain ⟨a, taken⟩ := taken
      exact ih.step taken

/-- Follow a list of labels, passing over those that are not enabled or not allowed. -/
def drive (M : Machine S A) (ok : S → A → Prop) [∀ s a, Decidable (ok s a)] :
    S → List A → S
  | s, [] => s
  | s, a :: labels => M.drive ok (if ok s a then (M.step s a).getD s else s) labels

/-- A restricted run that goes on along a list of labels, as `drive` does, is a restricted run
again. -/
theorem ReachableBy.drive [∀ s a, Decidable (ok s a)] {s : S}
    (before : M.ReachableBy ok s) (labels : List A) :
    M.ReachableBy ok (M.drive ok s labels) := by
  induction labels generalizing s with
  | nil => exact before
  | cons a labels ih =>
      refine ih ?_
      by_cases allowed : ok s a
      · rw [if_pos allowed]
        cases taken : M.step s a with
        | none => exact before
        | some t => exact before.step allowed taken
      · rwa [if_neg allowed]

/-- From the state that `s` leads to, any list of labels leads on to a state that `s` leads to. -/
theorem Leads.drive [∀ s a, Decidable (ok s a)] {s t : S} (before : M.Leads s t)
    (labels : List A) : M.Leads s (M.drive ok t labels) := by
  induction labels generalizing t with
  | nil => exact before
  | cons a labels ih =>
      refine ih ?_
      by_cases allowed : ok t a
      · rw [if_pos allowed]
        cases taken : M.step t a with
        | none => exact before
        | some u => exact before.tail ⟨a, taken⟩
      · rwa [if_neg allowed]

/-! ## Progress -/

/-- **The variant rule.**  Where every state of `I` short of the goal leads to one in which the
variant is smaller, every state of `I` leads to the goal. -/
theorem exists_leads_of_variant {α : Type} [Preorder α] [WellFoundedLT α] (variant : S → α)
    (I goal : S → Prop)
    (progress : ∀ s, I s → ¬ goal s → ∃ t, M.Leads s t ∧ I t ∧ variant t < variant s) {s : S}
    (h : I s) : ∃ t, M.Leads s t ∧ I t ∧ goal t := by
  induction s using (InvImage.wf variant (wellFounded_lt (α := α))).induction with
  | _ s ih =>
      by_cases there : goal s
      · exact ⟨s, .refl, h, there⟩
      · obtain ⟨t, leads, inv, less⟩ := progress s h there
        obtain ⟨u, leads', inv', there'⟩ := ih t less inv
        exact ⟨u, leads.trans leads', inv', there'⟩

/-- **The rule of one party after the other.** If, under the invariant, each party that is not
done can be brought to be done without undoing any other, then a state is reached in which all
are done. -/
theorem exists_leads_forall {ι : Type} [Fintype ι] (I : S → Prop) (done : ι → S → Prop)
    (each : ∀ s, I s → ∀ i, ¬ done i s →
      ∃ t, M.Leads s t ∧ I t ∧ done i t ∧ ∀ j, done j s → done j t) {s : S} (h : I s) :
    ∃ t, M.Leads s t ∧ I t ∧ ∀ i, done i t := by
  classical
  refine exists_leads_of_variant (fun s => (Finset.univ.filter fun i => ¬ done i s).card) I _ ?_ h
  intro s h open_
  obtain ⟨i, hi⟩ := not_forall.mp open_
  obtain ⟨t, leads, inv, now, kept⟩ := each s h i hi
  refine ⟨t, leads, inv, Finset.card_lt_card ⟨fun j hj => ?_, fun all => ?_⟩⟩
  · simp only [Finset.mem_filter, Finset.mem_univ, true_and] at hj ⊢
    exact fun before => hj (kept j before)
  · have still := all (Finset.mem_filter.mpr ⟨Finset.mem_univ i, hi⟩)
    exact (Finset.mem_filter.mp still).2 now

/-! ## Views -/

section View

variable {T : Type} {N : Machine T A} {view : S → T}

/-- **A machine seen through `view`.**  When each step of one machine is, seen through `view`, the
step of another, so are the states they reach. -/
theorem reachable_iff_of_view (start : view M.init = N.init)
    (commutes : ∀ s a, N.step (view s) a = (M.step s a).map view) {t : T} :
    N.Reachable t ↔ ∃ s, M.Reachable s ∧ view s = t := by
  constructor
  · intro h
    refine h.invariant (I := fun t => ∃ s, M.Reachable s ∧ view s = t) ⟨_, .init, start⟩ ?_
    rintro _ a u - ⟨s, before, rfl⟩ taken
    rw [commutes, Option.map_eq_some_iff] at taken
    obtain ⟨s', taken, rfl⟩ := taken
    exact ⟨s', before.step taken, rfl⟩
  · rintro ⟨s, h, rfl⟩
    refine h.invariant (I := fun s => N.Reachable (view s)) (start ▸ .init) ?_
    intro s a s' _ before taken
    exact before.step (by rw [commutes, taken, Option.map_some])

end View

/-! ## Histories -/

section Recording

variable {G : Type} {start : G} {record : S → A → S → G → G}

/-- **A machine with a history**: `record` computes from the state before a step, its label and
the state after it what is noted, and no step reads the notes. -/
def recording (M : Machine S A) (start : G) (record : S → A → S → G → G) :
    Machine (S × G) A where
  init := (M.init, start)
  step s a := (M.step s.1 a).map fun t => (t, record s.1 a t s.2)

theorem recording_step {s t : S × G} {a : A} :
    (M.recording start record).step s a = some t ↔
      M.step s.1 a = some t.1 ∧ t.2 = record s.1 a t.1 s.2 := by
  obtain ⟨t, g⟩ := t
  simp only [recording, Option.map_eq_some_iff, Prod.mk.injEq]
  constructor
  · rintro ⟨_, taken, rfl, rfl⟩
    exact ⟨taken, rfl⟩
  · rintro ⟨taken, rfl⟩
    exact ⟨t, taken, rfl, rfl⟩

/-- A run of the machine with a history is a run of the machine itself once the history is
dropped. -/
theorem ReachableBy.of_recording {s : S × G}
    (h : (M.recording start record).ReachableBy (fun s a => ok s.1 a) s) :
    M.ReachableBy ok s.1 := by
  refine h.invariant (I := fun s => M.ReachableBy ok s.1) .init ?_
  intro s a t _ before allowed taken
  exact before.step allowed (recording_step.mp taken).1

/-- Every run of the machine is the run of the machine with a history for some history. -/
theorem ReachableBy.exists_recording {s : S} (h : M.ReachableBy ok s) :
    ∃ g, (M.recording start record).ReachableBy (fun s a => ok s.1 a) (s, g) := by
  induction h with
  | init => exact ⟨start, .init⟩
  | @step s a t _ allowed taken ih =>
      obtain ⟨g, before⟩ := ih
      exact ⟨record s a t g, before.step allowed (recording_step.mpr ⟨taken, rfl⟩)⟩

theorem Reachable.of_recording {s : S × G} (h : (M.recording start record).Reachable s) :
    M.Reachable s.1 :=
  ReachableBy.of_recording h

end Recording

end Machine

/-! ## Parties -/

/-- One, two and three are not zero, so a system can have that many parties.  The instances have
names, so that such a system means the same in whichever file it is written down. -/
instance oneParty : NeZero 1 := ⟨by decide⟩

instance twoParties : NeZero 2 := ⟨by decide⟩

instance threeParties : NeZero 3 := ⟨by decide⟩

section PartySum

variable {ι α M : Type} [Fintype ι] [DecidableEq ι] [AddCommMonoid M]

/-- **One party changes.**  The new total together with the party's old share is
the old total together with its new share. -/
theorem sum_update_add (f : α → M) (state : ι → α) (i : ι) (new : α) :
    ∑ j, f (Function.update state i new j) + f (state i)
      = ∑ j, f (state j) + f new := by
  rw [← Finset.add_sum_erase _ _ (Finset.mem_univ i),
    ← Finset.add_sum_erase _ (fun j => f (state j)) (Finset.mem_univ i)]
  have rest : ∑ j ∈ Finset.univ.erase i, f (Function.update state i new j)
      = ∑ j ∈ Finset.univ.erase i, f (state j) :=
    Finset.sum_congr rfl fun j hj => by
      rw [Function.update_of_ne (Finset.ne_of_mem_erase hj)]
  rw [rest, Function.update_self]
  abel

/-- A party whose share does not change leaves the total over all parties as it was. -/
theorem sum_update_eq (f : α → M) (state : ι → α) (i : ι) {new : α}
    (same : f new = f (state i)) :
    ∑ j, f (Function.update state i new j) = ∑ j, f (state j) := by
  refine Finset.sum_congr rfl fun j _ => ?_
  by_cases hj : j = i
  · subst hj
    rw [Function.update_self, same]
  · rw [Function.update_of_ne hj]

/-- **One entry of a table changes.** The identity `sum_update_add` for a total over pairs of
parties, of which one pair gets a new value. -/
theorem sum_sum_update_add {κ N : Type} [Fintype κ] [DecidableEq κ] [AddCancelCommMonoid N]
    (f : α → N) (state : ι → κ → α) (i : ι) (k : κ) (new : α) :
    ∑ j, ∑ l, f (Function.update state i (Function.update (state i) k new) j l) + f (state i k)
      = ∑ j, ∑ l, f (state j l) + f new := by
  have rows := sum_update_add (fun row : κ → α => ∑ l, f (row l)) state i
    (Function.update (state i) k new)
  have row := sum_update_add f (state i) k new
  refine add_right_cancel (b := ∑ l, f (state i l)) ?_
  rw [add_right_comm, rows, add_assoc, row, ← add_assoc, add_right_comm]

omit [DecidableEq ι] in
/-- Picking items from a sum of multisets is the same as picking them from each multiset and
summing up. -/
theorem filterMap_sum {β : Type} (f : α → Option β) (parts : ι → Multiset α) :
    (∑ i, parts i).filterMap f = ∑ i, (parts i).filterMap f :=
  map_sum (⟨⟨Multiset.filterMap f, rfl⟩, Multiset.filterMap_add f⟩ : Multiset α →+ Multiset β)
    parts Finset.univ

omit [DecidableEq ι] in
theorem filter_sum (p : α → Prop) [DecidablePred p] (parts : ι → Multiset α) :
    (∑ i, parts i).filter p = ∑ i, (parts i).filter p :=
  map_sum (⟨⟨Multiset.filter p, rfl⟩, Multiset.filter_add p⟩ : Multiset α →+ Multiset α)
    parts Finset.univ

/-- A multiset is the sum of its parts when every member is put into the part it belongs to. -/
theorem sum_filter_eq (f : α → ι) (items : Multiset α) :
    ∑ i, items.filter (fun x => f x = i) = items := by
  induction items using Multiset.induction_on with
  | empty => simp
  | cons x items ih =>
      have parts : ∀ i, (x ::ₘ items).filter (fun x => f x = i)
          = (if f x = i then {x} else 0) + items.filter (fun x => f x = i) := by
        intro i
        by_cases here : f x = i <;> simp [here]
      simp only [parts, Finset.sum_add_distrib, ih, Finset.sum_ite_eq, Finset.mem_univ, ↓reduceIte]
      rfl

/-- Two ways of picking that agree on the members of a multiset pick the same items from it. -/
theorem filterMap_congr {β : Type} {f g : α → Option β} {items : Multiset α}
    (h : ∀ x ∈ items, f x = g x) : items.filterMap f = items.filterMap g := by
  induction items using Quotient.inductionOn with
  | h items => exact congrArg _ (List.filterMap_congr h)

theorem filterMap_eq_zero {β : Type} {f : α → Option β} {items : Multiset α}
    (h : ∀ x ∈ items, f x = none) : items.filterMap f = 0 := by
  rw [filterMap_congr h]
  exact Multiset.eq_zero_of_forall_notMem (by simp)

end PartySum

end YGM
