import Mathlib.Order.OrderIsoNat
import YGM.Library.Machine

/-!
# Fair runs

A run of a machine that goes on for ever (`Machine.Run`), possibly by doing nothing from
some point on, and what it means that it is fair to one of the parties of the machine
(`Run.Just`): a party that can always move moves.

* `Run.Just.exists_takes` — a party that can move until it does, does.
* `Run.exists_forall_eq` — a variant that never grows settles.
* `Run.seen` — a run seen through a map of states that hides some steps of it, and
  `Just.transfer`, by which it is fair.
* `Machine.play` — a schedule that is followed to a state in which nobody can move is a run,
  and fair to everybody (`Machine.just_play`).
-/

namespace YGM

namespace Machine

variable {S A : Type} {M : Machine S A}

/-- **A run for ever**, in which a machine may also stand still at any step. -/
structure Run (M : Machine S A) where
  /-- The states through which the run goes, one for each natural number. -/
  state : ℕ → S
  /-- The step that leaves each of them, if there is one. -/
  label : ℕ → Option A
  start : state 0 = M.init
  moves : ∀ {i a}, label i = some a → M.step (state i) a = some (state (i + 1))
  rests : ∀ {i}, label i = none → state (i + 1) = state i

namespace Run

variable (ρ : M.Run) (acts : A → Prop)

/-- The `i`-th step of the run is one of the steps that `acts` picks. -/
def Takes (i : ℕ) : Prop :=
  ∃ a, ρ.label i = some a ∧ acts a

/-- One of the steps that `acts` picks is enabled in the `i`-th state of the run. -/
def Enables (i : ℕ) : Prop :=
  ∃ a t, acts a ∧ M.step (ρ.state i) a = some t

/-- **Fairness to a party** that takes the given steps: it is not passed over for ever while it
could move. -/
def Just : Prop :=
  ∀ i, ∃ j ≥ i, ρ.Takes acts j ∨ ¬ ρ.Enables acts j

variable {ρ acts}

theorem enables_of_isSome {i : ℕ} {a : A} (here : acts a) (able : (M.step (ρ.state i) a).isSome) :
    ρ.Enables acts i := by
  obtain ⟨t, taken⟩ := Option.isSome_iff_exists.mp able
  exact ⟨a, t, here, taken⟩

theorem leads_succ (i : ℕ) : M.Leads (ρ.state i) (ρ.state (i + 1)) := by
  cases here : ρ.label i with
  | none => exact ρ.rests here ▸ .refl
  | some a => exact .single ⟨a, ρ.moves here⟩

theorem leads {i j : ℕ} (later : i ≤ j) : M.Leads (ρ.state i) (ρ.state j) := by
  induction j, later using Nat.le_induction with
  | base => exact .refl
  | succ j _ ih => exact ih.trans (leads_succ j)

theorem reachable (i : ℕ) : M.Reachable (ρ.state i) :=
  Reachable.leads (ρ.start ▸ .init) (leads (Nat.zero_le i))

/-- A run all of whose steps are allowed goes through states that a restricted run reaches. -/
theorem reachableBy {ok : S → A → Prop} (allowed : ∀ i a, ρ.label i = some a → ok (ρ.state i) a)
    (i : ℕ) : M.ReachableBy ok (ρ.state i) := by
  induction i with
  | zero => exact ρ.start ▸ .init
  | succ i ih =>
      cases label : ρ.label i with
      | none => exact ρ.rests label ▸ ih
      | some a => exact ih.step (allowed i a label) (ρ.moves label)

/-- **A variant that never grows settles**: from some step on it keeps its value, if its values
are well-founded. -/
theorem exists_forall_eq {α : Type} [PartialOrder α] [WellFoundedLT α] (variant : ℕ → α) {i : ℕ}
    (falls : ∀ j ≥ i, variant (j + 1) ≤ variant j) :
    ∃ k ≥ i, ∀ j ≥ k, variant (j + 1) = variant j := by
  have anti : Antitone fun j => variant (i + j) :=
    antitone_nat_of_succ_le fun j => falls (i + j) (Nat.le_add_right i j)
  obtain ⟨k, same⟩ := WellFoundedLT.antitone_chain_condition anti
  refine ⟨i + k, Nat.le_add_right i k, fun j later => ?_⟩
  have here := same (j - i) (by omega)
  have next := same (j + 1 - i) (by omega)
  simp only [show i + (j - i) = j by omega] at here
  simp only [show i + (j + 1 - i) = j + 1 by omega] at next
  exact next.symm.trans here

/-- If for each of finitely many parties a property comes true and stays, there is a time at
which it holds for all of them. -/
theorem exists_forall {ι : Type} [Fintype ι] (P : ι → ℕ → Prop) {i : ℕ}
    (stays : ∀ k, ∀ j ≥ i, P k j → ∀ l ≥ j, P k l) (each : ∀ k, ∃ j ≥ i, P k j) :
    ∃ j ≥ i, ∀ k, P k j := by
  choose j later comes using each
  refine ⟨max i (Finset.univ.sup j), le_max_left _ _, fun k => ?_⟩
  exact stays k (j k) (later k) (comes k) _
    ((Finset.le_sup (Finset.mem_univ k)).trans (le_max_right _ _))

namespace Just

variable {P : ℕ → Prop} {i : ℕ}

/-- **A party that can move until it does, does**, in a run that is fair to it; `P` holds until
then. -/
theorem exists_takes (just : ρ.Just acts) (here : P i)
    (stays : ∀ j ≥ i, P j → ¬ ρ.Takes acts j → P (j + 1))
    (able : ∀ j ≥ i, P j → ρ.Enables acts j) : ∃ j ≥ i, P j ∧ ρ.Takes acts j := by
  by_contra never
  simp only [not_exists, not_and] at never
  have all : ∀ j ≥ i, P j := by
    intro j later
    induction j, later using Nat.le_induction with
    | base => exact here
    | succ j later ih => exact stays j later ih (never j later ih)
  obtain ⟨j, later, takes | unable⟩ := just i
  · exact never j later (all j later) takes
  · exact unable (able j later (all j later))

/-- **Fairness carries over** to a run that enables no more and takes what it enables, from some
step on. -/
theorem transfer {T : Type} {N : Machine T A} {ρ' : N.Run} (just : ρ.Just acts)
    (mirrors : ∀ j ≥ i, ρ'.Enables acts j → ρ.Enables acts j ∧ (ρ.Takes acts j → ρ'.Takes acts j)) :
    ρ'.Just acts := by
  intro k
  obtain ⟨j, later, goes⟩ := just (max i k)
  refine ⟨j, (le_max_right i k).trans later, ?_⟩
  by_cases enabled : ρ'.Enables acts j
  · obtain ⟨able, takes⟩ := mirrors j ((le_max_left i k).trans later) enabled
    exact .inl (takes (goes.resolve_right fun unable => unable able))
  · exact .inr enabled

end Just

/-! ## Runs seen from outside -/

section Seen

variable {T : Type} {N : Machine T A} {view : S → T}

open Classical in
/-- **A run seen through `view`**, where a step is seen as a step of the other machine or is not
seen at all. -/
noncomputable def seen (ρ : M.Run) (view : S → T) (start : view M.init = N.init)
    (steps : ∀ i a, ρ.label i = some a →
      N.step (view (ρ.state i)) a = some (view (ρ.state (i + 1))) ∨
        view (ρ.state (i + 1)) = view (ρ.state i)) : N.Run where
  state i := view (ρ.state i)
  label i := (ρ.label i).filter fun a =>
    decide (N.step (view (ρ.state i)) a = some (view (ρ.state (i + 1))))
  start := by rw [ρ.start, start]
  moves := by
    intro i a here
    exact of_decide_eq_true (Option.filter_eq_some_iff.mp here).2
  rests := by
    intro i hidden
    cases label : ρ.label i with
    | none => rw [ρ.rests label]
    | some a =>
        rw [label, Option.filter_eq_none_iff] at hidden
        have unseen := hidden a rfl
        exact (steps i a label).resolve_left fun moved => unseen (decide_eq_true moved)

theorem seen_label {start : view M.init = N.init}
    {steps : ∀ i a, ρ.label i = some a →
      N.step (view (ρ.state i)) a = some (view (ρ.state (i + 1))) ∨
        view (ρ.state (i + 1)) = view (ρ.state i)} {i : ℕ} {a : A} :
    (ρ.seen view start steps).label i = some a ↔
      ρ.label i = some a ∧ N.step (view (ρ.state i)) a = some (view (ρ.state (i + 1))) := by
  simp only [seen, Option.filter_eq_some_iff, decide_eq_true_eq]

end Seen

end Run

/-! ## Runs that end -/

/-- The state after the first `i` labels of a schedule, which passes over labels that are not
enabled. -/
def after (M : Machine S A) (labels : List A) (i : ℕ) : S :=
  M.drive (fun _ _ => True) M.init (labels.take i)

theorem drive_concat (s : S) (labels : List A) (a : A) :
    M.drive (fun _ _ => True) s (labels ++ [a])
      = (M.step (M.drive (fun _ _ => True) s labels) a).getD
          (M.drive (fun _ _ => True) s labels) := by
  induction labels generalizing s with
  | nil => simp [drive]
  | cons b labels ih => exact ih _

theorem after_succ (labels : List A) (i : ℕ) :
    M.after labels (i + 1)
      = (labels[i]?.bind fun a => M.step (M.after labels i) a).getD (M.after labels i) := by
  rw [after, List.take_add_one]
  cases labels[i]? with
  | none => simp [after]
  | some a => exact drive_concat _ _ _

/-- **A schedule as a run**: its steps, as far as they are enabled, and then nothing. -/
def play (M : Machine S A) (labels : List A) : M.Run where
  state := M.after labels
  label i := labels[i]?.filter fun a => (M.step (M.after labels i) a).isSome
  start := rfl
  moves := by
    intro i a here
    obtain ⟨here, enabled⟩ := Option.filter_eq_some_iff.mp here
    obtain ⟨t, taken⟩ := Option.isSome_iff_exists.mp enabled
    simp [after_succ, here, taken]
  rests := by
    intro i here
    rw [after_succ]
    cases label : labels[i]? with
    | none => rfl
    | some a =>
        rw [label, Option.filter_eq_none_iff] at here
        have disabled : M.step (M.after labels i) a = none := by simpa using here a rfl
        simp [disabled]

theorem after_of_le {labels : List A} {i : ℕ} (late : labels.length ≤ i) :
    M.after labels i = M.after labels labels.length := by
  simp [after, List.take_of_length_le late]

/-- A property that holds up to the end of a schedule holds in every state of the run that plays
it. -/
theorem play_forall {labels : List A} {P : S → Prop}
    (early : ∀ i : Fin (labels.length + 1), P (M.after labels i)) (i : ℕ) :
    P ((M.play labels).state i) := by
  rcases Nat.lt_or_ge i (labels.length + 1) with short | late
  · exact early ⟨i, short⟩
  · show P (M.after labels i)
    rw [after_of_le (Nat.le_of_succ_le late)]
    exact early ⟨labels.length, Nat.lt_succ_self _⟩

/-- A schedule is a run that is fair to every party if nothing can move in the state after it. -/
theorem just_play {labels : List A} (ended : ∀ a, M.step (M.after labels labels.length) a = none)
    (acts : A → Prop) : (M.play labels).Just acts := by
  intro i
  refine ⟨max i labels.length, le_max_left _ _, .inr ?_⟩
  rintro ⟨a, t, -, taken⟩
  change M.step (M.after labels (max i labels.length)) a = some t at taken
  rw [after_of_le (le_max_right _ _), ended] at taken
  cases taken

end Machine

end YGM
