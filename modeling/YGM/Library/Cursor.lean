import Mathlib.Data.List.Basic
import Mathlib.Data.List.Nodup
import Mathlib.Order.Nat

/-!
# Walking along a list that changes

A list of entries with identities of their own is walked with a cursor: a function is
applied to the entry at the cursor, and then the cursor goes on to what follows that
entry (`walk`).  The function may change the list, and an entry that is gone can neither
be looked at nor left.

What the walk should do is said by `snapshot`: apply the function to the entries of the
range as it was at the start, each one if it is still there.  It does that if and only if
every entry, after the function was applied to it, is followed by the next one of that
range, or by its end (`proper_iff_calm`).

All that is assumed of the function is that entries do not change their order and that an
identity is not used again (`Keeps`).
-/

namespace YGM

/-- **A linked list of entries**, as a state of which only the identities of the entries and the
identities still unused matter. -/
structure Linked (S : Type) where
  ids : S → List ℕ
  /-- The first unused identity: all entries have smaller ones, and later entries get this one
  or greater ones. -/
  fresh : S → ℕ
  nodup : ∀ s, (ids s).Nodup
  below : ∀ s, ∀ i ∈ ids s, i < fresh s

/-- The entry that follows `i` in a list: `none` if `i` is not in the list, `some none` if `i`
is its last entry. -/
def after (i : ℕ) : List ℕ → Option (Option ℕ)
  | [] => none
  | j :: rest => if j = i then some rest.head? else after i rest

/-- How a walk with a cursor ends: with a state and the entries to which it has applied the
function, in an error, or out of fuel. -/
inductive WalkEnd (S : Type)
  | returned (s : S) (applied : List ℕ)
  /-- The walk has stepped on from an entry that is no longer in the list. -/
  | erased
  | unfinished

namespace Linked

variable {S : Type} (L : Linked S)

/-- **The state `s'` is later than `s`**: the entries of `s` that are left have kept their
order, and all other entries have identities that were unused in `s`. -/
structure Keeps (s s' : S) : Prop where
  fresh : L.fresh s ≤ L.fresh s'
  order : ((L.ids s').filter fun i => i < L.fresh s).Sublist (L.ids s)

variable {L}

theorem Keeps.refl (s : S) : L.Keeps s s :=
  ⟨le_rfl, List.filter_sublist⟩

theorem Keeps.trans {s s' s'' : S} (h : L.Keeps s s') (h' : L.Keeps s' s'') : L.Keeps s s'' := by
  refine ⟨h.fresh.trans h'.fresh, ?_⟩
  have later := (h'.order.filter fun i => decide (i < L.fresh s)).trans h.order
  rw [List.filter_filter] at later
  have same : (L.ids s'').filter (fun i => i < L.fresh s)
      = (L.ids s'').filter (fun i => decide (i < L.fresh s) && decide (i < L.fresh s')) := by
    refine List.filter_congr fun i _ => ?_
    by_cases old : i < L.fresh s
    · simp [old, old.trans_le h.fresh]
    · simp [old]
  rw [same]
  exact later

/-- An entry of an identity already used that is not in the list is in no later list either. -/
theorem Keeps.not_mem {s s' : S} (h : L.Keeps s s') {i : ℕ} (old : i < L.fresh s)
    (gone : i ∉ L.ids s) : i ∉ L.ids s' := fun back =>
  gone (h.order.subset (List.mem_filter.mpr ⟨back, by simpa using old⟩))

section Walk

variable (L) (call : ℕ → S → S) (last : Option ℕ)

/-- **The walk**, which applies `call` to the entry under the cursor and steps on, from the
cursor `itr` until the cursor reaches `last`. -/
def walk : ℕ → Option ℕ → S → List ℕ → WalkEnd S
  | fuel, itr, s, applied =>
      if itr = last then .returned s applied
      else
        match fuel, itr with
        | 0, _ => .unfinished
        | _ + 1, none => .erased
        | fuel + 1, some i =>
            if i ∈ L.ids s then
              match after i (L.ids (call i s)) with
              | none => .erased
              | some itr' => walk fuel itr' (call i s) (applied ++ [i])
            else .erased

/-- **The snapshot of a walk**: apply the function, in order, to those entries of the range that
are still in the list when their turn comes. -/
def snapshot : List ℕ → S → S × List ℕ
  | [], s => (s, [])
  | i :: range, s =>
      if i ∈ L.ids s then
        let out := snapshot range (call i s)
        (out.1, i :: out.2)
      else snapshot range s

/-- The first entry of the range that is still in the list, or the end of the range if there is
none. -/
def first (range : List ℕ) (s : S) : Option ℕ :=
  (range.filter fun i => i ∈ L.ids s).head?.or last

/-- **No call of the function disturbs the walk**: after the call for an entry, the entry is
still in the list and followed by the next entry of the range, or by the end of the range. -/
def Calm : List ℕ → S → Prop
  | [], _ => True
  | i :: range, s =>
      if i ∈ L.ids s then
        after i (L.ids (call i s)) = some (L.first last range (call i s)) ∧
          Calm range (call i s)
      else Calm range s

instance : (range : List ℕ) → (s : S) → Decidable (L.Calm call last range s)
  | [], _ => .isTrue trivial
  | i :: range, s =>
      have := instDecidableCalm range (call i s)
      have := instDecidableCalm range s
      inferInstanceAs (Decidable (if i ∈ L.ids s then
        after i (L.ids (call i s)) = some (L.first last range (call i s)) ∧
          L.Calm call last range (call i s)
        else L.Calm call last range s))

/-- **A proper walk**: it reaches its end without using an erased entry, and has applied the
function once to each entry of the range that has not been erased, and to no entry outside the
range. -/
def Proper (range : List ℕ) (itr : Option ℕ) (s : S) : Prop :=
  ∃ fuel s' applied, L.walk call last fuel itr s [] = .returned s' applied ∧
    applied.Nodup ∧ (∀ i ∈ applied, i ∈ range) ∧ ∀ i ∈ range, i ∈ L.ids s' → i ∈ applied

end Walk

variable {call : ℕ → S → S} {last : Option ℕ}

/-! ## Calm walks -/

/-- An entry that is in the list is the first entry of any range that starts with it. -/
theorem first_cons_of_mem {i : ℕ} {range : List ℕ} {s : S} (here : i ∈ L.ids s) :
    L.first last (i :: range) s = some i := by
  simp [first, here]

theorem first_cons_of_not_mem {i : ℕ} {range : List ℕ} {s : S} (gone : i ∉ L.ids s) :
    L.first last (i :: range) s = L.first last range s := by
  simp [first, gone]

/-- **A calm walk is the snapshot**: with enough fuel it returns, with the state of the snapshot
and after applying the function to the same entries in the same order. -/
theorem walk_of_calm {range : List ℕ} (apart : ∀ i ∈ range, last ≠ some i) {s : S}
    (calm : L.Calm call last range s) (applied : List ℕ) :
    ∃ fuel, L.walk call last fuel (L.first last range s) s applied
      = .returned (L.snapshot call range s).1 (applied ++ (L.snapshot call range s).2) := by
  induction range generalizing s applied with
  | nil => exact ⟨0, by simp [walk, first, snapshot]⟩
  | cons i range ih =>
      rw [List.forall_mem_cons] at apart
      by_cases here : i ∈ L.ids s
      · rw [Calm, if_pos here] at calm
        obtain ⟨fuel, rest⟩ := ih apart.2 calm.2 (applied ++ [i])
        refine ⟨fuel + 1, ?_⟩
        rw [first_cons_of_mem here, walk, if_neg (Ne.symm apart.1)]
        simp only [here, if_true, calm.1, rest, snapshot]
        simp
      · rw [Calm, if_neg here] at calm
        obtain ⟨fuel, rest⟩ := ih apart.2 calm applied
        refine ⟨fuel, ?_⟩
        rw [first_cons_of_not_mem here, rest, snapshot, if_neg here]

theorem snapshot_sublist (range : List ℕ) (s : S) : (L.snapshot call range s).2.Sublist range := by
  induction range generalizing s with
  | nil => simp [snapshot]
  | cons i range ih =>
      rw [snapshot]
      split
      · exact (ih _).cons_cons i
      · exact (ih _).cons i

section Keeps

variable (keeps : ∀ i s, L.Keeps s (call i s))
include keeps

theorem snapshot_keeps (range : List ℕ) (s : S) : L.Keeps s (L.snapshot call range s).1 := by
  induction range generalizing s with
  | nil => exact .refl s
  | cons i range ih =>
      rw [snapshot]
      split
      · exact (keeps i s).trans (ih _)
      · exact ih s

/-- An entry of the range that is still in the list after the snapshot is one to which the
snapshot has applied the function. -/
theorem mem_snapshot {range : List ℕ} {s : S} {i : ℕ} (hi : i ∈ range) (old : i < L.fresh s)
    (left : i ∈ L.ids (L.snapshot call range s).1) : i ∈ (L.snapshot call range s).2 := by
  induction range generalizing s with
  | nil => simp at hi
  | cons j range ih =>
      rw [snapshot] at left ⊢
      by_cases here : j ∈ L.ids s
      · simp only [here, if_true] at left ⊢
        rcases List.mem_cons.mp hi with rfl | hi
        · simp
        · exact List.mem_cons_of_mem _ (ih hi (old.trans_le (keeps j s).fresh) left)
      · simp only [here, if_false] at left ⊢
        rcases List.mem_cons.mp hi with rfl | hi
        · exact absurd left ((snapshot_keeps keeps range s).not_mem old here)
        · exact ih hi old left

end Keeps

/-! ## Proper walks -/

/-- **An entry that is followed by something is in the list**, which splits at the entry, and
what follows the entry is the head of the back part. -/
theorem after_eq_some {i : ℕ} {l : List ℕ} {itr : Option ℕ} (h : after i l = some itr) :
    ∃ front back, l = front ++ i :: back ∧ itr = back.head? := by
  induction l with
  | nil => cases h
  | cons j rest ih =>
      rw [after] at h
      split at h
      case isTrue same =>
        exact ⟨[], rest, by rw [same]; rfl, (Option.some.inj h).symm⟩
      case isFalse =>
        obtain ⟨front, back, rfl, rfl⟩ := ih h
        exact ⟨j :: front, back, rfl, rfl⟩

/-- If a list split at an entry is a sublist of another list split at the same entry, its two
parts are sublists of the parts of the other list. -/
theorem sublist_split {i : ℕ} {front back before behind : List ℕ}
    (h : (front ++ i :: back).Sublist (before ++ i :: behind))
    (nodup : (before ++ i :: behind).Nodup) :
    front.Sublist before ∧ back.Sublist behind := by
  induction before generalizing front with
  | nil =>
      have apart : i ∉ behind := (List.nodup_cons.mp nodup).1
      cases front with
      | nil => exact ⟨.slnil, List.cons_sublist_cons.mp h⟩
      | cons j front =>
          rcases List.cons_sublist_cons'.mp h with below | ⟨-, below⟩ <;>
            exact absurd (below.subset (by simp)) apart
  | cons b before ih =>
      rw [List.cons_append, List.nodup_cons] at nodup
      cases front with
      | nil =>
          rcases List.cons_sublist_cons'.mp h with below | ⟨same, -⟩
          · exact ⟨by simp, (@ih [] below nodup.2).2⟩
          · exact absurd (by simp [same]) nodup.1
      | cons j front =>
          rcases List.cons_sublist_cons'.mp h with below | ⟨rfl, below⟩
          · obtain ⟨left, right⟩ := @ih (j :: front) below nodup.2
            exact ⟨left.cons b, right⟩
          · obtain ⟨left, right⟩ := ih below nodup.2
            exact ⟨left.cons_cons j, right⟩

/-- **If an entry is followed by an old entry that is not behind the range, or by the end of the
range, it is followed by the next entry of the range**: none of the entries between has been
left out. -/
theorem first_of_after {s s' : S} (keeps : L.Keeps s s') {before range behind : List ℕ} {i : ℕ}
    (all : L.ids s = before ++ i :: (range ++ behind)) {itr : Option ℕ}
    (found : after i (L.ids s') = some itr)
    (known : itr = behind.head? ∨ ∃ j, itr = some j ∧ j < L.fresh s ∧ j ∉ behind) :
    itr = L.first behind.head? range s' := by
  obtain ⟨front, back, split, rfl⟩ := after_eq_some found
  have nodup := L.nodup s
  have below := L.below s
  rw [all] at nodup below
  have old : i < L.fresh s := below i (by simp)
  have order := keeps.order
  rw [split, all, List.filter_append, List.filter_cons_of_pos (by simpa using old)] at order
  obtain ⟨left, right⟩ := sublist_split order nodup
  have parts := List.nodup_append.mp nodup
  have apart := List.nodup_append.mp (List.nodup_cons.mp parts.2.1).2
  -- what is left of the range is behind the entry
  have survivors : ∀ r ∈ range, r ∈ L.ids s' → r ∈ back.filter fun j => j < L.fresh s := by
    intro r hr there
    have small : r < L.fresh s := below r (by simp [hr])
    rw [split] at there
    rcases List.mem_append.mp there with there | there
    · have : r ∈ before := left.subset (List.mem_filter.mpr ⟨there, by simpa using small⟩)
      exact absurd rfl (parts.2.2 r this r (by simp [hr]))
    · rcases List.mem_cons.mp there with rfl | there
      · exact absurd (by simp [hr]) (List.nodup_cons.mp parts.2.1).1
      · exact List.mem_filter.mpr ⟨there, by simpa using small⟩
  have none_left : (∀ r ∈ range, r ∉ L.ids s') → L.first behind.head? range s' = behind.head? := by
    intro gone
    have : range.filter (fun r => r ∈ L.ids s') = [] :=
      List.filter_eq_nil_iff.mpr fun r hr => by simpa using gone r hr
    simp [first, this]
  cases back with
  | nil =>
      rcases known with last | ⟨j, none, -⟩
      · rw [last, none_left fun r hr there => by simpa using survivors r hr there]
      · cases none
  | cons b back =>
      rcases known with last | ⟨j, same, small, inside⟩
      · -- the end of the range
        cases behind with
        | nil => cases last
        | cons l behind =>
            obtain rfl : b = l := Option.some.inj last
            have small : b < L.fresh s := below b (by simp)
            rw [List.filter_cons_of_pos (by simpa using small)] at right survivors
            have rest := (@sublist_split _ [] _ _ _ right
              (List.nodup_cons.mp parts.2.1).2).2
            rw [none_left fun r hr there => ?_]
            · rfl
            · rcases List.mem_cons.mp (survivors r hr there) with rfl | later
              · exact absurd rfl (apart.2.2 r hr r (by simp))
              · exact absurd rfl (apart.2.2 r hr r (by simp [rest.subset later]))
      · -- an entry of the range
        obtain rfl : b = j := Option.some.inj same
        rw [List.filter_cons_of_pos (by simpa using small)] at right survivors
        have inRange : b ∈ range :=
          (List.mem_append.mp (right.subset (by simp))).resolve_right inside
        obtain ⟨early, late, rfl⟩ := List.append_of_mem inRange
        rw [List.append_assoc, List.cons_append] at right
        have nodup' := (List.nodup_cons.mp parts.2.1).2
        rw [List.append_assoc, List.cons_append] at nodup'
        have rest := (@sublist_split _ [] _ _ _ right nodup').2
        have gone : early.filter (fun r => r ∈ L.ids s') = [] := by
          refine List.filter_eq_nil_iff.mpr fun r hr there => ?_
          have apart' := (List.nodup_append.mp nodup').2.2 r hr
          rcases List.mem_cons.mp (survivors r (by simp [hr]) (by simpa using there)) with
            rfl | later
          · exact apart' r (by simp) rfl
          · exact apart' r (List.mem_cons_of_mem _ (rest.subset later)) rfl
        have there : b ∈ L.ids s' := by simp [split]
        simp [first, List.filter_append, gone, there]

/-- The entries to which a walk has applied the function stay on record until it returns, and
the entry under its cursor is added to them unless the cursor is at the end. -/
theorem walk_applied {fuel : ℕ} {itr : Option ℕ} {s s' : S} {applied applied' : List ℕ}
    (h : L.walk call last fuel itr s applied = .returned s' applied') :
    (∀ i ∈ applied, i ∈ applied') ∧ (itr = last ∨ ∃ i, itr = some i ∧ i ∈ L.ids s ∧ i ∈ applied') := by
  induction fuel generalizing itr s applied with
  | zero =>
      rw [walk] at h
      split at h
      case isTrue atLast =>
        cases h
        exact ⟨fun _ => id, .inl atLast⟩
      case isFalse => cases h
  | succ fuel ih =>
      by_cases atLast : itr = last
      · cases itr <;>
        · rw [walk, if_pos atLast] at h
          cases h
          exact ⟨fun _ => id, .inl atLast⟩
      · cases itr with
        | none =>
            rw [walk, if_neg atLast] at h
            cases h
        | some i =>
            rw [walk, if_neg atLast] at h
            split at h
            case isTrue here =>
              split at h
              case h_1 => cases h
              case h_2 itr' _ =>
                have more := (ih h).1
                exact ⟨fun j hj => more j (by simp [hj]), .inr ⟨i, rfl, here, more i (by simp)⟩⟩
            case isFalse => cases h

/-- **A walk that returns and has applied the function to entries of the range only is calm**:
no call on its way has disturbed it. -/
theorem calm_of_walk (keeps : ∀ i s, L.Keeps s (call i s)) {start : S}
    {before all behind : List ℕ} (whole : L.ids start = before ++ (all ++ behind))
    {range done : List ℕ} (parts : all = done ++ range) {s s' : S} (later : L.Keeps start s)
    {fuel : ℕ} {applied applied' : List ℕ}
    (h : L.walk call behind.head? fuel (L.first behind.head? range s) s applied
      = .returned s' applied') (inside : ∀ i ∈ applied', i ∈ all) :
    L.Calm call behind.head? range s := by
  induction range generalizing done s fuel applied with
  | nil => trivial
  | cons i range ih =>
      by_cases here : i ∈ L.ids s
      · rw [Calm, if_pos here]
        have nodup := L.nodup start
        have below := L.below start
        rw [whole] at nodup below
        have apart := (List.nodup_append.mp (List.nodup_append.mp nodup).2.1).2.2
        have notLast : some i ≠ behind.head? := by
          intro same
          exact absurd rfl (apart i (by simp [parts]) i (List.mem_of_mem_head? same.symm))
        rw [first_cons_of_mem here] at h
        cases fuel with
        | zero =>
            rw [walk, if_neg notLast] at h
            cases h
        | succ fuel =>
            rw [walk, if_neg notLast] at h
            simp only [here, if_true] at h
            split at h
            case h_1 => cases h
            case h_2 itr found =>
              have next := later.trans (keeps i s)
              have split : L.ids start = (before ++ done) ++ i :: (range ++ behind) := by
                simp [whole, parts]
              have itr_eq := first_of_after next split found (by
                rcases (walk_applied h).2 with last | ⟨j, same, -, hj⟩
                · exact .inl last
                · have inAll := inside j hj
                  exact .inr ⟨j, same, below j (by simp [inAll]),
                    fun out => absurd rfl (apart j inAll j out)⟩)
              subst itr_eq
              exact ⟨found, @ih (done ++ [i]) (by simp [parts]) _ next _ _ h⟩
      · rw [Calm, if_neg here]
        rw [first_cons_of_not_mem here] at h
        exact @ih (done ++ [i]) (by simp [parts]) _ later _ _ h

/-- **A walk is proper if and only if it is calm**, for a function that keeps the order of the
entries and takes unused identities for new ones. -/
theorem proper_iff_calm (keeps : ∀ i s, L.Keeps s (call i s)) {s : S}
    {before range behind : List ℕ} (whole : L.ids s = before ++ (range ++ behind)) :
    L.Proper call behind.head? range (range ++ behind).head? s
      ↔ L.Calm call behind.head? range s := by
  have nodup := L.nodup s
  rw [whole] at nodup
  have parts := List.nodup_append.mp (List.nodup_append.mp nodup).2.1
  have begins : (range ++ behind).head? = L.first behind.head? range s := by
    have there : range.filter (fun i => i ∈ L.ids s) = range :=
      List.filter_eq_self.mpr fun i hi => by simp [whole, hi]
    rw [first, there, List.head?_append]
  constructor
  · rintro ⟨fuel, s', applied, returned, -, inside, -⟩
    rw [begins] at returned
    have parts : range = [] ++ range := rfl
    exact calm_of_walk keeps whole parts (.refl s) returned inside
  · intro calm
    have apart : ∀ i ∈ range, behind.head? ≠ some i := fun i hi same =>
      absurd rfl (parts.2.2 i hi i (List.mem_of_mem_head? same))
    obtain ⟨fuel, returned⟩ := walk_of_calm apart calm []
    have inRange : (L.snapshot call range s).2.Sublist range := snapshot_sublist range s
    refine ⟨fuel, _, _, by rw [begins]; exact returned, ?_, ?_, ?_⟩
    · simpa using inRange.nodup parts.1
    · simpa using fun i hi => inRange.subset hi
    · intro i hi left
      simpa using mem_snapshot keeps hi (L.below s i (by simp [whole, hi])) left

end Linked

end YGM
