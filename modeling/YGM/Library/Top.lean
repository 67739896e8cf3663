import Mathlib.Algebra.BigOperators.Group.Multiset.Basic
import Mathlib.Data.Multiset.Filter
import Mathlib.Data.Multiset.AddSub
import Mathlib.Data.List.Sort
import Mathlib.Tactic.Abel

/-!
# The first elements by a comparison

`IsTop cfn k all top`: the list `top` has the first `k` elements of `all` in the order
of `cfn`, or all of them if there are fewer.  Which of several equivalent elements are
among them is left open, as it is by sorts that are not stable.

The first elements can be found piece by piece (`IsTop.merge`): an element dropped from
one piece has `k` others before it or level with it, so it is not needed
(`Retains`).
-/

namespace YGM

variable {α : Type} {cfn : α → α → Bool} {k : ℕ}

/-- **A strict weak order** as `std::sort` asks for, with the transitivity of "not before" as
its second law. -/
structure StrictWeak (cfn : α → α → Bool) : Prop where
  asymm : ∀ a b, cfn a b = true → cfn b a = false
  cotrans : ∀ a b c, cfn a b = false → cfn b c = false → cfn a c = false

/-- **A function that sorts** by a comparison: it permutes its list into one in which no element
comes before an earlier one. -/
structure Sorts (cfn : α → α → Bool) (sort : List α → List α) : Prop where
  perm : ∀ l, (sort l).Perm l
  ordered : ∀ l, (sort l).Pairwise fun a b => cfn b a = false

/-- **The list `top` has the first `k` elements of `all`**, in order, or all of them if there
are fewer. -/
structure IsTop (cfn : α → α → Bool) (k : ℕ) (all : Multiset α) (top : List α) : Prop where
  ordered : top.Pairwise fun a b => cfn b a = false
  length : top.length = min k all.card
  first : ∃ rest : Multiset α, all = (top : Multiset α) + rest ∧
    ∀ a ∈ top, ∀ b ∈ rest, cfn b a = false

/-- Some elements of `all` among which its first `k` are: what is dropped has `k` of them
before it or level with it. -/
def Retains (cfn : α → α → Bool) (k : ℕ) (all kept : Multiset α) : Prop :=
  ∃ rest : Multiset α, all = kept + rest ∧
    ∀ x ∈ rest, k ≤ (kept.filter fun y => cfn x y = false).card

theorem Retains.refl (all : Multiset α) : Retains cfn k all all :=
  ⟨0, by simp, by simp⟩

/-- The first `k` elements retain what is needed to find the first `k` elements. -/
theorem IsTop.retains {all : Multiset α} {top : List α} (h : IsTop cfn k all top) :
    Retains cfn k all top := by
  obtain ⟨rest, whole, first⟩ := h.first
  refine ⟨rest, whole, fun x hx => ?_⟩
  have level : (top : Multiset α).filter (fun y => cfn x y = false) = top :=
    Multiset.filter_eq_self.mpr fun a ha => first a ha x hx
  have some : 0 < rest.card := Multiset.card_pos_iff_exists_mem.mpr ⟨x, hx⟩
  have card := congrArg Multiset.card whole
  have length := h.length
  rw [Multiset.card_add, Multiset.coe_card] at card
  rw [level, Multiset.coe_card]
  omega

theorem Retains.add {all all' kept kept' : Multiset α} (h : Retains cfn k all kept)
    (h' : Retains cfn k all' kept') : Retains cfn k (all + all') (kept + kept') := by
  obtain ⟨rest, rfl, dropped⟩ := h
  obtain ⟨rest', rfl, dropped'⟩ := h'
  refine ⟨rest + rest', by abel, fun x hx => ?_⟩
  rw [Multiset.filter_add, Multiset.card_add]
  rcases Multiset.mem_add.mp hx with hx | hx
  · exact (dropped x hx).trans (Nat.le_add_right _ _)
  · exact (dropped' x hx).trans (Nat.le_add_left _ _)

/-- **The first elements of what is retained are the first elements of all.** -/
theorem Retains.isTop (order : StrictWeak cfn) {all kept : Multiset α} {top : List α}
    (h : Retains cfn k all kept) (htop : IsTop cfn k kept top) : IsTop cfn k all top := by
  obtain ⟨rest, rfl, dropped⟩ := h
  obtain ⟨rest', rfl, first⟩ := htop.first
  have length := htop.length
  rw [Multiset.card_add, Multiset.coe_card] at length
  refine ⟨htop.ordered, ?_, rest' + rest, by abel, fun a ha b hb => ?_⟩
  · rcases Multiset.empty_or_exists_mem rest with rfl | ⟨x, hx⟩
    · simpa using length
    · have many := (dropped x hx).trans (Multiset.card_le_card (Multiset.filter_le _ _))
      simp only [Multiset.card_add, Multiset.coe_card] at many ⊢
      omega
  · rcases Multiset.mem_add.mp hb with hb | hb
    · exact first a ha b hb
    -- `b` was dropped: some retained element that is not first comes before it
    by_contra before
    rw [Bool.not_eq_false] at before
    have many := dropped b hb
    rw [Multiset.filter_add, Multiset.card_add] at many
    have fewer : ((top : Multiset α).filter fun y => cfn b y = false).card < top.length := by
      rw [← Multiset.coe_card]
      refine Multiset.card_lt_card (lt_of_le_of_ne (Multiset.filter_le _ _) fun same => ?_)
      have := Multiset.filter_eq_self.mp same a ha
      rw [before] at this
      cases this
    obtain ⟨y, hy⟩ : ∃ y, y ∈ rest'.filter fun y => cfn b y = false := by
      refine Multiset.card_pos_iff_exists_mem.mp ?_
      omega
    rw [Multiset.mem_filter] at hy
    have level := order.cotrans b y a hy.2 (first a ha y hy.1)
    rw [before] at level
    cases level

/-- **By a strict total order** the first elements are the front of the sorted ones. -/
theorem IsTop.eq_take (total : ∀ a b, cfn a b = false → cfn b a = false → a = b)
    {all : Multiset α} {top : List α} {sort : List α → List α} (sorts : Sorts cfn sort)
    (h : IsTop cfn k all top) {sorted : List α} (whole : (sorted : Multiset α) = all)
    (ordered : sorted.Pairwise fun a b => cfn b a = false) : top = sorted.take k := by
  obtain ⟨rest, split, first⟩ := h.first
  have perm : (top ++ sort rest.toList).Perm sorted := by
    rw [← Multiset.coe_eq_coe, ← Multiset.coe_add, Multiset.coe_eq_coe.mpr (sorts.perm _),
      Multiset.coe_toList, whole, split]
  have inOrder : (top ++ sort rest.toList).Pairwise fun a b => cfn b a = false := by
    refine List.pairwise_append.mpr ⟨h.ordered, sorts.ordered _, fun a ha b hb => ?_⟩
    exact first a ha b (Multiset.mem_toList.mp ((sorts.perm _).mem_iff.mp hb))
  have same : top ++ sort rest.toList = sorted :=
    perm.eq_of_pairwise (fun a b _ _ before after => total a b after before) inOrder ordered
  have length := h.length
  rw [← whole, Multiset.coe_card] at length
  calc top = (top ++ sort rest.toList).take top.length := List.take_left.symm
    _ = sorted.take (min k sorted.length) := by rw [same, length]
    _ = sorted.take k := by rw [List.take_eq_take_iff, Nat.min_assoc, Nat.min_self]

/-- The comparison by which elements of a larger size come first. -/
def decreasing (size : α → ℕ) (a b : α) : Bool :=
  decide (size b < size a)

theorem decreasing_order (size : α → ℕ) : StrictWeak (decreasing size) :=
  ⟨by simp only [decreasing, decide_eq_true_eq, decide_eq_false_iff_not]; omega,
    by simp only [decreasing, decide_eq_false_iff_not]; omega⟩

theorem decreasing_sorts (size : α → ℕ) :
    Sorts (decreasing size) (List.insertionSort fun a b => decreasing size b a = false) := by
  have total : Std.Total fun a b : α => decreasing size b a = false :=
    ⟨by simp only [decreasing, decide_eq_false_iff_not]; omega⟩
  have trans : IsTrans α fun a b => decreasing size b a = false :=
    ⟨by simp only [decreasing, decide_eq_false_iff_not]; omega⟩
  exact ⟨List.perm_insertionSort _, List.pairwise_insertionSort _⟩

section Merge

variable {sort : List α → List α}

/-- The first `k` entries of the sorted list are the first `k` elements of the list. -/
theorem Sorts.isTop (sorts : Sorts cfn sort) (k : ℕ) (l : List α) :
    IsTop cfn k l ((sort l).take k) := by
  have ordered := sorts.ordered l
  have split : (l : Multiset α) = ((sort l).take k : Multiset α) + (sort l).drop k := by
    rw [Multiset.coe_add, List.take_append_drop]
    exact (Multiset.coe_eq_coe.mpr (sorts.perm l)).symm
  refine ⟨ordered.sublist (List.take_sublist k _), ?_, _, split, fun a ha b hb => ?_⟩
  · rw [List.length_take, (sorts.perm l).length_eq, Multiset.coe_card]
  · rw [← List.take_append_drop k (sort l), List.pairwise_append] at ordered
    exact ordered.2.2 a ha b hb

/-- **The first elements of two pieces together** are found among those retained from each. -/
theorem Retains.merge (order : StrictWeak cfn) (sorts : Sorts cfn sort) {all all' : Multiset α}
    {kept kept' : List α} (h : Retains cfn k all kept) (h' : Retains cfn k all' kept') :
    IsTop cfn k (all + all') ((sort (kept ++ kept')).take k) :=
  (h.add h').isTop order (by simpa using sorts.isTop k (kept ++ kept'))

end Merge

end YGM
