import Mathlib.Data.Multiset.Fold
import Mathlib.Data.Multiset.Range
import Mathlib.Algebra.BigOperators.Group.Multiset.Basic
import Mathlib.Tactic.Abel

/-!
# Merging along the heap-numbered binary tree

The nodes are the numbers below `n`; node `r` has the children `2r + 1` and `2(r + 1)`,
as far as these are below `n`, and every node but the root `0` has the parent
`(r - 1) / 2`.

`merged` is what a node has when it has merged its own value with those of its
children, first child first.  For an associative and commutative operation the root
then has the merge of all values, each used once (`merged_zero`).  The proof follows
the breadth-first queue of the tree: when the first `k` nodes are taken off, the nodes
`k … 2k` are waiting (`leaves_frontier`), whatever the shape of the last level.
-/

namespace YGM

/-- The number of the first child of node `r` in the heap order. -/
def firstChild (r : ℕ) : ℕ :=
  2 * r + 1

/-- The number of the second child of node `r` in the heap order. -/
def secondChild (r : ℕ) : ℕ :=
  2 * (r + 1)

/-- The number of the parent of node `r` in the heap order, for every `r` but the root. -/
def parent (r : ℕ) : ℕ :=
  (r - 1) / 2

@[simp] theorem parent_firstChild (r : ℕ) : parent (firstChild r) = r := by
  simp only [parent, firstChild]
  omega

@[simp] theorem parent_secondChild (r : ℕ) : parent (secondChild r) = r := by
  simp only [parent, secondChild]
  omega

/-- Every node but the root is the first or the second child of its parent. -/
theorem eq_child_parent {r : ℕ} (h : r ≠ 0) :
    r = firstChild (parent r) ∨ r = secondChild (parent r) := by
  simp only [parent, firstChild, secondChild]
  omega

theorem parent_lt {r : ℕ} (h : r ≠ 0) : parent r < r := by
  simp only [parent]
  omega

theorem firstChild_ne_zero (r : ℕ) : firstChild r ≠ 0 := by simp [firstChild]

theorem secondChild_ne_zero (r : ℕ) : secondChild r ≠ 0 := by simp [secondChild]

variable {α : Type}

/-- `x`, merged with what child `c` contributes, if there is such a child. -/
def mergeChild (merge : α → α → α) (n : ℕ) (contribution : ℕ → α) (x : α) (c : ℕ) : α :=
  if c < n then merge x (contribution c) else x

/-- The merge of the tree below `r`, to a depth of `fuel`: deeper nodes are left out. -/
def mergedTo (merge : α → α → α) (n : ℕ) (input : ℕ → α) : ℕ → ℕ → α
  | 0, r => input r
  | fuel + 1, r =>
      mergeChild merge n (mergedTo merge n input fuel)
        (mergeChild merge n (mergedTo merge n input fuel) (input r) (firstChild r))
        (secondChild r)

/-- **The merge of the tree below `r`**, to its leaves: a node has no more than `n` levels below
it. -/
def merged (merge : α → α → α) (n : ℕ) (input : ℕ → α) (r : ℕ) : α :=
  mergedTo merge n input n r

variable {merge : α → α → α} {n : ℕ} {input : ℕ → α}

/-- The depth to which a tree is merged does not matter once it reaches the last node. -/
theorem mergedTo_eq {fuel fuel' r : ℕ} (h : n ≤ r + fuel) (h' : n ≤ r + fuel') :
    mergedTo merge n input fuel r = mergedTo merge n input fuel' r := by
  induction fuel generalizing r fuel' with
  | zero =>
      cases fuel' with
      | zero => rfl
      | succ fuel' =>
          have first : ¬ firstChild r < n := by simp only [firstChild]; omega
          have second : ¬ secondChild r < n := by simp only [secondChild]; omega
          simp [mergedTo, mergeChild, first, second]
  | succ fuel ih =>
      cases fuel' with
      | zero =>
          have first : ¬ firstChild r < n := by simp only [firstChild]; omega
          have second : ¬ secondChild r < n := by simp only [secondChild]; omega
          simp [mergedTo, mergeChild, first, second]
      | succ fuel' =>
          have first := @ih fuel' (firstChild r)
            (by simp only [firstChild]; omega) (by simp only [firstChild]; omega)
          have second := @ih fuel' (secondChild r)
            (by simp only [secondChild]; omega) (by simp only [secondChild]; omega)
          simp only [mergedTo, mergeChild, first, second]

/-- **A node merges its own value with those of its children**, the first child first. -/
theorem merged_eq (r : ℕ) :
    merged merge n input r =
      mergeChild merge n (merged merge n input)
        (mergeChild merge n (merged merge n input) (input r) (firstChild r))
        (secondChild r) := by
  have deeper : merged merge n input r = mergedTo merge n input (n + 1) r :=
    mergedTo_eq (by omega) (by omega)
  rw [deeper]
  rfl

/-- **Induction along the tree**, from the leaves to the root: what holds of a node whenever it
holds of its children holds of every node. -/
theorem tree_induction {motive : ℕ → Prop} (n : ℕ)
    (node : ∀ r, (firstChild r < n → motive (firstChild r)) →
      (secondChild r < n → motive (secondChild r)) → motive r) (r : ℕ) : motive r := by
  by_cases h : r < n
  · refine node r (fun first => ?_) fun second => ?_
    · exact tree_induction n node (firstChild r)
    · exact tree_induction n node (secondChild r)
  · refine node r (fun first => ?_) fun second => ?_
    · simp only [firstChild] at first
      omega
    · simp only [secondChild] at second
      omega
termination_by n - r
decreasing_by
  all_goals simp only [firstChild, secondChild]; omega

/-- A property of the inputs that merging keeps holds of every merge. -/
theorem merged_mem {good : α → Prop} (inputs : ∀ r, good (input r))
    (closed : ∀ x y, good x → good y → good (merge x y)) (r : ℕ) :
    good (merged merge n input r) := by
  induction r using tree_induction n with
  | node r first second =>
      rw [merged_eq]
      have tmp : good (mergeChild merge n (merged merge n input) (input r) (firstChild r)) := by
        unfold mergeChild
        split
        · rename_i below
          exact closed _ _ (inputs r) (first below)
        · exact inputs r
      rw [mergeChild]
      split
      · rename_i below
        exact closed _ _ tmp (second below)
      · exact tmp

/-- The merge of a tree depends only on the inputs of its nodes. -/
theorem merged_congr {input' : ℕ → α} (same : ∀ i, i < n → input i = input' i) (r : ℕ)
    (below : r < n) : merged merge n input r = merged merge n input' r := by
  induction r using tree_induction n with
  | node r first second =>
      have child : ∀ c x, (c < n → c < n → merged merge n input c = merged merge n input' c) →
          mergeChild merge n (merged merge n input) x c
            = mergeChild merge n (merged merge n input') x c := by
        intro c x subtree
        unfold mergeChild
        split
        · rename_i inside
          rw [subtree inside inside]
        · rfl
      rw [merged_eq, merged_eq, same r below, child _ _ first, child _ _ second]

/-! ## Associative and commutative merges -/

/-- The nodes of the tree below `r`, with `r` itself, each as often as the tree has it. -/
def leaves (n r : ℕ) : Multiset ℕ :=
  merged (· + ·) n (fun r => {r}) r

theorem leaves_eq (n r : ℕ) :
    leaves n r = {r} + (if firstChild r < n then leaves n (firstChild r) else 0)
      + (if secondChild r < n then leaves n (secondChild r) else 0) := by
  rw [leaves, merged_eq]
  by_cases first : firstChild r < n <;> by_cases second : secondChild r < n <;>
    simp [mergeChild, first, second, leaves]

/-- The nodes that are not taken off the breadth-first queue when the first `k` are: those
below the waiting nodes `k … 2k`. -/
def frontier (n k : ℕ) : Multiset ℕ :=
  ((Multiset.range (k + 1)).map fun i => if k + i < n then leaves n (k + i) else 0).sum

theorem frontier_succ {k : ℕ} (h : k < n) :
    frontier n k = {k} + frontier n (k + 1) := by
  have window : ∀ f : ℕ → Multiset ℕ,
      ((Multiset.range (k + 2)).map fun i => f (k + 1 + i)).sum + f k
        = ((Multiset.range (k + 1)).map fun i => f (k + i)).sum
          + f (firstChild k) + f (secondChild k) := by
    intro f
    have shift : ∀ l, ((Multiset.range l).map fun i => f (k + 1 + i)).sum + f k
        = ((Multiset.range (l + 1)).map fun i => f (k + i)).sum := by
      intro l
      induction l with
      | zero => simp
      | succ l ih =>
          rw [Multiset.range_succ, Multiset.map_cons, Multiset.sum_cons, add_assoc, ih,
            Multiset.range_succ (l + 1), Multiset.map_cons, Multiset.sum_cons]
          congr 2
          omega
    have first : k + (k + 1) = firstChild k := by simp only [firstChild]; omega
    have second : k + (k + 2) = secondChild k := by simp only [secondChild]; omega
    rw [shift, Multiset.range_succ (k + 2), Multiset.map_cons, Multiset.sum_cons,
      Multiset.range_succ (k + 1), Multiset.map_cons, Multiset.sum_cons, first, second]
    abel
  have split := window fun j => if j < n then leaves n j else 0
  simp only [h, if_true] at split
  rw [leaves_eq] at split
  refine add_right_cancel (b := (if firstChild k < n then leaves n (firstChild k) else 0)
    + (if secondChild k < n then leaves n (secondChild k) else 0)) ?_
  simp only [frontier]
  rw [← add_assoc, ← split]
  abel

/-- **The breadth-first queue**: the nodes below the root are those taken off and those
below the ones waiting. -/
theorem leaves_frontier {k : ℕ} (h : k ≤ n) (root : 0 < n) :
    leaves n 0 = Multiset.range k + frontier n k := by
  induction k with
  | zero => simp [frontier, root]
  | succ k ih =>
      rw [ih (by omega), frontier_succ (by omega), Multiset.range_succ]
      simp only [← Multiset.singleton_add]
      abel

/-- Every number below `n` is a node below the root, and exactly once. -/
theorem leaves_zero (root : 0 < n) : leaves n 0 = Multiset.range n := by
  have empty : frontier n n = 0 := by
    refine Multiset.sum_eq_zero fun x hx => ?_
    obtain ⟨i, -, rfl⟩ := Multiset.mem_map.mp hx
    simp
  rw [leaves_frontier le_rfl root, empty, add_zero]

section Fold

variable (op : α → α → α) [Std.Associative op] [Std.Commutative op]

/-- Merging the fold of one subtree with that of a child is the fold over the values of both. -/
theorem mergeChild_eq_fold {used rest : Multiset ℕ} {x y : α} {r c : ℕ}
    (own : x = (used.map input).fold op (input r))
    (child : y = (rest.map input).fold op (input c)) :
    op x y = ((used + c ::ₘ rest).map input).fold op (input r) := by
  rw [own, child, ← Multiset.fold_add op (input r) (input c), Multiset.add_cons,
    Multiset.map_cons, Multiset.fold_cons'_right, Multiset.map_add]

/-- **A node folds the values below it onto its own**, if the operation is associative and
commutative. -/
theorem merged_eq_fold (r : ℕ) :
    ∃ rest : Multiset ℕ, leaves n r = r ::ₘ rest ∧
      merged op n input r = (rest.map input).fold op (input r) := by
  induction r using tree_induction n with
  | node r first second =>
      -- the two merges, each with the nodes it adds
      have child : ∀ (x : α) (used : Multiset ℕ) (c : ℕ),
          (c < n → ∃ rest : Multiset ℕ, leaves n c = c ::ₘ rest ∧
            merged op n input c = (rest.map input).fold op (input c)) →
          x = (used.map input).fold op (input r) →
          mergeChild op n (merged op n input) x c
            = ((used + (if c < n then leaves n c else 0)).map input).fold op (input r) := by
        intro x used c below own
        by_cases hc : c < n
        · obtain ⟨rest, leaves, value⟩ := below hc
          simp only [mergeChild, hc, if_true, leaves]
          exact mergeChild_eq_fold op own value
        · simpa [mergeChild, hc] using own
      have tmp := child (input r) 0 (firstChild r) first (by simp)
      have all := child _ _ (secondChild r) second tmp
      refine ⟨_, ?_, (merged_eq r).trans all⟩
      rw [leaves_eq, zero_add, add_assoc, Multiset.singleton_add]

/-- **The root merges all values, each used once**, in whatever order an associative and
commutative operation takes them. -/
theorem merged_zero (root : 0 < n) :
    merged op n input 0 = (((Multiset.range n).erase 0).map input).fold op (input 0) := by
  obtain ⟨rest, leaves, value⟩ := merged_eq_fold (n := n) op 0
  rw [value, ← leaves_zero root, leaves, Multiset.erase_cons_head]

end Fold

end YGM
