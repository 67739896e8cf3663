import Mathlib.Data.Int.CardIntervalMod
import Mathlib.Combinatorics.Enumerative.DoubleCounting
import Mathlib.Algebra.Order.BigOperators.Group.Finset

/-!
# Slots picked by a counter

A counter that starts at `s`, is kept modulo `w` and is reduced modulo `n` picks one of `n`
slots in each turn (`slot`).  As long as it does not wrap around, or if `n` divides `w`, it
picks them in turn, so that no slot is picked more than once more than another.  A counter
that wraps around starts over at slot 0, whichever slot it has come to: `balanced_iff` and
`level_iff` say when that shows, for one counter and for `n` counters that start next to
each other.
-/

namespace YGM

/-- The slot that a counter started at `s` picks in turn `k`. -/
def slot (w n s k : ℕ) : ℕ :=
  (k + s) % w % n

/-- The number of times slot `j` is picked in the first `m` turns of a counter started at `s`. -/
def picks (w n s m j : ℕ) : ℕ :=
  Nat.count (fun k => slot w n s k = j) m

variable {w n s m j : ℕ}

theorem slot_of_lt {k : ℕ} (small : k + s < w) : slot w n s k = (k + s) % n := by
  rw [slot, Nat.mod_eq_of_lt small]

theorem slot_of_dvd {k : ℕ} (divides : n ∣ w) : slot w n s k = (k + s) % n :=
  Nat.mod_mod_of_dvd _ divides

/-! ## Without a wrap -/

/-- The turns in which a counter picks a given slot, as long as it does not wrap, are the
numbers of one residue. -/
theorem turn_iff {k : ℕ} (hj : j < n) : (k + s) % n = j ↔ k ≡ j + (n - s % n) [MOD n] := by
  have hs : s % n < n := Nat.mod_lt _ (by omega)
  have cancel : j + (n - s % n) + s ≡ j [MOD n] := by
    have divided := Nat.div_add_mod s n
    refine (Nat.modEq_iff_dvd' (by omega)).mpr ⟨s / n + 1, ?_⟩ |>.symm
    rw [Nat.mul_add, Nat.mul_one]
    omega
  constructor
  · intro turn
    refine Nat.ModEq.add_right_cancel' s (Nat.ModEq.trans ?_ cancel.symm)
    rw [Nat.ModEq, turn, Nat.mod_eq_of_lt hj]
  · intro turn
    have picked := (turn.add_right s).trans cancel
    rwa [Nat.ModEq, Nat.mod_eq_of_lt hj] at picked

theorem count_turns (hj : j < n) (m : ℕ) :
    Nat.count (fun k => (k + s) % n = j) m
      = m / n + if (j + (n - s % n)) % n < m % n then 1 else 0 := by
  rw [← Nat.count_modEq_card m (by omega : 0 < n)]
  congr 1
  funext k
  exact propext (turn_iff hj)

/-- A counter that does not wrap picks a slot in every `n`-th turn, which makes `m / n` times or
once more. -/
theorem picks_of_plain (plain : ∀ k < m, slot w n s k = (k + s) % n) (hj : j < n) :
    picks w n s m j = m / n + if (j + (n - s % n)) % n < m % n then 1 else 0 := by
  rw [← count_turns hj m, picks]
  refine le_antisymm (Nat.count_mono_left fun k hk picked => ?_)
    (Nat.count_mono_left fun k hk picked => ?_)
  · rwa [← plain k hk]
  · rwa [plain k hk]

/-! ## With a wrap -/

/-- **A counter that wraps around** picks the slots of the numbers below `w`, but for those
below `s`, and begins with slot 0 again. -/
theorem picks_of_wrap (hs : s < n) (hn : n ≤ w) (hm : m < w) (wraps : w < m + s) (hj : j < n) :
    picks w n s m j + (if j < s then 1 else 0)
      = w / n + (if j < w % n then 1 else 0) + if j < m + s - w then 1 else 0 := by
  have below : ∀ {a}, a < n → Nat.count (fun k => k % n = j) a = if j < a then 1 else 0 := by
    intro a ha
    have counted := count_turns (s := 0) hj a
    simpa [Nat.div_eq_of_lt ha, Nat.mod_eq_of_lt ha, Nat.mod_eq_of_lt hj] using counted
  have whole : Nat.count (fun k => k % n = j) w = w / n + if j < w % n then 1 else 0 := by
    simpa [Nat.mod_eq_of_lt hj] using count_turns (s := 0) hj w
  have first : Nat.count (fun k => slot w n s k = j) (w - s) + (if j < s then 1 else 0)
      = w / n + if j < w % n then 1 else 0 := by
    have split := Nat.count_add' (fun k => k % n = j) (w - s) s
    rw [Nat.sub_add_cancel (by omega), whole, below hs] at split
    rw [split]
    refine congrArg (· + _) (le_antisymm (Nat.count_mono_left fun k hk picked => ?_)
      (Nat.count_mono_left fun k hk picked => ?_))
    · rwa [slot_of_lt (by omega)] at picked
    · rwa [slot_of_lt (by omega)]
  have second : Nat.count (fun k => slot w n s (w - s + k) = j) (m + s - w)
      = if j < m + s - w then 1 else 0 := by
    rw [← below (by omega)]
    have again : ∀ k < m + s - w, slot w n s (w - s + k) = k % n := by
      intro k hk
      rw [slot, show w - s + k + s = w + k by omega, Nat.add_mod_left,
        Nat.mod_eq_of_lt (by omega : k < w)]
    refine le_antisymm (Nat.count_mono_left fun k hk picked => ?_)
      (Nat.count_mono_left fun k hk picked => ?_)
    · rwa [again k hk] at picked
    · rwa [again k hk]
  have total := Nat.count_add (fun k => slot w n s k = j) (w - s) (m + s - w)
  rw [show w - s + (m + s - w) = m by omega, second] at total
  rw [picks, total]
  omega

/-- **When one counter is balanced**: it does not wrap, `n` divides `w`, or it starts so low
that the wrap does not show. -/
theorem balanced_iff (hs : s < n) (hn : n ≤ w) (hm : m < w) :
    (∀ j < n, ∀ j' < n, picks w n s m j ≤ picks w n s m j' + 1) ↔
      m + s ≤ w ∨ w % n = 0 ∨ s ≤ w % n := by
  have even : (∀ k < m, slot w n s k = (k + s) % n) →
      ∀ j < n, ∀ j' < n, picks w n s m j ≤ picks w n s m j' + 1 := by
    intro plain j hj j' hj'
    rw [picks_of_plain plain hj, picks_of_plain plain hj']
    split <;> split <;> omega
  constructor
  · intro balanced
    by_contra apart
    simp only [not_or, not_le] at apart
    obtain ⟨wraps, rest, low⟩ := apart
    -- slot 0 comes once more, and the slot below `s` has not come at first
    have most := picks_of_wrap hs hn hm wraps (j := 0) (by omega)
    have least := picks_of_wrap hs hn hm wraps (j := s - 1) (by omega)
    rw [if_pos (by omega), if_pos (by omega), if_pos (by omega)] at most
    rw [if_pos (by omega), if_neg (by omega), if_neg (by omega)] at least
    have close := balanced 0 (by omega) (s - 1) (by omega)
    omega
  · rintro (fits | divides | low)
    · exact even fun k hk => slot_of_lt (by omega)
    · exact even fun k _ => slot_of_dvd (Nat.dvd_of_mod_eq_zero divides)
    · by_cases fits : m + s ≤ w
      · exact even fun k hk => slot_of_lt (by omega)
      · intro j hj j' hj'
        have here := picks_of_wrap hs hn hm (by omega) hj
        have there := picks_of_wrap hs hn hm (by omega) hj'
        split at here <;> split at here <;> split at here <;>
          split at there <;> split at there <;> split at there <;> omega

/-! ## Counters next to each other -/

/-- The counters, out of those started at `0` to `n - 1`, that pick slot `j` in turn `k`. -/
def pickers (w n k j : ℕ) : Finset ℕ :=
  (Finset.range n).filter fun s => slot w n s k = j

theorem sum_picks (w n m j : ℕ) :
    ∑ s ∈ Finset.range n, picks w n s m j = ∑ k ∈ Finset.range m, (pickers w n k j).card := by
  simp only [picks, Nat.count_eq_card_filter_range, pickers]
  exact Finset.sum_card_bipartiteAbove_eq_sum_card_bipartiteBelow fun s k => slot w n s k = j

/-- In a turn in which none of the counters has wrapped, each slot is picked by exactly one of
them. -/
theorem card_pickers {k : ℕ} (plain : ∀ s < n, slot w n s k = (k + s) % n) (hj : j < n) :
    (pickers w n k j).card = 1 := by
  have turns := count_turns (s := k) hj n
  rw [Nat.div_self (by omega), Nat.mod_self, if_neg (by omega), add_zero,
    Nat.count_eq_card_filter_range] at turns
  rw [← turns, pickers]
  refine congrArg _ (Finset.filter_congr fun s hs => ?_)
  rw [plain s (Finset.mem_range.mp hs), add_comm]

/-- **Counters started next to each other fill all slots alike** exactly if none of them wraps,
or `n` divides `w`. -/
theorem level_iff (pos : 0 < n) (hn : n ≤ w) (hm : m < w) :
    (∀ j < n, ∑ s ∈ Finset.range n, picks w n s m j = m) ↔ m + n ≤ w + 1 ∨ w % n = 0 := by
  constructor
  · intro level
    by_contra apart
    simp only [not_or, not_le] at apart
    obtain ⟨wraps, rest⟩ := apart
    have lt := Nat.mod_lt w pos
    have divided := Nat.div_add_mod w n
    -- slot 0 is picked in every turn, by the counter that wraps if by no other
    have once : ∀ k ∈ Finset.range m, 1 ≤ (pickers w n k 0).card := by
      intro k hk
      have km := Finset.mem_range.mp hk
      by_cases fits : k + n ≤ w
      · exact (card_pickers (fun s hs => slot_of_lt (by omega)) pos).ge
      · refine Finset.card_pos.mpr ⟨w - k, Finset.mem_filter.mpr
          ⟨Finset.mem_range.mpr (by omega), ?_⟩⟩
        rw [slot, show k + (w - k) = w by omega, Nat.mod_self, Nat.zero_mod]
    -- and twice in the turn in which the last counter is the only one to wrap
    have twice : 1 < (pickers w n (w - n + 1) 0).card := by
      refine Finset.one_lt_card.mpr ⟨n - 1, ?_, n - 1 - w % n, ?_, by omega⟩
      · refine Finset.mem_filter.mpr ⟨Finset.mem_range.mpr (by omega), ?_⟩
        rw [slot, show w - n + 1 + (n - 1) = w by omega, Nat.mod_self, Nat.zero_mod]
      · refine Finset.mem_filter.mpr ⟨Finset.mem_range.mpr (by omega), ?_⟩
        rw [slot_of_lt (by omega), show w - n + 1 + (n - 1 - w % n) = n * (w / n) by omega,
          Nat.mul_mod_right]
    have more : ∑ k ∈ Finset.range m, 1 < ∑ k ∈ Finset.range m, (pickers w n k 0).card :=
      Finset.sum_lt_sum once ⟨w - n + 1, Finset.mem_range.mpr (by omega), twice⟩
    rw [← sum_picks, level 0 pos, ← Finset.card_eq_sum_ones, Finset.card_range] at more
    exact lt_irrefl m more
  · intro h j hj
    have plain : ∀ k < m, ∀ s < n, slot w n s k = (k + s) % n := by
      intro k hk s hs
      rcases h with fits | divides
      · exact slot_of_lt (by omega)
      · exact slot_of_dvd (Nat.dvd_of_mod_eq_zero divides)
    rw [sum_picks, Finset.sum_congr rfl fun k hk =>
      card_pickers (plain k (Finset.mem_range.mp hk)) hj, ← Finset.card_eq_sum_ones,
      Finset.card_range]

end YGM
