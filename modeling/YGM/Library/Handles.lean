import Mathlib.Algebra.Order.Group.Multiset
import Mathlib.Data.Multiset.AddSub
import Mathlib.Logic.Function.Basic

/-!
# Handles on a heap

Cells of a heap are used through handles.  A handle has the address of a cell, and what its
holder has put there; the second part is a history that no program reads.  `Holds` says that
no two of the handles in use have the same address and that each cell has what its handle
says.

A program keeps this as long as it drops or passes on handles (`Holds.of_le`), writes through
one of them (`Holds.write`), and makes new ones at new addresses (`Holds.fresh`).  What it
writes can then be seen through no other handle.
-/

namespace YGM

/-- **A handle** on a cell of a heap: the address of the cell, and what the holder of the handle
takes to be its contents. -/
structure Handle (α : Type) where
  address : ℕ
  /-- The contents that the holder has put into the object (history). -/
  value : α
deriving DecidableEq

/-- **The handles in use**, on cells whose contents are seen through `view`. -/
structure Holds {α β : Type} (view : β → α) (heap : ℕ → β) (next : ℕ)
    (handles : Multiset (Handle α)) : Prop where
  apart : (handles.map Handle.address).Nodup
  below : ∀ h ∈ handles, h.address < next
  agree : ∀ h ∈ handles, view (heap h.address) = h.value

namespace Holds

variable {α β : Type} {view : β → α} {heap : ℕ → β} {next : ℕ}
variable {handles handles' : Multiset (Handle α)} {h : Handle α}

/-- The handles in use can be passed on and dropped: any smaller multiset of handles is in order
as well. -/
theorem of_le (holds : Holds view heap next handles) (le : handles' ≤ handles) :
    Holds view heap next handles' where
  apart := Multiset.nodup_of_le (Multiset.map_le_map le) holds.apart
  below h mem := holds.below h (Multiset.mem_of_le le mem)
  agree h mem := holds.agree h (Multiset.mem_of_le le mem)

/-- The other handles in use have other addresses than a given one. -/
theorem address_ne (holds : Holds view heap next (h ::ₘ handles)) {other : Handle α}
    (mem : other ∈ handles) : other.address ≠ h.address := by
  have apart := holds.apart
  rw [Multiset.map_cons, Multiset.nodup_cons] at apart
  intro same
  exact apart.1 (same ▸ Multiset.mem_map_of_mem _ mem)

/-- **Writing through a handle** changes nothing that any other handle in use has. -/
theorem write (holds : Holds view heap next (h ::ₘ handles)) (cell : β) :
    Holds view (Function.update heap h.address cell) next (⟨h.address, view cell⟩ ::ₘ handles) where
  apart := by simpa using holds.apart
  below := by
    have below := holds.below
    simp only [Multiset.mem_cons, forall_eq_or_imp] at below ⊢
    exact below
  agree := by
    simp only [Multiset.mem_cons, forall_eq_or_imp, Function.update_self, true_and]
    intro other mem
    rw [Function.update_of_ne (holds.address_ne mem)]
    exact holds.agree other (Multiset.mem_cons_of_mem mem)

/-- **A new cell** at the next address is on none of the handles in use, so a handle on it can
be added. -/
theorem fresh (holds : Holds view heap next handles) (cell : β) :
    Holds view (Function.update heap next cell) (next + 1) (⟨next, view cell⟩ ::ₘ handles) where
  apart := by
    rw [Multiset.map_cons, Multiset.nodup_cons]
    refine ⟨fun mem => ?_, holds.apart⟩
    obtain ⟨other, inside, same⟩ := Multiset.mem_map.mp mem
    exact absurd same (holds.below other inside).ne
  below := by
    simp only [Multiset.mem_cons, forall_eq_or_imp]
    exact ⟨Nat.lt_succ_self _, fun other mem => (holds.below other mem).trans (Nat.lt_succ_self _)⟩
  agree := by
    simp only [Multiset.mem_cons, forall_eq_or_imp, Function.update_self, true_and]
    intro other mem
    rw [Function.update_of_ne (holds.below other mem).ne]
    exact holds.agree other mem

end Holds

end YGM
