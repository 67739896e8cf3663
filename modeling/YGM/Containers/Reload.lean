import YGM.Library.Machine
import YGM.Containers.Files

/-!
# Saving several containers and loading them again

All ranks save a sequence of containers and then load them, each call being a barrier and
what the rank does with its own file (`reload`).  A barrier lets a rank go on once all ranks
have come to it, so ranks are at most one call apart.

The name of a file is the base name directly followed by the rank, so `x` on rank 10 and `x1`
on rank 0 are one file.  Which call is the last to write a file does not depend on the
interleaving (`LastWriter`), and all containers come back exactly if what this call writes
loads as what was saved (`reload_restores_iff`).  With up to ten ranks no two names share a
file (`lastWriter_of_le_ten`).
-/

namespace YGM

variable {J : Type} {p m : ℕ}

/-- **A container to be saved**: its kind, its file name, and the state it has on each rank when
`serialize` writes it, with nothing pending. -/
structure Save (J : Type) (p : ℕ) where
  format : Format J
  fname : List Char
  contents : Fin p → format.State

/-- A collective call that saves or loads one of the containers. -/
inductive FileCall (m : ℕ)
  | serialize (i : Fin m)
  | deserialize (i : Fin m)

/-- The calls that all ranks make: all containers are saved, then some of them are loaded in the
order `order`. -/
def fileCalls (order : List (Fin m)) : List (FileCall m) :=
  (List.finRange m).map .serialize ++ order.map .deserialize

/-- **The files, and how far the ranks have come** with their calls. -/
structure Disk (saves : Fin m → Save J p) where
  files : Files J
  /-- The number of calls that a rank has completed. -/
  done : Fin p → ℕ
  /-- The outcome of a load on a rank, if it has been made: a state with `comm_size`, or an
  exception. -/
  restored : ∀ i : Fin m, Fin p → Option (Option ((saves i).format.State × ℤ))
  /-- Whether an exception has ended the rank. -/
  stopped : Fin p → Bool

variable (saves : Fin m → Save J p) (order : List (Fin m))

/-- The archive that rank `r` writes when it saves the container. -/
def Save.archive (s : Save J p) (r : Fin p) : Archive J :=
  s.format.save (s.contents r) p

/-- The name of the file in which rank `r` saves the container. -/
def Save.file (s : Save J p) (r : Fin p) : List Char :=
  rankFile s.fname r

/-- **The next call of a rank**, which it makes once all ranks have entered the barrier of this
call. -/
def Disk.step (c : Disk saves) (r : Fin p) : Option (Disk saves) :=
  if c.stopped r = false ∧ ∀ i, c.done r ≤ c.done i then
    match (fileCalls order)[c.done r]? with
    | none => none
    | some (.serialize i) => some { c with
        files := (saves i).format.serialize c.files (saves i).fname p r ((saves i).contents r)
        done := Function.update c.done r (c.done r + 1) }
    | some (.deserialize i) =>
        let loaded := (saves i).format.deserialize c.files (saves i).fname r
        let restored := Function.update c.restored i
          (Function.update (c.restored i) r (some loaded))
        match loaded with
        | none => some { c with
            restored := restored
            stopped := Function.update c.stopped r true }
        | some _ => some { c with
            restored := restored
            done := Function.update c.done r (c.done r + 1) }
  else none

/-- **The machine of the ranks that save and load**, in any interleaving the barriers allow. -/
def reload : Machine (Disk saves) (Fin p) where
  init := ⟨fun _ => none, fun _ => 0, fun _ _ => none, fun _ => false⟩
  step := Disk.step saves order

/-- **Every loaded state is the saved one**: a rank that has loaded a container holds the
contents it has saved under the container's name. -/
def Disk.Right {saves : Fin m → Save J p} (c : Disk saves) : Prop :=
  ∀ i r result, c.restored i r = some result → ∃ state commSize,
    result = some (state, commSize) ∧ (saves i).format.Same state ((saves i).contents r)

/-- **The saved containers come back**: in every run, nothing else is loaded, and no run stops
before all calls are done. -/
def Restores : Prop :=
  ∀ c, (reload saves order).Reachable c →
    c.Right ∧ ((∀ r, c.done r = (fileCalls order).length) ∨
      ∃ r d, (reload saves order).step c r = some d)

/-- Call `j` on rank `r'` is the last call that writes the file in which rank `r` saves
container `i`. -/
structure LastWriter (i : Fin m) (r : Fin p) (j : Fin m) (r' : Fin p) : Prop where
  same : (saves j).file r' = (saves i).file r
  last : ∀ k r'', (saves k).file r'' = (saves i).file r → k ≤ j

section Runs

variable {saves : Fin m → Save J p} {order : List (Fin m)}

/-! ## The calls -/

theorem fileCalls_serialize {k : ℕ} {i : Fin m}
    (call : (fileCalls order)[k]? = some (.serialize i)) : k = i.val := by
  by_cases low : k < m
  · rw [fileCalls, List.getElem?_append_left (by simpa using low)] at call
    simp only [List.getElem?_map, List.getElem?_eq_getElem (show k < (List.finRange m).length by
      simpa using low), Option.map_some, List.getElem_finRange, Option.some.injEq,
      FileCall.serialize.injEq] at call
    rw [← call]
    rfl
  · rw [fileCalls, List.getElem?_append_right (by simpa using Nat.le_of_not_lt low),
      List.getElem?_map] at call
    obtain ⟨_, -, same⟩ := Option.map_eq_some_iff.mp call
    cases same

theorem fileCalls_deserialize {k : ℕ} {i : Fin m}
    (call : (fileCalls order)[k]? = some (.deserialize i)) :
    ∃ j, k = m + j ∧ order[j]? = some i := by
  by_cases low : k < m
  · rw [fileCalls, List.getElem?_append_left (by simpa using low), List.getElem?_map] at call
    obtain ⟨_, -, same⟩ := Option.map_eq_some_iff.mp call
    cases same
  · rw [fileCalls, List.getElem?_append_right (by simpa using Nat.le_of_not_lt low),
      List.length_map, List.length_finRange, List.getElem?_map] at call
    obtain ⟨i', found, same⟩ := Option.map_eq_some_iff.mp call
    cases same
    exact ⟨k - m, by omega, found⟩

theorem length_fileCalls : (fileCalls order).length = m + order.length := by
  simp [fileCalls]

/-- **A step of a rank** is the save of a container, the load of a container, or a load that
ends in an exception. -/
theorem Disk.step_cases {c d : Disk saves} {r : Fin p} (taken : Disk.step saves order c r = some d) :
    c.stopped r = false ∧ (∀ i, c.done r ≤ c.done i) ∧
    ((∃ i : Fin m, c.done r = i.val ∧ d = { c with
        files := Function.update c.files ((saves i).file r) (some ((saves i).archive r))
        done := Function.update c.done r (c.done r + 1) }) ∨
      ∃ i j, c.done r = m + j ∧ order[j]? = some i ∧
        d.files = c.files ∧
        d.restored = Function.update c.restored i (Function.update (c.restored i) r
          (some ((c.files ((saves i).file r)).bind (saves i).format.load))) ∧
        ((d.done = Function.update c.done r (c.done r + 1) ∧ d.stopped = c.stopped) ∨
          (d.done = c.done ∧ d.stopped = Function.update c.stopped r true ∧
            (c.files ((saves i).file r)).bind (saves i).format.load = none))) := by
  rw [Disk.step] at taken
  split at taken
  case isFalse => cases taken
  case isTrue enabled =>
    refine ⟨enabled.1, enabled.2, ?_⟩
    split at taken
    · cases taken
    · rename_i i call
      cases taken
      exact .inl ⟨i, fileCalls_serialize call, rfl⟩
    · rename_i i call
      obtain ⟨j, at_j, found⟩ := fileCalls_deserialize call
      refine .inr ⟨i, j, at_j, found, ?_⟩
      cases loaded : (saves i).format.deserialize c.files (saves i).fname r with
      | none =>
          simp only [loaded] at taken
          cases taken
          exact ⟨rfl, by rw [← loaded]; rfl, .inr ⟨rfl, rfl, loaded⟩⟩
      | some result =>
          simp only [loaded] at taken
          cases taken
          exact ⟨rfl, by rw [← loaded]; rfl, .inl ⟨rfl, rfl⟩⟩

/-! ## The last writer -/

/-- A file has only one last writer, as two calls of one name write different files on different
ranks. -/
theorem LastWriter.unique {i j j' : Fin m} {r r' r'' : Fin p} (h : LastWriter saves i r j r')
    (h' : LastWriter saves i r j' r'') : j = j' ∧ r' = r'' := by
  have calls : j = j' := le_antisymm (h'.last j r' h.same) (h.last j' r'' h'.same)
  subst calls
  exact ⟨rfl, Fin.ext (rankFile_rank (h.same.trans h'.same.symm))⟩

theorem exists_lastWriter (saves : Fin m → Save J p) (i : Fin m) (r : Fin p) :
    ∃ j r', LastWriter saves i r j r' := by
  classical
  have own : i ∈ Finset.univ.filter fun k => ∃ r'', (saves k).file r'' = (saves i).file r := by
    exact Finset.mem_filter.mpr ⟨Finset.mem_univ i, r, rfl⟩
  obtain ⟨j, member, last⟩ := Finset.exists_max_image _ id ⟨i, own⟩
  obtain ⟨r', same⟩ := (Finset.mem_filter.mp member).2
  exact ⟨j, r', same, fun k r'' found => last k (by simpa using ⟨r'', found⟩)⟩

/-- **With up to ten ranks**, the last writer of a file is the rank itself in its own call, if
no two containers share a name. -/
theorem lastWriter_of_le_ten (few : p ≤ 10)
    (names : Function.Injective fun i => (saves i).fname) {i j : Fin m} {r r' : Fin p}
    (h : LastWriter saves i r j r') : j = i ∧ r' = r := by
  have name := rankFile_of_lt_ten (r'.isLt.trans_le few) (r.isLt.trans_le few) h.same
  have calls : j = i := names name
  subst calls
  exact ⟨rfl, Fin.ext (rankFile_rank h.same)⟩

/-! ## What holds in every run -/

/-- **The invariant of the files**, for every interleaving of the ranks. -/
structure Disk.Kept (order : List (Fin m)) (c : Disk saves) : Prop where
  close : ∀ r i, c.done r ≤ c.done i + 1
  bounded : ∀ r, c.done r ≤ m + order.length
  /-- A file holds the archive of the last call that has written it so far. -/
  files : ∀ i r, i.val < c.done r → ∃ j r', (saves j).file r' = (saves i).file r ∧
    c.files ((saves i).file r) = some ((saves j).archive r') ∧
    ∀ k r'', (saves k).file r'' = (saves i).file r → k.val < c.done r'' → k ≤ j
  restored : ∀ i r result, c.restored i r = some result → i ∈ order ∧
    ∀ j r', LastWriter saves i r j r' → result = (saves i).format.load ((saves j).archive r')
  loaded : ∀ r j i, order[j]? = some i → m + j < c.done r → (c.restored i r).isSome = true
  stopped : ∀ r, c.stopped r = true → ∃ i, c.restored i r = some none

/-- After a call of a rank that is ahead of no other, the ranks are still at most one call
apart. -/
theorem Disk.Kept.close_update {c : Disk saves} (h : c.Kept order) {r : Fin p}
    (first : ∀ i, c.done r ≤ c.done i) (r' i : Fin p) :
    Function.update c.done r (c.done r + 1) r'
      ≤ Function.update c.done r (c.done r + 1) i + 1 := by
  have here := h.close r' i
  have next := first i
  by_cases hr : r' = r
  · subst hr
    by_cases hi : i = r'
    · simp [hi]
    · simp only [Function.update_self, Function.update_of_ne hi]
      omega
  · by_cases hi : i = r
    · subst hi
      simp only [Function.update_self, Function.update_of_ne hr]
      omega
    · simpa only [Function.update_of_ne hr, Function.update_of_ne hi] using here

theorem Disk.Kept.bounded_update {c : Disk saves} (h : c.Kept order) {r : Fin p}
    (room : c.done r < m + order.length) (r' : Fin p) :
    Function.update c.done r (c.done r + 1) r' ≤ m + order.length := by
  by_cases hr : r' = r
  · subst hr
    rwa [Function.update_self]
  · simpa [hr] using h.bounded r'

/-- **A save keeps the invariant**, with the file of the rank overwritten. -/
theorem Disk.Kept.save {c : Disk saves} {r : Fin p} (h : c.Kept order)
    (first : ∀ i, c.done r ≤ c.done i) {i : Fin m} (at_i : c.done r = i.val) :
    ({ c with
        files := Function.update c.files ((saves i).file r) (some ((saves i).archive r))
        done := Function.update c.done r (c.done r + 1) } : Disk saves).Kept order := by
  have room := i.isLt
  have before : ∀ k r', k.val < Function.update c.done r (c.done r + 1) r' →
      (k : Fin m) = i ∧ r' = r ∨ k.val < c.done r' := by
    intro k r' lt
    by_cases hr : r' = r
    · subst hr
      rw [Function.update_self] at lt
      by_cases hk : k = i
      · exact .inl ⟨hk, rfl⟩
      · right
        have : k.val ≠ i.val := fun same => hk (Fin.ext same)
        omega
    · exact .inr (by simpa [hr] using lt)
  refine ⟨h.close_update first, h.bounded_update (by omega), fun k r' lt => ?_, h.restored,
    fun r' j' i' found lt => ?_, h.stopped⟩
  · by_cases here : (saves k).file r' = (saves i).file r
    · -- the new content is that of the latest call any rank has come to
      refine ⟨i, r, here.symm, ?_, fun k' r'' same lt' => ?_⟩
      · simp only [here, Function.update_self]
      · rcases before k' r'' lt' with ⟨rfl, -⟩ | old
        · exact le_refl _
        · have := h.close r'' r
          exact Fin.le_def.mpr (by omega)
    · have old : k.val < c.done r' := by
        rcases before k r' lt with ⟨rfl, rfl⟩ | old
        · exact absurd rfl here
        · exact old
      obtain ⟨j', r'', same, content, last⟩ := h.files k r' old
      refine ⟨j', r'', same, ?_, fun k' r₂ same' lt' => ?_⟩
      · simp only [Function.update_of_ne here, content]
      · rcases before k' r₂ lt' with ⟨rfl, rfl⟩ | old'
        · exact absurd same'.symm here
        · exact last k' r₂ same' old'
  · by_cases hr : r' = r
    · subst hr
      simp only [Function.update_self] at lt
      omega
    · exact h.loaded r' j' i' found (by simpa [hr] using lt)

/-- **A load keeps the invariant**, whether it returns a state or ends in an exception. -/
theorem Disk.Kept.load {c d : Disk saves} {r : Fin p} (h : c.Kept order)
    (running : c.stopped r = false) (first : ∀ i, c.done r ≤ c.done i) {i : Fin m} {j : ℕ}
    (at_j : c.done r = m + j) (found : order[j]? = some i) (files : d.files = c.files)
    (got : d.restored i r = some ((c.files ((saves i).file r)).bind (saves i).format.load))
    (other : ∀ i' r', ¬ (i' = i ∧ r' = r) → d.restored i' r' = c.restored i' r')
    (outcome : (d.done = Function.update c.done r (c.done r + 1) ∧ d.stopped = c.stopped) ∨
      (d.done = c.done ∧ d.stopped = Function.update c.stopped r true ∧
        (c.files ((saves i).file r)).bind (saves i).format.load = none)) : d.Kept order := by
  have room := (List.getElem?_eq_some_iff.mp found).1
  -- all saves are done, so the file has its last writer
  have saved : ∀ k r', (k : Fin m).val < c.done r' := by
    intro k r'
    have := first r'
    have := k.isLt
    omega
  have content : ∀ j' r', LastWriter saves i r j' r' →
      c.files ((saves i).file r) = some ((saves j').archive r') := by
    intro j' r' writer
    obtain ⟨j₂, r₂, same, content, last⟩ := h.files i r (saved i r)
    have writer' : LastWriter saves i r j₂ r₂ :=
      ⟨same, fun k r'' found => last k r'' found (saved k r'')⟩
    obtain ⟨rfl, rfl⟩ := writer.unique writer'
    exact content
  have result : ∀ i' r' result, d.restored i' r' = some result → i' ∈ order ∧
      ∀ j' r'', LastWriter saves i' r' j' r'' →
        result = (saves i').format.load ((saves j').archive r'') := by
    intro i' r' result gets
    by_cases here : i' = i ∧ r' = r
    · obtain ⟨rfl, rfl⟩ := here
      rw [got, Option.some.injEq] at gets
      refine ⟨List.mem_of_getElem? found, fun j' r'' writer => ?_⟩
      rw [← gets, content j' r'' writer]
      rfl
    · exact h.restored i' r' result (other i' r' here ▸ gets)
  have kept : ∀ i' r', (c.restored i' r').isSome = true → (d.restored i' r').isSome = true := by
    intro i' r' some
    by_cases here : i' = i ∧ r' = r
    · obtain ⟨rfl, rfl⟩ := here
      simp [got]
    · rwa [other i' r' here]
  have fileState : ∀ i' r', ∃ j' r'', (saves j').file r'' = (saves i').file r' ∧
      d.files ((saves i').file r') = some ((saves j').archive r'') ∧
      ∀ k r₂, (saves k).file r₂ = (saves i').file r' → k ≤ j' := by
    intro i' r'
    obtain ⟨j', r'', same, content', last⟩ := h.files i' r' (saved i' r')
    exact ⟨j', r'', same, files ▸ content', fun k r₂ same' => last k r₂ same' (saved k r₂)⟩
  have filesKept : ∀ i' r', i'.val < d.done r' → ∃ j' r'', (saves j').file r'' = (saves i').file r' ∧
      d.files ((saves i').file r') = some ((saves j').archive r'') ∧
      ∀ k r₂, (saves k).file r₂ = (saves i').file r' → k.val < d.done r₂ → k ≤ j' := by
    intro i' r' _
    obtain ⟨j', r'', same, content', last⟩ := fileState i' r'
    exact ⟨j', r'', same, content', fun k r₂ same' _ => last k r₂ same'⟩
  rcases outcome with ⟨done, stopped⟩ | ⟨done, stopped, failed⟩
  · refine ⟨fun r' i' => ?_, fun r' => ?_, filesKept, result, fun r' j' i' at_j' lt => ?_,
      fun r' stop => ?_⟩
    · rw [done]
      exact h.close_update first r' i'
    · rw [done]
      exact h.bounded_update (by omega) r'
    · rw [done] at lt
      by_cases new : r' = r ∧ j' = j
      · obtain ⟨rfl, rfl⟩ := new
        obtain rfl : i' = i := Option.some.inj (at_j'.symm.trans found)
        simp [got]
      · refine kept i' r' (h.loaded r' j' i' at_j' ?_)
        by_cases hr : r' = r
        · subst hr
          rw [Function.update_self] at lt
          have : j' ≠ j := fun same => new ⟨rfl, same⟩
          omega
        · simpa [hr] using lt
    · rw [stopped] at stop
      have away : r' ≠ r := by
        rintro rfl
        rw [running] at stop
        cases stop
      obtain ⟨i', gets⟩ := h.stopped r' stop
      exact ⟨i', (other i' r' fun here => away here.2).trans gets⟩
  · refine ⟨fun r' i' => ?_, fun r' => ?_, filesKept, result, fun r' j' i' at_j' lt => ?_,
      fun r' stop => ?_⟩
    · rw [done]
      exact h.close r' i'
    · rw [done]
      exact h.bounded r'
    · rw [done] at lt
      exact kept i' r' (h.loaded r' j' i' at_j' lt)
    · by_cases here : r' = r
      · subst here
        exact ⟨i, got.trans (congrArg some failed)⟩
      · rw [stopped, Function.update_of_ne here] at stop
        obtain ⟨i', gets⟩ := h.stopped r' stop
        exact ⟨i', (other i' r' fun both => here both.2).trans gets⟩

theorem Disk.kept_of_reachable {c : Disk saves} (h : (reload saves order).Reachable c) :
    c.Kept order := by
  refine h.invariant (I := Disk.Kept order) ?_ ?_
  · exact ⟨by simp [reload], by simp [reload], by simp [reload], by simp [reload],
      by simp [reload], by simp [reload]⟩
  · intro c r d _ kept taken
    obtain ⟨running, first, ⟨i, at_i, rfl⟩ | ⟨i, j, at_j, found, files, restored, outcome⟩⟩ :=
      Disk.step_cases taken
    · exact kept.save first at_i
    · refine kept.load running first at_j found files ?_ (fun i' r' other => ?_) outcome
      · simp [restored]
      · rw [restored]
        by_cases hi : i' = i
        · subst hi
          have hr : r' ≠ r := fun same => other ⟨rfl, same⟩
          simp [hr]
        · simp [hi]

/-! ## Whole runs -/

/-- For every container loaded, the archive of the last writer of each of its files loads as the
contents saved under its name. -/
def Reloads (saves : Fin m → Save J p) (order : List (Fin m)) : Prop :=
  ∀ i ∈ order, ∀ r j r', LastWriter saves i r j r' → ∃ state commSize,
    (saves i).format.load ((saves j).archive r') = some (state, commSize) ∧
      (saves i).format.Same state ((saves i).contents r)

/-- While some rank has calls to do and every load has been right, some rank can make its next
call. -/
theorem Disk.enabled {c : Disk saves} (kept : c.Kept order) (right : c.Right) {r : Fin p}
    (more : c.done r ≠ (fileCalls order).length) :
    ∃ r d, (reload saves order).step c r = some d := by
  obtain ⟨r₀, -, first⟩ := Finset.exists_min_image Finset.univ c.done ⟨r, Finset.mem_univ r⟩
  have running : c.stopped r₀ = false := by
    rw [Bool.eq_false_iff]
    intro stop
    obtain ⟨i, failed⟩ := kept.stopped r₀ stop
    obtain ⟨state, commSize, result, -⟩ := right i r₀ _ failed
    cases result
  have room : c.done r₀ < (fileCalls order).length := by
    have bound := kept.bounded r
    have le := first r (Finset.mem_univ r)
    rw [length_fileCalls] at more ⊢
    omega
  have enabled : c.stopped r₀ = false ∧ ∀ i, c.done r₀ ≤ c.done i :=
    ⟨running, fun i => first i (Finset.mem_univ i)⟩
  refine ⟨r₀, ?_⟩
  simp only [reload, Disk.step, if_pos enabled, List.getElem?_eq_getElem room]
  cases (fileCalls order)[c.done r₀] with
  | serialize i => exact ⟨_, rfl⟩
  | deserialize i =>
      dsimp only
      split <;> exact ⟨_, rfl⟩

/-- If the saved containers come back in all runs, there is a run in which all ranks complete
their calls. -/
theorem Restores.exists_complete (h : Restores saves order) : ∃ c : Disk saves,
    (reload saves order).Reachable c ∧ ∀ r, c.done r = (fileCalls order).length := by
  have finish : ∀ (k : ℕ) (c : Disk saves), (reload saves order).Reachable c →
      ∑ r, ((fileCalls order).length - c.done r) ≤ k → ∃ d : Disk saves,
        (reload saves order).Reachable d ∧ ∀ r, d.done r = (fileCalls order).length := by
    intro k
    induction k with
    | zero =>
        intro c reached left
        refine ⟨c, reached, fun r => ?_⟩
        have none := Finset.sum_eq_zero_iff.mp (Nat.le_zero.mp left) r (Finset.mem_univ r)
        have bound := (Disk.kept_of_reachable reached).bounded r
        rw [length_fileCalls] at none ⊢
        omega
    | succ k ih =>
        intro c reached left
        rcases (h c reached).2 with complete | ⟨r, d, taken⟩
        · exact ⟨c, reached, complete⟩
        · have after := reached.step taken
          refine ih d after ?_
          have kept := Disk.kept_of_reachable reached
          have bound := (Disk.kept_of_reachable after).bounded r
          -- no load fails, so the rank gets one call further
          have done : d.done = Function.update c.done r (c.done r + 1) := by
            obtain ⟨running, -, ⟨i, -, rfl⟩ | ⟨i, j, -, -, -, restored, outcome⟩⟩ :=
              Disk.step_cases taken
            · rfl
            · rcases outcome with ⟨done, -⟩ | ⟨-, -, failed⟩
              · exact done
              · obtain ⟨state, commSize, result, -⟩ := (h d after).1 i r none
                  (by rw [restored, failed]; simp)
                cases result
          have total := sum_update_add (fun done => (fileCalls order).length - done) c.done r
            (c.done r + 1)
          rw [done] at bound ⊢
          rw [Function.update_self] at bound
          rw [length_fileCalls] at total left ⊢
          omega
  exact finish _ _ .init le_rfl

/-- If the saved containers come back, the archives of the last writers load as the contents
saved under the names. -/
theorem Restores.reloads (h : Restores saves order) : Reloads saves order := by
  intro i member r j r' writer
  obtain ⟨c, reached, complete⟩ := h.exists_complete
  have kept := Disk.kept_of_reachable reached
  obtain ⟨k, found⟩ := List.getElem?_of_mem member
  have room := (List.getElem?_eq_some_iff.mp found).1
  have got := kept.loaded r k i found (by
    rw [complete r, length_fileCalls]
    omega)
  obtain ⟨result, got⟩ := Option.isSome_iff_exists.mp got
  obtain ⟨state, commSize, loaded, same⟩ := (h c reached).1 i r result got
  rw [(kept.restored i r result got).2 j r' writer] at loaded
  exact ⟨state, commSize, loaded, same⟩

theorem Reloads.restores (h : Reloads saves order) : Restores saves order := by
  intro c reached
  have kept := Disk.kept_of_reachable reached
  have right : c.Right := by
    intro i r result got
    obtain ⟨member, loads⟩ := kept.restored i r result got
    obtain ⟨j, r', writer⟩ := exists_lastWriter saves i r
    obtain ⟨state, commSize, loaded, same⟩ := h i member r j r' writer
    exact ⟨state, commSize, (loads j r' writer).trans loaded, same⟩
  refine ⟨right, ?_⟩
  by_cases complete : ∀ r, c.done r = (fileCalls order).length
  · exact .inl complete
  · obtain ⟨r, more⟩ := not_forall.mp complete
    exact .inr (Disk.enabled kept right more)

/-- **The saved containers come back**, in every run and on every rank, if and only if for every
container loaded the last call that writes one of its files writes an archive that loads as the
same contents. -/
theorem reload_restores_iff : Restores saves order ↔ Reloads saves order :=
  ⟨Restores.reloads, Reloads.restores⟩

/-- **With up to ten ranks**, containers with different names come back. -/
theorem reload_restores_of_le_ten (few : p ≤ 10)
    (names : Function.Injective fun i => (saves i).fname) : Restores saves order := by
  refine Reloads.restores fun i _ r j r' writer => ?_
  obtain ⟨rfl, rfl⟩ := lastWriter_of_le_ten few names writer
  obtain ⟨state, loaded, same⟩ := (saves j).format.round ((saves j).contents r') p
  exact ⟨state, p, loaded, same⟩

end Runs

/-! ## Eleven ranks -/

/-- Two bags: `x` has one item on each of eleven ranks, and `x1` is empty. -/
def twoBags (i : Fin 2) : Save ℕ 11 where
  format := bagFormat natElement
  fname := if i = 0 then ['x'] else ['x', '1']
  contents := fun r => if i = 0 then ⟨0, [r.val]⟩ else ⟨0, []⟩

/-- The save of `x1` on rank 0 overwrites the file of `x` on rank 10, so `x` comes back without
its last item, although the names differ. -/
theorem reload_mixes_names :
    (Function.Injective fun i => (twoBags i).fname) ∧ ¬ Restores twoBags [0, 1] := by
  refine ⟨by decide, fun restores => ?_⟩
  have writer : LastWriter twoBags 0 10 1 0 := by
    refine ⟨by decide, fun k r'' _ => ?_⟩
    exact Fin.le_last k
  obtain ⟨state, commSize, loaded, same⟩ := restores.reloads 0 (by decide) 10 1 0 writer
  have empty : (twoBags 0).format.load ((twoBags 1).archive 0)
      = some ((⟨0, []⟩ : BagImpl ℕ), (11 : ℤ)) := BagImpl.load_save natElement ⟨0, []⟩ 11
  rw [empty] at loaded
  cases loaded
  cases same

end YGM
