import YGM.Containers.AllGather
import YGM.Containers.Refinement

/-!
# What `all_gather` of a map returns

All ranks have asked between the same two barriers, so each gets, for every key of its list,
what the owner of the key had stored at the end of the first one (`gathered_values`): a map
takes one value for a key, however often the key is asked for, a multimap all of them.

An outline of a program is one of the program with `all_gather` (`GatherUser.outline`), and
what its code keeps about its memory is still kept (`GatherUser.memory`).  So where the maps
of a program refine sequential ones, keys are only stored on their owners, and what is stored
there is all there is (`stored_on_owner`).
-/

namespace YGM

variable {n : ℕ} {P σ W C ι K V : Type} [LinearOrder K]

/-! ## Calls of the program -/

/-- The call of the program that a call carries, if it is one that the program itself makes. -/
def Rpc.base (m : Rpc n (GatherPayload ι K V P)) : Option (Rpc n P) :=
  match m.payload with
  | .base p => some ⟨m.src, m.dest, p, m.epoch, m.cut⟩
  | _ => none

/-- The execution of a call of the program, if it is one that the program itself makes. -/
def Exec.base (e : Exec n (GatherPayload ι K V P)) : Option (Exec n P) :=
  e.rpc.base.map fun m => ⟨e.src, m, e.epoch, e.cut⟩

namespace GatherUser

variable {u : GatherUser n P σ W C ι K V}

/-- The code that gets the result of an `all_gather` may occur in a main program whenever the
code that calls `all_gather` may. -/
def GoesOn (u : GatherUser n P σ W C ι K V) (o : Outline u.base) : Prop :=
  ∀ c mem id keys k, u.allGather c mem = some (id, keys, k) → o.code none c →
    ∀ out, o.code none (k out)

/-- The code points that run for a call: those of the program for calls of the program, those of
`all_gather` in the main program, and those of the handlers for requests and answers. -/
def Occurs (o : Outline u.base) (cause : Option (Rpc n (GatherPayload ι K V P))) :
    GatherCode n ι K V C → Prop
  | .base c => ∃ cause', cause.map Rpc.base = cause'.map some ∧ o.code cause' c
  | .create _ _ k | .fetching _ _ _ k | .gathered _ k => cause = none ∧ ∀ out, o.code none (k out)
  | .fetch .. | .fetched .. | .returner .. => cause.map Rpc.base = some none

theorem keeps_within {o : Outline u.base} {cause : Option (Rpc n (GatherPayload ι K V P))}
    {cause' : Option (Rpc n P)} (same : cause.map Rpc.base = cause'.map some)
    {mem : GatherMem K V σ} {cmd : Cmd n P σ W C} (keeps : cmd.Keeps o.code o.call cause') :
    (cmd.within mem : Cmd n (GatherPayload ι K V P) (GatherMem K V σ) W
      (GatherCode n ι K V C)).Keeps (Occurs o)
        (fun dest payload => ∀ p, payload = .base p → o.call dest p) cause := by
  have main : cause = none → cause' = none := by
    rintro rfl
    simpa using same.symm
  cases cmd with
  | ret base => trivial
  | update base k | asyncFlush dest k | asyncFlushAll k => exact ⟨cause', same, keeps⟩
  | async dest p k => exact ⟨fun _ eq => by cases eq; exact keeps.1, cause', same, keeps.2⟩
  | barrier k | kill k => exact fun none => ⟨.none, rfl, keeps (main none)⟩
  | allReduce value k => exact fun none out => ⟨.none, rfl, keeps (main none) out⟩

/-- **The outline of a program** gives an outline of the program with `all_gather`. -/
def outline (o : Outline u.base) (goesOn : u.GoesOn o) : Outline u.program where
  code := Occurs o
  call dest payload := ∀ p, payload = .base p → o.call dest p
  start m call := by
    cases payload : m.payload with
    | base p =>
        have base : m.base = some ⟨m.src, m.dest, p, m.epoch, m.cut⟩ := by
          simp [Rpc.base, payload]
        exact ⟨some _, by simp [base], o.start ⟨m.src, m.dest, p, m.epoch, m.cut⟩ (call p payload)⟩
    | fetch | returner => simp [program, Occurs, Rpc.base, payload]
  next cause k mem occurs := by
    cases k with
    | base c =>
        obtain ⟨cause', same, code⟩ := occurs
        simp only [program]
        split
        case h_1 id keys k gathers =>
          rintro rfl
          have none : cause' = none := by simpa using same.symm
          exact ⟨rfl, goesOn c mem.base id keys k gathers (none ▸ code)⟩
        case h_2 => exact keeps_within same (o.next cause' c mem.base code)
    | create id keys k => exact occurs
    | fetching id preturn keys k =>
        cases keys with
        | nil => exact fun none => ⟨rfl, occurs.2⟩
        | cons key keys => exact ⟨by simp, occurs⟩
    | gathered preturn k =>
        obtain ⟨rfl, code⟩ := occurs
        exact ⟨none, rfl, code _⟩
    | fetch src key pmap pcont => exact ⟨by simp, occurs⟩
    | fetched | returner => trivial

/-- **An invariant of the program's memory** over the calls executed holds in the program with
`all_gather`, over the calls of the program among them. -/
theorem memory {o : Outline u.base} {goesOn : u.GoesOn o}
    {I : Fin n → List (Exec n P) → σ → Prop} (keeps : o.Memory I) :
    (outline o goesOn).Memory fun r done mem => I r (done.filterMap Exec.base) mem.base := by
  refine ⟨fun r done mem cause k mem' k' h occurs cmd => ?_,
    fun r done mem m k mem' e h occurs dest cmd rpc src => ?_⟩
  · cases k with
    | base c =>
        obtain ⟨cause', same, code⟩ := occurs
        simp only [program] at cmd
        split at cmd
        · cases cmd
        · cases next : u.base.next c mem.base <;> rw [next] at cmd <;> cases cmd
          exact keeps.update _ _ _ _ _ _ _ h code next
    | create | gathered =>
        cases cmd
        exact h
    | fetching id preturn keys k => cases keys <;> cases cmd
    | fetch | fetched | returner => cases cmd
  · rw [List.filterMap_append]
    cases k with
    | base c =>
        obtain ⟨cause', same, code⟩ := occurs
        obtain ⟨m', rfl, base⟩ : ∃ m', cause' = some m' ∧ m.base = some m' := by
          cases cause' <;> simp_all
        simp only [program] at cmd
        split at cmd
        · cases cmd
        · cases next : u.base.next c mem.base <;> rw [next] at cmd <;> cases cmd
          have here : [e].filterMap Exec.base = [(⟨e.src, m', e.epoch, e.cut⟩ : Exec n P)] := by
            simp [Exec.base, rpc, base]
          rw [here]
          have parts : m'.dest = m.dest ∧ m'.src = m.src := by
            cases payload : m.payload <;> simp only [Rpc.base, payload] at base <;> cases base
            exact ⟨rfl, rfl⟩
          exact keeps.ret _ _ _ _ _ _ _ h code (parts.1.trans dest) next rfl (src.trans parts.2.symm)
    | fetched | returner =>
        have none : m.base = none := by simpa [Occurs, outline] using occurs
        cases cmd
        simpa [Exec.base, rpc, none] using h
    | create | gathered | fetch => cases cmd
    | fetching id preturn keys k => cases keys <;> cases cmd

/-! ## The result -/

section Result

variable {u : GatherUser n P σ W C ι K V} {cfg : Config} {start : Fin n → GatherMem K V σ}
variable {main : Fin n → C} {c d : Sys n (GatherPayload ι K V P) (GatherMem K V σ) W
  (GatherCode n ι K V C)}

/-- The values that the owner of a key stores for the key in a map. -/
def stored (u : GatherUser n P σ W C ι K V) (d : Sys n (GatherPayload ι K V P) (GatherMem K V σ) W
    (GatherCode n ι K V C)) (id : Id ι) (key : K) : List V :=
  (u.maps (d.rank (u.partitioner.owner key)).mem.base id).localGet key

/-- **The result of `all_gather`** consists of the values that were stored on the owners at the
end of its first barrier. -/
theorem gathered_values {e : ℕ} (meeting : Meeting d e)
    (reached : (comm cfg u.program start fun r => .base (main r)).Reachable d)
    (leads : (comm cfg u.program start fun r => .base (main r)).Leads d c)
    {id : Fin n → Id ι} {keys : Fin n → List K} {k : Fin n → Multimap K V → C}
    (called : ∀ i, (d.rank i).code = .create (id i) (keys i) (k i)) {r : Fin n}
    {preturn : OutputPtr} {k' : Multimap K V → C} (pc : (c.rank r).pc = .user)
    (back : (c.rank r).code = .gathered preturn k') (epoch : (c.rank r).epoch = e + 2) :
    k' = k r ∧
      ((id r).multi = false → ∀ key, ((c.rank r).mem.output preturn).get key
        = if key ∈ keys r then (u.stored d (id r) key).take 1 else []) ∧
      ((id r).multi = true → (keys r).Nodup → ∀ key, ((c.rank r).mem.output preturn).get key
        = if key ∈ keys r then u.stored d (id r) key else []) ∧
      ∃ d', (comm cfg u.program start fun r => .base (main r)).Leads d d' ∧
        (comm cfg u.program start fun r => .base (main r)).Leads d' c ∧
        Meeting d' (e + 1) ∧ ∀ i, u.maps (d'.rank i).mem.base = u.maps (d.rank i).mem.base := by
  obtain ⟨rfl, rfl, ⟨order, perm, output⟩, unchanged⟩ := u.gather.returned meeting reached called
    leads u.program_avoids (by simp [gather]) pc back epoch
  have collected : (c.rank r).mem.output (u.gather.preturn (d.rank r).mem (id r))
      = Multimap.empty.collect (id r).multi (u.stored d (id r)) order := output
  have asks : ∀ key, key ∈ order ↔ key ∈ keys r := fun _ => perm.mem_iff
  refine ⟨rfl, fun single key => ?_, fun multi nodup key => ?_, unchanged⟩
  · rw [collected, single, Multimap.get_collect_map, Multimap.get_empty]
    simp [asks]
  · rw [collected, multi, Multimap.get_collect_multimap _ _ (perm.nodup_iff.mpr nodup),
      Multimap.get_empty]
    simp [asks]

end Result

end GatherUser

/-! ## Programs with containers -/

variable {A τ U : Type} [DecidableEq ι]

/-- **A program that uses containers and `all_gather`**; `gathers` gives the points of the
user's code at which it is called. -/
def Env.gatherUser (env : Env n ι K V A τ U)
    (gathers : U → Mem n ι K V A τ → Option (Id ι × List K × (Multimap K V → U)))
    (packedSize : GatherPayload ι K V (Payload ι K V A U) → ℕ) (offset_le : ∀ p, 8 ≤ packedSize p) :
    GatherUser n (Payload ι K V A U) (Mem n ι K V A τ) (Value ι K V) (Code n ι K V A τ U) ι K V where
  base := env.program
  partitioner := env.partitioner
  maps := Mem.maps
  allGather
    | .user u, mem => (gathers u mem).map fun call => (call.1, call.2.1, fun out => .user (call.2.2 out))
    | _, _ => none
  packedSize := packedSize
  offset_le := offset_le

/-- **Values are stored on the owner of their key only**, and a map stores at most one value for
a key. -/
theorem stored_on_owner {env : Env n ι K V A τ U} (plain : env.Plain)
    {gathers : U → Mem n ι K V A τ → Option (Id ι × List K × (Multimap K V → U))}
    {packedSize : GatherPayload ι K V (Payload ι K V A U) → ℕ} {offset_le : ∀ p, 8 ≤ packedSize p}
    {cfg : Config} {start : Fin n → GatherMem K V (Mem n ι K V A τ)} {main : Fin n → U}
    (empty : ∀ r id, ((start r).base.maps id).localMap = .empty)
    (new : ∀ r, (start r).base.history = [])
    {d : Sys n (GatherPayload ι K V (Payload ι K V A U)) (GatherMem K V (Mem n ι K V A τ))
      (Value ι K V) (GatherCode n ι K V (Code n ι K V A τ U))}
    (h : (comm cfg (env.gatherUser gathers packedSize offset_le).program start
      fun r => .base (.user (main r))).Reachable d) (r : Fin n) (id : Id ι) (key : K) :
    (((d.rank r).mem.base.maps id).localGet key ≠ [] → env.partitioner.owner key = r) ∧
      (id.multi = false → (((d.rank r).mem.base.maps id).localGet key).length ≤ 1) := by
  have user : ∀ k, (env.outline plain).code none (.user k) := by
    intro k m none
    cases none
  have goesOn : (env.gatherUser gathers packedSize offset_le).GoesOn (env.outline plain) := by
    intro code mem id keys k gathers' _ out
    cases code with
    | user u =>
        obtain ⟨call, -, eq⟩ := Option.map_eq_some_iff.mp gathers'
        cases eq
        exact user _
    | _ => cases gathers'
  let u := env.gatherUser gathers packedSize offset_le
  let o : Outline u.base := env.outline plain
  have begins : ∀ r, (GatherUser.outline o goesOn).code none (.base (.user (main r))) :=
    fun r => ⟨none, rfl, user (main r)⟩
  have keeps : o.Memory (env.Recorded fun r => (start r).base) := env.recorded plain _
  have recorded := (GatherUser.outline o goesOn).memory (GatherUser.memory keeps) begins
    (fun r => .init (empty r) (new r)) h r
  refine ⟨recorded.placed, fun single => ?_⟩
  rw [(recorded.map id single).values key]
  exact Option.length_toList_le

end YGM
