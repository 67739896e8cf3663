import YGM.Comm.Gather
import YGM.Containers.Confluence

/-!
# `all_gather` of maps and multimaps

`map_impl::all_gather` in a program that otherwise uses the containers as it likes: wherever
the code of the program calls it (`GatherUser.allGather`), there is a barrier, a call of the
fetcher for each key on its owner, and another barrier.  The rest of the code runs as it is
(`Cmd.within`), with the tables it works on.

The result is a local variable of the caller, reached through a `ygm_ptr` that the answers
carry.  There is one list `sptrs` for pointers to `std::map` and one for pointers to
`std::multimap`.

The model departs from the source in two places.  `map_impl::all_gather` makes the pointer
`preturn` in its first line, before its first barrier, and `GatherUser.program` makes it in
the first step behind that barrier (`GatherCode.create`).  Inside the barrier a rank runs
handlers only; no call that carries the new pointer has been issued by then, and no code
outside `all_gather` makes a pointer to an output or reads `sptrs`, so the two steps commute.
Further, the index of a pointer is a natural number here and a `uint32_t` in `ygm_ptr`: the
model covers the runs in which each rank makes fewer than `2 ^ 32` pointers of either type.
-/

namespace YGM

variable {n : ℕ} {P σ W C ι K V : Type} [LinearOrder K]

/-- The pointer to an output: a `ygm_ptr<std::map>` or, if `multi`, a `ygm_ptr<std::multimap>`. -/
structure OutputPtr where
  multi : Bool
  idx : ℕ
deriving DecidableEq

/-- The content of a call: one of the program, a request for the values of a key, or the values
in return. -/
inductive GatherPayload (ι K V P : Type)
  | base (p : P)
  | fetch (key : K) (pmap : Id ι) (pcont : OutputPtr)
  | returner (key : K) (values : List V) (pcont : OutputPtr)

/-- **Code points**: those of the program, those of `all_gather`, and those of its two handlers. -/
inductive GatherCode (n : ℕ) (ι K V C : Type) [LinearOrder K]
  | base (c : C)
  /-- `all_gather` is back from its first barrier. -/
  | create (id : Id ι) (keys : List K) (k : Multimap K V → C)
  /-- `all_gather` is in its loop over the keys, with these keys left. -/
  | fetching (id : Id ι) (preturn : OutputPtr) (keys : List K) (k : Multimap K V → C)
  /-- `all_gather` is back from its second barrier. -/
  | gathered (preturn : OutputPtr) (k : Multimap K V → C)
  /-- The handler of a request is about to run. -/
  | fetch (src : Fin n) (key : K) (pmap : Id ι) (pcont : OutputPtr)
  /-- The handler of a request has issued its answer. -/
  | fetched (src : Fin n) (key : K) (pmap : Id ι) (pcont : OutputPtr)
  | returner (key : K) (values : List V) (pcont : OutputPtr)

/-- **The memory of a rank**: the memory of the program, and the outputs to which pointers
refer. -/
structure GatherMem (K V σ : Type) [LinearOrder K] where
  base : σ
  output : OutputPtr → Multimap K V
  /-- The number of pointers made so far on the rank (length of `sptrs`), for multimaps and for
  maps. -/
  sptrs : Bool → ℕ

/-- **A program that calls `all_gather`**: the program otherwise, its maps, and the code points
at which it calls `all_gather`, with the map, the keys, and the code that gets the result. -/
structure GatherUser (n : ℕ) (P σ W C ι K V : Type) [LinearOrder K] where
  base : Program n P σ W C
  partitioner : Partitioner n K
  maps : σ → Id ι → MapImpl K V
  allGather : C → σ → Option (Id ι × List K × (Multimap K V → C))
  packedSize : GatherPayload ι K V P → ℕ
  offset_le : ∀ p, 8 ≤ packedSize p

/-- A command of the program, as a command of the program with `all_gather`, whose outputs it
leaves alone. -/
def Cmd.within (mem : GatherMem K V σ) : Cmd n P σ W C →
    Cmd n (GatherPayload ι K V P) (GatherMem K V σ) W (GatherCode n ι K V C)
  | .ret base => .ret { mem with base := base }
  | .update base k => .update { mem with base := base } (.base k)
  | .async dest p k => .async dest (.base p) (.base k)
  | .asyncFlush dest k => .asyncFlush dest (.base k)
  | .asyncFlushAll k => .asyncFlushAll (.base k)
  | .barrier k => .barrier (.base k)
  | .allReduce value k => .allReduce value fun out => .base (k out)
  | .kill k => .kill (.base k)

/-- The memory after making a `ygm_ptr` to an empty output. -/
def GatherMem.pointed (mem : GatherMem K V σ) (multi : Bool) : GatherMem K V σ :=
  { mem with
    output := Function.update mem.output ⟨multi, mem.sptrs multi⟩ .empty
    sptrs := Function.update mem.sptrs multi (mem.sptrs multi + 1) }

namespace GatherUser

variable (u : GatherUser n P σ W C ι K V)

/-- **The program with `all_gather`**, which runs the program and, at the code points it names,
the code of `all_gather`. -/
def program : Program n (GatherPayload ι K V P) (GatherMem K V σ) W (GatherCode n ι K V C) where
  next code mem :=
    match code with
    | .base c =>
        match u.allGather c mem.base with
        | some (id, keys, k) => .barrier (.create id keys k)
        | none => (u.base.next c mem.base).within mem
    | .create id keys k =>
        .update (mem.pointed id.multi) (.fetching id ⟨id.multi, mem.sptrs id.multi⟩ keys k)
    | .fetching _ preturn [] k => .barrier (.gathered preturn k)
    | .fetching id preturn (key :: keys) k =>
        .async (u.partitioner.owner key) (.fetch key id preturn) (.fetching id preturn keys k)
    | .gathered preturn k => .update mem (.base (k (mem.output preturn)))
    | .fetch src key pmap pcont =>
        .async src (.returner key ((u.maps mem.base pmap).localGet key) pcont)
          (.fetched src key pmap pcont)
    | .fetched _ _ _ _ => .ret mem
    | .returner key values pcont =>
        .ret { mem with
          output := Function.update mem.output pcont
            ((mem.output pcont).insertValues pcont.multi key values) }
  handler src payload :=
    match payload with
    | .base p => .base (u.base.handler src p)
    | .fetch key pmap pcont => .fetch src key pmap pcont
    | .returner key values pcont => .returner key values pcont
  packedSize := u.packedSize
  offset_le := u.offset_le
  combine := u.base.combine

/-- `all_gather` as an exchange of requests and answers between two barriers. -/
def gather : Gather u.program (Id ι) OutputPtr K (Multimap K V → C) (List V)
    (Id ι → MapImpl K V) (Multimap K V) where
  owner := u.partitioner.owner
  pack
    | .ask pmap pcont key => .fetch key pmap pcont
    | .answer pcont key values => .returner key values pcont
  place
    | .create id keys k => .create id keys k
    | .fetching id preturn keys k => .fetching id preturn keys k
    | .gathered preturn k => .gathered preturn k
    | .fetch src pmap pcont key => .fetch src key pmap pcont
    | .fetched src pmap pcont key => .fetched src key pmap pcont
    | .returner pcont key values => .returner key values pcont
  table mem := u.maps mem.base
  stored maps id key := (maps id).localGet key
  output mem := mem.output
  put preturn key values out := out.insertValues preturn.multi key values
  preturn mem id := ⟨id.multi, mem.sptrs id.multi⟩
  fresh := .empty
  pack_injective m m' h := by
    cases m <;> cases m' <;> cases h <;> rfl
  place_injective p p' h := by
    cases p <;> cases p' <;> cases h <;> rfl
  handler src m := by cases m <;> rfl
  next_create id keys k mem := ⟨mem.pointed id.multi, rfl, rfl, by simp [GatherMem.pointed]⟩
  next_nil _ _ _ _ := rfl
  next_cons _ _ _ _ _ _ := rfl
  next_fetch _ _ _ _ _ := rfl
  next_fetched _ _ _ _ _ := rfl
  next_returner preturn key values mem := by
    refine ⟨_, rfl, rfl, fun q => ?_⟩
    by_cases same : q = preturn
    · subst same
      simp
    · simp [same]

/-- The code point behind the second barrier of `all_gather` is reached by the end of its loop
over the keys only. -/
theorem program_avoids (k : GatherCode n ι K V C) (mem : GatherMem K V σ) :
    (u.program.next k mem).Avoids fun k => ∃ preturn x, k = u.gather.place (.gathered preturn x) := by
  cases k with
  | base c =>
      simp only [program]
      split
      · trivial
      · cases u.base.next c mem.base <;> simp [Cmd.within, Cmd.Avoids, gather]
  | fetching id preturn keys k => cases keys <;> simp [program, Cmd.Avoids, gather]
  | _ => simp [program, Cmd.Avoids, gather]

end GatherUser

end YGM
