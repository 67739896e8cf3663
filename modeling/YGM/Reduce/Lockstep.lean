import YGM.Reduce.Model

/-!
# What travels between parent and child

Rank `r` sends its parent, call after call, the merge of the tree below it
(`Call.value`), so what it sends in a whole run is a fixed list (`wires`), and so is
what the root broadcasts.  The invariant `InStep` says where in these lists everybody
is: what a parent has taken and what is still in the stream make up what the child has
sent (`Link`), and each rank holds what the calls so far determine (`NodeOk`).

`inStep_of_reachable` follows from it that no message is ever taken for another one,
of the same call or of any other.
-/

namespace YGM.Reduce

variable {n : ℕ} {α : Type} [NeZero n]

/-! ## What a call computes -/

/-- The merge of the inputs of the ranks below rank `r` in the tree, with that of `r` itself. -/
def Call.value (call : Call n α) (r : ℕ) : α :=
  merged call.merge n (fun i => call.input (Fin.ofNat n i)) r

theorem Call.value_is (call : Call n α) (r : ℕ) : call.Is (call.value r) :=
  merged_mem (fun _ => call.input_is _) call.merge_is r

@[simp] theorem Call.unpack_value (call : Call n α) (r : ℕ) :
    call.unpack (call.pack (call.value r)) = call.value r :=
  call.unpack_pack _ (call.value_is r)

/-- The value that a rank holds after it has merged its own input with the value of its first
child. -/
def Call.afterFirst (call : Call n α) (r : Fin n) : α :=
  mergeChild call.merge n call.value (call.input r) (firstChild r)

theorem Call.value_eq (call : Call n α) (r : Fin n) :
    call.value r = mergeChild call.merge n call.value (call.afterFirst r) (secondChild r) := by
  rw [Call.value, merged_eq, Fin.ofNat_val_eq_self]
  rfl

/-- The two messages that a rank sends its parent in one call: the size and the bytes of its
value. -/
def Call.wire (call : Call n α) (r : ℕ) : List Packet :=
  [.size (call.pack (call.value r)).length, .bytes (call.pack (call.value r))]

/-- The messages that a rank sends its parent in all calls, in order. -/
def wires (calls : List (Call n α)) (r : ℕ) : List Packet :=
  calls.flatMap fun call => call.wire r

theorem wires_size {calls : List (Call n α)} {j : ℕ} {call : Call n α}
    (h : calls[j]? = some call) (r : ℕ) :
    (wires calls r)[2 * j]? = some (.size (call.pack (call.value r)).length) := by
  induction calls generalizing j with
  | nil => simp at h
  | cons c calls ih =>
      cases j with
      | zero =>
          cases h
          rfl
      | succ j =>
          have := ih (j := j) (by simpa using h)
          simpa [wires, Call.wire, Nat.mul_succ] using this

theorem wires_bytes {calls : List (Call n α)} {j : ℕ} {call : Call n α}
    (h : calls[j]? = some call) (r : ℕ) :
    (wires calls r)[2 * j + 1]? = some (.bytes (call.pack (call.value r))) := by
  induction calls generalizing j with
  | nil => simp at h
  | cons c calls ih =>
      cases j with
      | zero =>
          cases h
          rfl
      | succ j =>
          have := ih (j := j) (by simpa using h)
          simpa [wires, Call.wire, Nat.mul_succ] using this

/-! ## Where a rank is -/

/-- The number of messages that a rank has sent to its parent in its current call. -/
def Stage.posted : Stage → ℕ
  | .sentSize | .sendBytes => 1
  | .sentBytes | .bcastSize | .bcastBytes _ => 2
  | _ => 0

/-- The number of messages that a rank has received from a child in its current call. -/
def Stage.taken : Child → Stage → ℕ
  | .first, .recvSize .first => 0
  | .first, .recvBytes .first _ => 1
  | .second, .recvSize _ | .second, .recvBytes .first _ => 0
  | .second, .recvBytes .second _ => 1
  | _, _ => 2

/-- The number of broadcasts that a rank has taken part in during its current call. -/
def Stage.shown : Stage → ℕ
  | .bcastBytes _ => 1
  | _ => 0

/-- The number of messages that a rank has sent to its parent in all calls so far. -/
def Node.posted (s : Node α) : ℕ :=
  2 * s.calls + s.stage.posted

/-- The number of messages that a rank has received from a child in all calls so far. -/
def Node.taken (s : Node α) (child : Child) : ℕ :=
  2 * s.calls + s.stage.taken child

/-- The value that a rank receives from one child in one call, with the rank of the child, if
there is such a child. -/
def Call.fromChild (call : Call n α) (r : Fin n) (child : Child) : List (ℕ × α) :=
  if child.rank r < n then [(child.rank r, call.value (child.rank r))] else []

/-- The values that a rank at a stage has received from its children in the current call. -/
def Call.gotten (call : Call n α) (r : Fin n) : Stage → List (ℕ × α)
  | .recvSize .first | .recvBytes .first _ => []
  | .recvSize .second | .recvBytes .second _ => call.fromChild r .first
  | _ => call.fromChild r .first ++ call.fromChild r .second

/-- The relation of the stage of a rank to the value it holds and to the size it is waiting for. -/
def StageOk (call : Call n α) (r : Fin n) : Stage → α → Prop
  | .recvSize .first, tmp => tmp = call.input r
  | .recvBytes .first size, tmp => tmp = call.input r ∧ firstChild r < n ∧
      size = (call.pack (call.value (firstChild r))).length
  | .recvSize .second, tmp => tmp = call.afterFirst r
  | .recvBytes .second size, tmp => tmp = call.afterFirst r ∧ secondChild r < n ∧
      size = (call.pack (call.value (secondChild r))).length
  | .sendSize, tmp | .bcastSize, tmp => tmp = call.value r
  | .sentSize, tmp | .sendBytes, tmp | .sentBytes, tmp => tmp = call.value r ∧ r.val ≠ 0
  | .bcastBytes size, tmp => tmp = call.value r ∧
      size = (call.pack (call.value 0)).length
  | .thrown, _ | .broken, _ => False

/-- **The state of a rank follows from its calls**: the values it holds, has sent and has
returned are determined call by call. -/
structure NodeOk (calls : List (Call n α)) (r : Fin n) (s : Node α) : Prop where
  calls_le : s.calls ≤ calls.length
  seen : s.seen = 2 * s.calls + s.stage.shown
  returned : s.returned = (calls.take s.calls).map fun call => call.value 0
  sent : s.sent = if r.val = 0 then [] else
    (calls.take (s.calls + if s.stage.posted = 2 then 1 else 0)).map fun call =>
      (parent r, call.value r)
  received : s.received = ((calls.take s.calls).flatMap fun call =>
      call.fromChild r .first ++ call.fromChild r .second) ++
    (calls[s.calls]?.map fun call => call.gotten r s.stage).getD []
  stage : ∀ call, calls[s.calls]? = some call → StageOk call r s.stage s.tmp
  idle : calls[s.calls]? = none → s.stage = .recvSize .first

/-- **The link between a rank and its child**: the messages the rank has taken and those in the
stream are the messages the child has sent. -/
def Link (calls : List (Call n α)) (c : System n α) (p : Fin n) (child : Child) : Prop :=
  ∀ h : child.rank p < n,
    (wires calls (child.rank p)).take ((c.node p).taken child) ++ c.net ⟨child.rank p, h⟩ p
      = (wires calls (child.rank p)).take (c.node ⟨child.rank p, h⟩).posted

/-- **All ranks are in step**: each holds what the calls determine, and so does each stream. -/
structure InStep (calls : List (Call n α)) (c : System n α) : Prop where
  node : ∀ r, NodeOk calls r (c.node r)
  link : ∀ p child, Link calls c p child
  bcasts : c.bcasts = (wires calls 0).take (c.node 0).seen

theorem Child.rank_ne (child : Child) (r : ℕ) : child.rank r ≠ r := by
  cases child <;> simp only [Child.rank, firstChild, secondChild] <;> omega

theorem Child.rank_ne_zero (child : Child) (r : ℕ) : child.rank r ≠ 0 := by
  cases child
  · exact firstChild_ne_zero r
  · exact secondChild_ne_zero r

theorem Child.parent_rank (child : Child) (r : ℕ) : parent (child.rank r) = r := by
  cases child
  · exact parent_firstChild r
  · exact parent_secondChild r

theorem Child.rank_inj {child child' : Child} {r r' : ℕ}
    (h : child.rank r = child'.rank r') : child = child' ∧ r = r' := by
  have same : r = r' := by rw [← child.parent_rank r, h, child'.parent_rank]
  subst same
  refine ⟨?_, rfl⟩
  cases child <;> cases child' <;>
    simp only [Child.rank, firstChild, secondChild] at h <;> first | rfl | omega

/-- The packet at the head of the stream of a child is the next one of the messages that the
child sends in the whole run. -/
theorem Link.head {calls : List (Call n α)} {c : System n α} {p : Fin n} {child : Child}
    (link : Link calls c p child) (h : child.rank p < n) {packet : Packet}
    {stream : List Packet} (head : c.net ⟨child.rank p, h⟩ p = packet :: stream) :
    (wires calls (child.rank p))[(c.node p).taken child]? = some packet ∧
      (wires calls (child.rank p)).take ((c.node p).taken child + 1) ++ stream
        = (wires calls (child.rank p)).take (c.node ⟨child.rank p, h⟩).posted := by
  have whole := link h
  rw [head] at whole
  set W := wires calls (child.rank p)
  set k := (c.node p).taken child
  have long : (W.take k).length = k := by
    by_contra short
    have all : W.take k = W := List.take_of_length_le (by
      simp only [List.length_take] at short
      omega)
    have := congrArg List.length whole
    rw [all] at this
    simp only [List.length_append, List.length_cons, List.length_take] at this
    omega
  have found : W[k]? = some packet := by
    have at_k : (W.take k ++ packet :: stream)[k]?
        = (W.take (c.node ⟨child.rank p, h⟩).posted)[k]? := by rw [whole]
    rw [List.getElem?_append_right (by omega), long, Nat.sub_self, List.getElem?_cons_zero] at at_k
    rw [List.getElem?_take] at at_k
    split at at_k
    · exact at_k.symm
    · cases at_k
  refine ⟨found, ?_⟩
  rw [List.take_add_one, found]
  simpa using whole

/-! ## One rank moves -/

section Advance

variable {calls : List (Call n α)} {c : System n α} {r : Fin n} {s : Node α}

/-- When rank `r` moves, the ranks stay in step if its own state, the streams above and below it
and the broadcasts are as its new place says. -/
theorem InStep.advance (inStep : InStep calls c) {net : Fin n → Fin n → List Packet}
    {bcasts : List Packet} (node : NodeOk calls r s)
    (below : ∀ child (h : child.rank r < n),
      (wires calls (child.rank r)).take (s.taken child) ++ net ⟨child.rank r, h⟩ r
        = (wires calls (child.rank r)).take (c.node ⟨child.rank r, h⟩).posted)
    (above : ∀ (p : Fin n) (child : Child), child.rank p = r.val →
      (wires calls r).take ((c.node p).taken child) ++ net r p
        = (wires calls r).take s.posted)
    (others : ∀ (p : Fin n) (child : Child) (h : child.rank p < n), p ≠ r →
      child.rank p ≠ r.val → net ⟨child.rank p, h⟩ p = c.net ⟨child.rank p, h⟩ p)
    (shown : bcasts = (wires calls 0).take (Function.update c.node r s 0).seen) :
    InStep calls ⟨Function.update c.node r s, net, bcasts⟩ := by
  refine ⟨fun i => ?_, fun p child h => ?_, shown⟩
  · by_cases same : i = r
    · subst same
      simpa using node
    · simpa [same] using inStep.node i
  · by_cases same : p = r
    · subst same
      have apart : (⟨child.rank p, h⟩ : Fin n) ≠ p := fun eq =>
        child.rank_ne p (congrArg Fin.val eq)
      simpa [apart] using below child h
    · by_cases here : child.rank p = r.val
      · have eq : (⟨child.rank p, h⟩ : Fin n) = r := Fin.ext here
        simpa [same, eq, here] using above p child here
      · have apart : (⟨child.rank p, h⟩ : Fin n) ≠ r := fun eq =>
          here (congrArg Fin.val eq)
        simpa [same, apart, others p child h same here] using inStep.link p child h

/-- A move of rank `r` that neither takes nor sends a message keeps the ranks in step. -/
theorem InStep.keep (inStep : InStep calls c) {bcasts : List Packet}
    (node : NodeOk calls r s)
    (taken : ∀ child : Child, child.rank r < n → s.taken child = (c.node r).taken child)
    (posted : r.val ≠ 0 → s.posted = (c.node r).posted)
    (shown : bcasts = (wires calls 0).take (Function.update c.node r s 0).seen) :
    InStep calls ⟨Function.update c.node r s, c.net, bcasts⟩ := by
  refine inStep.advance node (fun child h => ?_) (fun p child here => ?_)
    (fun _ _ _ _ _ => rfl) shown
  · rw [taken child h]
    exact inStep.link r child h
  · have h : child.rank p < n := here ▸ r.isLt
    have eq : (⟨child.rank p, h⟩ : Fin n) = r := Fin.ext here
    have := inStep.link p child h
    rw [posted (here ▸ child.rank_ne_zero p)]
    simpa [eq, here] using this

/-- The broadcasts that are out stay those of the calls when a rank moves which is not the root,
or which makes no broadcast. -/
theorem InStep.shown (inStep : InStep calls c) (seen : r.val = 0 → s.seen = (c.node r).seen) :
    c.bcasts = (wires calls 0).take (Function.update c.node r s 0).seen := by
  by_cases root : r = 0
  · subst root
    rw [Function.update_self, seen rfl]
    exact inStep.bcasts
  · rw [Function.update_of_ne (Ne.symm root)]
    exact inStep.bcasts

/-- The ranks stay in step when rank `r` receives the next message of a child. -/
theorem InStep.receive (inStep : InStep calls c) {child : Child} (h : child.rank r < n)
    {packet : Packet} {stream : List Packet} (node : NodeOk calls r s)
    (head : c.net ⟨child.rank r, h⟩ r = packet :: stream)
    (takes : s.taken child = (c.node r).taken child + 1)
    (taken : ∀ other, other ≠ child → s.taken other = (c.node r).taken other)
    (posted : s.posted = (c.node r).posted) (seen : s.seen = (c.node r).seen) :
    InStep calls ⟨Function.update c.node r s,
      Function.update c.net ⟨child.rank r, h⟩
        (Function.update (c.net ⟨child.rank r, h⟩) r stream), c.bcasts⟩ := by
  refine inStep.advance node (fun other h' => ?_) (fun p other here => ?_)
    (fun p other h' apart _ => ?_) (inStep.shown fun _ => seen)
  · by_cases same : other = child
    · subst same
      rw [takes, Function.update_self, Function.update_self]
      exact ((inStep.link r other).head h head).2
    · have apart : (⟨other.rank r, h'⟩ : Fin n) ≠ ⟨child.rank r, h⟩ := fun eq =>
        same (Child.rank_inj (congrArg Fin.val eq)).1
      rw [taken other same, Function.update_of_ne apart]
      exact inStep.link r other h'
  · have h' : other.rank p < n := here ▸ r.isLt
    have eq : (⟨other.rank p, h'⟩ : Fin n) = r := Fin.ext here
    have apart : r ≠ (⟨child.rank r, h⟩ : Fin n) := fun eq =>
      child.rank_ne r (congrArg Fin.val eq).symm
    have := inStep.link p other h'
    rw [posted, Function.update_of_ne apart]
    simpa [eq, here] using this
  · by_cases source : (⟨other.rank p, h'⟩ : Fin n) = ⟨child.rank r, h⟩
    · rw [source, Function.update_self, Function.update_of_ne apart]
    · rw [Function.update_of_ne source]

/-- The ranks stay in step when rank `r` sends its parent the next message. -/
theorem InStep.post (inStep : InStep calls c) {packet : Packet} (node : NodeOk calls r s)
    (next : (wires calls r)[(c.node r).posted]? = some packet)
    (taken : ∀ child, s.taken child = (c.node r).taken child)
    (posted : s.posted = (c.node r).posted + 1) (seen : s.seen = (c.node r).seen) :
    InStep calls ⟨Function.update c.node r s, push r c.net (parent r) packet, c.bcasts⟩ := by
  refine inStep.advance node (fun child h => ?_) (fun p child here => ?_)
    (fun p child h _ apart => ?_) (inStep.shown fun _ => seen)
  · have apart : (⟨child.rank r, h⟩ : Fin n) ≠ r := fun eq =>
      child.rank_ne r (congrArg Fin.val eq)
    have untouched : push r c.net (parent r) packet ⟨child.rank r, h⟩
        = c.net ⟨child.rank r, h⟩ := by
      unfold push
      split
      · rw [Function.update_of_ne apart]
      · rfl
    rw [taken child, untouched]
    exact inStep.link r child h
  · have h : child.rank p < n := here ▸ r.isLt
    have eq : (⟨child.rank p, h⟩ : Fin n) = r := Fin.ext here
    have up : parent r = p.val := by rw [← here, child.parent_rank]
    have pushed : push r c.net (parent r) packet r p = c.net r p ++ [packet] := by
      unfold push
      simp [up]
    have before := inStep.link p child h
    rw [eq, here] at before
    rw [pushed, posted, List.take_add_one, next, ← List.append_assoc, before]
    rfl
  · have source : (⟨child.rank p, h⟩ : Fin n) ≠ r := fun eq => apart (congrArg Fin.val eq)
    unfold push
    split
    · rw [Function.update_of_ne source]
    · rfl

/-- A rank that moves on within a call holds what the calls determine, if its new stage says so. -/
theorem NodeOk.move (ok : NodeOk calls r s) {call : Call n α}
    (at_call : calls[s.calls]? = some call) {stage : Stage} {tmp : α} {seen : ℕ}
    {sent received : List (ℕ × α)} (stage_ok : StageOk call r stage tmp)
    (seen_eq : seen = 2 * s.calls + stage.shown)
    (sent_eq : sent = if r.val = 0 then [] else
      (calls.take (s.calls + if stage.posted = 2 then 1 else 0)).map fun call =>
        (parent r, call.value r))
    (received_eq : received = ((calls.take s.calls).flatMap fun call =>
      call.fromChild r .first ++ call.fromChild r .second) ++ call.gotten r stage) :
    NodeOk calls r { s with
      stage := stage, tmp := tmp, seen := seen, sent := sent, received := received } where
  calls_le := ok.calls_le
  seen := seen_eq
  returned := ok.returned
  sent := sent_eq
  received := by simpa [at_call] using received_eq
  stage := fun other at_other => by
    cases at_call.symm.trans at_other
    exact stage_ok
  idle := fun done => by simp [at_call] at done

/-- A rank that returns from a call holds what the calls determine. -/
theorem NodeOk.return (ok : NodeOk calls r s) {call : Call n α}
    (at_call : calls[s.calls]? = some call) {size : ℕ} (stage : s.stage = .bcastBytes size) :
    NodeOk calls r (s.return calls r (call.value 0)) where
  calls_le := by
    obtain ⟨more, -⟩ := List.getElem?_eq_some_iff.mp at_call
    exact more
  seen := by
    have := ok.seen
    simp only [stage, Stage.shown] at this
    simp only [Node.return, Node.begin, Stage.shown]
    omega
  returned := by
    simp [Node.return, Node.begin, ok.returned, List.take_add_one, at_call]
  sent := by
    simp [Node.return, Node.begin, ok.sent, stage, Stage.posted]
  received := by
    have := ok.received
    simp only [at_call, stage, Call.gotten, Option.map_some, Option.getD_some] at this
    simp only [Node.return, Node.begin, this, List.take_add_one, at_call, Option.toList_some,
      List.flatMap_append, List.flatMap_singleton]
    cases calls[s.calls + 1]? <;> simp [Call.gotten]
  stage := fun next at_next => by
    simp only [Node.return, Node.begin] at at_next ⊢
    simp [StageOk, at_next]
  idle := fun _ => rfl

end Advance

/-! ## Every step keeps step -/

/-- All partial merges of the calls are small enough to be sent. -/
def Fits (calls : List (Call n α)) : Prop :=
  ∀ call ∈ calls, ∀ r < n, (call.pack (call.value r)).length < gibibyte

@[simp] theorem Stage.taken_recvSize (child : Child) :
    (Stage.recvSize child).taken child = 0 := by cases child <;> rfl

@[simp] theorem Stage.taken_recvBytes (child : Child) (size : ℕ) :
    (Stage.recvBytes child size).taken child = 1 := by cases child <;> rfl

@[simp] theorem Stage.taken_next (child : Child) : child.next.taken child = 2 := by
  cases child <;> rfl

/-- A receive from one child does not change the number of messages taken from the other. -/
theorem Stage.taken_other {child other : Child} (apart : other ≠ child) (size : ℕ) :
    (Stage.recvBytes child size).taken other = (Stage.recvSize child).taken other ∧
      child.next.taken other = (Stage.recvSize child).taken other := by
  cases child <;> cases other <;> first | exact absurd rfl apart | exact ⟨rfl, rfl⟩

@[simp] theorem Stage.posted_recvSize (child : Child) : (Stage.recvSize child).posted = 0 := rfl

@[simp] theorem Stage.posted_recvBytes (child : Child) (size : ℕ) :
    (Stage.recvBytes child size).posted = 0 := rfl

@[simp] theorem Stage.shown_recvSize (child : Child) : (Stage.recvSize child).shown = 0 := rfl

@[simp] theorem Stage.shown_recvBytes (child : Child) (size : ℕ) :
    (Stage.recvBytes child size).shown = 0 := rfl

@[simp] theorem Child.posted_next (child : Child) : child.next.posted = 0 := by
  cases child <;> rfl

@[simp] theorem Child.shown_next (child : Child) : child.next.shown = 0 := by
  cases child <;> rfl

section Step

variable {calls : List (Call n α)} {c : System n α} {r : Fin n}

/-- A rank that has merged with a child, or has found that there is none, holds the value of the
next stage. -/
theorem StageOk.next {call : Call n α} {child : Child} {tmp : α}
    (before : StageOk call r (.recvSize child) tmp) :
    StageOk call r child.next (mergeChild call.merge n call.value tmp (child.rank r)) := by
  cases child with
  | first =>
      simp only [StageOk] at before
      rw [before]
      rfl
  | second =>
      simp only [StageOk] at before
      rw [before]
      exact (call.value_eq r).symm

/-- A rank that waits for the bytes of a child waits for as many as the child's value has. -/
theorem StageOk.recvBytes_iff {call : Call n α} {child : Child} {size : ℕ} {tmp : α} :
    StageOk call r (.recvBytes child size) tmp ↔ StageOk call r (.recvSize child) tmp ∧
      child.rank r < n ∧ size = (call.pack (call.value (child.rank r))).length := by
  cases child <;> exact Iff.rfl

theorem Call.gotten_next (call : Call n α) (child : Child) :
    call.gotten r child.next = call.gotten r (.recvSize child) ++ call.fromChild r child := by
  cases child <;> simp [Child.next, gotten]

theorem Call.gotten_recvBytes (call : Call n α) (child : Child) (size : ℕ) :
    call.gotten r (.recvBytes child size) = call.gotten r (.recvSize child) := by
  cases child <;> rfl

/-- A buffer of the size of the packed value receives it without a remainder. -/
theorem resized_self (packed : List UInt8) : resized packed.length packed = packed := by
  simp [resized]

/-- **A step in a receive from a child** keeps the ranks in step. -/
theorem InStep.recvStep (inStep : InStep calls c) {call : Call n α} {child : Child}
    (at_call : calls[(c.node r).calls]? = some call)
    (stage : (c.node r).stage = .recvSize child ∨
      ∃ size, (c.node r).stage = .recvBytes child size)
    {out : Node α × (Fin n → Fin n → List Packet)}
    (taken : recvStep r call child c (c.node r) = some out) :
    InStep calls ⟨Function.update c.node r out.1, out.2, c.bcasts⟩ := by
  have ok := inStep.node r
  have stage_ok := ok.stage call at_call
  have received := ok.received
  have sent := ok.sent
  have seen := ok.seen
  simp only [at_call, Option.map_some, Option.getD_some] at received
  unfold Reduce.recvStep at taken
  by_cases h : child.rank r < n
  · simp only [h, ↓reduceDIte] at taken
    cases head : c.net ⟨child.rank r, h⟩ r with
    | nil => simp [head] at taken
    | cons packet stream =>
        obtain ⟨found, -⟩ := (inStep.link r child).head h head
        rcases stage with stage | ⟨size, stage⟩
        · simp only [Node.taken, stage, Stage.taken_recvSize, Nat.add_zero,
            wires_size at_call, Option.some.injEq] at found
          subst found
          simp only [head, stage, Option.some.injEq] at taken
          subst taken
          refine inStep.receive h ?_ head ?_ ?_ ?_ rfl
          · refine ok.move at_call ?_ ?_ ?_ ?_
            · rw [stage] at stage_ok
              exact StageOk.recvBytes_iff.mpr ⟨stage_ok, h, rfl⟩
            · simpa [stage] using seen
            · simpa [stage] using sent
            · rw [received, stage, Call.gotten_recvBytes]
          · simp [Node.taken, stage]
          · intro other apart
            simp [Node.taken, stage, (Stage.taken_other apart _).1]
          · simp [Node.posted, stage]
        · simp only [Node.taken, stage, Stage.taken_recvBytes, wires_bytes at_call,
            Option.some.injEq] at found
          subst found
          rw [stage] at stage_ok
          obtain ⟨before, -, rfl⟩ := StageOk.recvBytes_iff.mp stage_ok
          simp only [head, stage, Nat.le_refl, ↓reduceIte, resized_self, Call.unpack_value,
            Option.some.injEq] at taken
          subst taken
          refine inStep.receive h ?_ head ?_ ?_ ?_ rfl
          · refine ok.move at_call ?_ ?_ ?_ ?_
            · have := before.next
              rwa [mergeChild, if_pos h] at this
            · simpa [stage] using seen
            · simpa [stage] using sent
            · rw [received, stage, Call.gotten_recvBytes, Call.gotten_next, Call.fromChild,
                if_pos h, List.append_assoc]
          · simp [Node.taken, stage]
          · intro other apart
            obtain ⟨bytes, next⟩ := Stage.taken_other apart
              (call.pack (call.value (child.rank r))).length
            simp [Node.taken, stage, bytes, next]
          · simp [Node.posted, stage]
  · simp only [h, ↓reduceDIte, Option.some.injEq] at taken
    subst taken
    have stage : (c.node r).stage = .recvSize child := by
      rcases stage with stage | ⟨size, stage⟩
      · exact stage
      · rw [stage] at stage_ok
        exact absurd (StageOk.recvBytes_iff.mp stage_ok).2.1 h
    refine inStep.keep ?_ ?_ ?_ (inStep.shown fun _ => rfl)
    · refine ok.move at_call ?_ ?_ ?_ ?_
      · rw [stage] at stage_ok
        have := stage_ok.next
        rwa [mergeChild, if_neg h] at this
      · simpa [stage] using seen
      · simpa [stage] using sent
      · rw [received, stage, Call.gotten_next, Call.fromChild, if_neg h, List.append_nil]
    · intro other h'
      have apart : other ≠ child := fun same => h (same ▸ h')
      simp [Node.taken, stage, (Stage.taken_other apart 0).2]
    · intro _
      simp [Node.posted, stage]

/-- Every broadcast of the root that is out is the one that the calls determine. -/
theorem InStep.bcasts_get (inStep : InStep calls c) {k : ℕ} {packet : Packet}
    (found : c.bcasts[k]? = some packet) : (wires calls 0)[k]? = some packet := by
  rw [inStep.bcasts, List.getElem?_take] at found
  split at found
  · exact found
  · cases found

/-- The broadcasts stay those of the calls when the root makes the next one. -/
theorem InStep.bcasts_add (inStep : InStep calls c) (root : r = 0) {s : Node α}
    {packet : Packet} (next : (wires calls 0)[(c.node r).seen]? = some packet)
    (seen : s.seen = (c.node r).seen + 1) :
    c.bcasts ++ [packet] = (wires calls 0).take (Function.update c.node r s 0).seen := by
  subst root
  rw [Function.update_self, seen, List.take_add_one, next, inStep.bcasts]
  rfl

/-- The rank is at the assertion of `mpi_send` or, if it is the root, at that of `mpi_bcast`. -/
def Stage.checks (r : Fin n) (stage : Stage) : Prop :=
  stage = .sendSize ∧ r.val ≠ 0 ∨ stage = .bcastSize ∧ r.val = 0

/-- **A step that passes its assertion** keeps the ranks in step. -/
theorem InStep.step_of_small {synchronous : Bool} {c' : System n α} (inStep : InStep calls c)
    (passes : ∀ call, calls[(c.node r).calls]? = some call → (c.node r).stage.checks r →
      (call.pack (call.value r)).length < gibibyte)
    (taken : Reduce.step synchronous calls r c = some c') : InStep calls c' := by
  unfold Reduce.step at taken
  cases at_call : calls[(c.node r).calls]? with
  | none => simp [at_call] at taken
  | some call =>
      have ok := inStep.node r
      have stage_ok := ok.stage call at_call
      have small := passes call at_call
      have received := ok.received
      have sent := ok.sent
      have seen := ok.seen
      simp only [at_call, Option.map_some, Option.getD_some] at received taken
      cases stage : (c.node r).stage with
      | recvSize child =>
          simp only [stage, Option.map_eq_some_iff] at taken
          obtain ⟨out, moved, rfl⟩ := taken
          exact inStep.recvStep at_call (.inl stage) moved
      | recvBytes child size =>
          simp only [stage, Option.map_eq_some_iff] at taken
          obtain ⟨out, moved, rfl⟩ := taken
          exact inStep.recvStep at_call (.inr ⟨size, stage⟩) moved
      | sendSize =>
          rw [stage] at stage_ok received sent seen small
          have value : (c.node r).tmp = call.value r := stage_ok
          simp only [stage, value] at taken
          split at taken
          case isTrue notRoot =>
            simp only [small (.inl ⟨rfl, notRoot⟩), ↓reduceIte] at taken
            cases taken
            refine inStep.post (ok.move at_call ⟨rfl, notRoot⟩ seen ?_ received) ?_ ?_ ?_ rfl
            · exact sent
            · simpa [Node.posted, stage, Stage.posted] using wires_size at_call r
            · intro child
              cases child <;> simp [Node.taken, stage, Stage.taken]
            · simp [Node.posted, stage, Stage.posted]
          case isFalse root =>
            cases taken
            refine inStep.keep (ok.move at_call rfl seen ?_ received) ?_ ?_
              (inStep.shown fun _ => rfl)
            · rw [sent, if_pos (not_not.mp root), if_pos (not_not.mp root)]
            · intro child _
              cases child <;> simp [Node.taken, stage, Stage.taken]
            · exact fun notRoot => absurd notRoot root
      | sentSize =>
          rw [stage] at stage_ok received sent seen
          simp only [stage] at taken
          split at taken
          case isTrue =>
            cases taken
            refine inStep.keep (ok.move at_call stage_ok seen sent received) ?_ ?_
              (inStep.shown fun _ => rfl)
            · intro child _
              cases child <;> simp [Node.taken, stage, Stage.taken]
            · simp [Node.posted, stage, Stage.posted]
          case isFalse => cases taken
      | sendBytes =>
          rw [stage] at stage_ok received sent seen
          obtain ⟨value, notRoot⟩ := stage_ok
          simp only [stage, value] at taken
          cases taken
          refine inStep.post (ok.move at_call ⟨rfl, notRoot⟩ seen ?_ received) ?_ ?_ ?_ rfl
          · rw [sent, if_neg notRoot, if_neg notRoot]
            simp [Stage.posted, List.take_add_one, at_call]
          · simpa [Node.posted, stage, Stage.posted] using wires_bytes at_call r
          · intro child
            cases child <;> simp [Node.taken, stage, Stage.taken]
          · simp [Node.posted, stage, Stage.posted]
      | sentBytes =>
          rw [stage] at stage_ok received sent seen
          obtain ⟨value, notRoot⟩ := stage_ok
          simp only [stage] at taken
          split at taken
          case isTrue =>
            cases taken
            refine inStep.keep (ok.move at_call value seen sent received) ?_ ?_
              (inStep.shown fun _ => rfl)
            · intro child _
              cases child <;> simp [Node.taken, stage, Stage.taken]
            · simp [Node.posted, stage, Stage.posted]
          case isFalse => cases taken
      | bcastSize =>
          rw [stage] at stage_ok received sent seen small
          have value : (c.node r).tmp = call.value r := stage_ok
          have at_size : (c.node r).seen = 2 * (c.node r).calls := seen
          simp only [stage, value] at taken
          split at taken
          case isTrue root =>
            simp only [small (.inr ⟨rfl, root⟩), ↓reduceIte] at taken
            have root : r = 0 := Fin.ext root
            subst root
            cases taken
            refine inStep.keep (ok.move at_call ⟨rfl, rfl⟩ ?_ sent received) ?_ ?_
              (inStep.bcasts_add rfl ?_ rfl)
            · rw [at_size]
              rfl
            · intro child _
              cases child <;> simp [Node.taken, stage, Stage.taken]
            · simp [Node.posted, stage, Stage.posted]
            · rw [at_size]
              exact wires_size at_call 0
          case isFalse notRoot =>
            split at taken
            case h_1 => cases taken
            case h_2 size found =>
              cases taken
              have found := inStep.bcasts_get found
              rw [at_size, wires_size at_call] at found
              cases found
              refine inStep.keep (ok.move at_call ⟨rfl, rfl⟩ ?_ sent received) ?_ ?_
                (inStep.shown fun root => absurd root notRoot)
              · rw [at_size]
                rfl
              · intro child _
                cases child <;> simp [Node.taken, stage, Stage.taken]
              · simp [Node.posted, stage, Stage.posted]
            case h_3 packed found =>
              have found := inStep.bcasts_get found
              rw [at_size, wires_size at_call] at found
              cases found
      | bcastBytes size =>
          rw [stage] at stage_ok seen
          obtain ⟨value, rfl⟩ := stage_ok
          have at_bytes : (c.node r).seen = 2 * (c.node r).calls + 1 := seen
          have taken_same : ∀ child,
              ((c.node r).return calls r (call.value 0)).taken child = (c.node r).taken child := by
            intro child
            cases child <;>
              simp [Node.taken, Node.return, Node.begin, stage, Stage.taken, Nat.mul_succ]
          have posted_same :
              ((c.node r).return calls r (call.value 0)).posted = (c.node r).posted := by
            simp [Node.posted, Node.return, Node.begin, stage, Stage.posted, Nat.mul_succ]
          simp only [stage, value, Call.unpack_value] at taken
          split at taken
          case isTrue root =>
            have root : r = 0 := Fin.ext root
            subst root
            cases taken
            refine inStep.keep (ok.return at_call stage) (fun child _ => taken_same child)
              (fun _ => posted_same) (inStep.bcasts_add rfl ?_ rfl)
            rw [at_bytes]
            exact wires_bytes at_call 0
          case isFalse notRoot =>
            split at taken
            case h_1 => cases taken
            case h_2 packed found =>
              have found := inStep.bcasts_get found
              rw [at_bytes, wires_bytes at_call] at found
              cases found
              simp only [↓reduceIte, Call.unpack_value] at taken
              cases taken
              exact inStep.keep (ok.return at_call stage) (fun child _ => taken_same child)
                (fun _ => posted_same) (inStep.shown fun root => absurd root notRoot)
            case h_3 size found =>
              have found := inStep.bcasts_get found
              rw [at_bytes, wires_bytes at_call] at found
              cases found
      | thrown => simp [stage] at taken
      | broken => simp [stage] at taken

/-- **Every step keeps the ranks in step**, if all partial merges are small enough. -/
theorem InStep.step {synchronous : Bool} {c' : System n α} (fits : Fits calls)
    (inStep : InStep calls c) (taken : Reduce.step synchronous calls r c = some c') :
    InStep calls c' :=
  inStep.step_of_small
    (fun call at_call _ => fits call (List.mem_of_getElem? at_call) r r.isLt) taken

/-- A step after which its rank has not thrown has passed its assertion. -/
theorem InStep.step_of_unthrown {synchronous : Bool} {c' : System n α} (inStep : InStep calls c)
    (taken : Reduce.step synchronous calls r c = some c')
    (unthrown : (c'.node r).stage ≠ .thrown) : InStep calls c' := by
  refine inStep.step_of_small (fun call at_call checks => ?_) taken
  have stage_ok := (inStep.node r).stage call at_call
  by_contra large
  refine unthrown ?_
  unfold Reduce.step at taken
  simp only [at_call] at taken
  rcases checks with ⟨stage, notRoot⟩ | ⟨stage, root⟩ <;> rw [stage] at stage_ok
  · have value : (c.node r).tmp = call.value r := stage_ok
    simp only [stage, value] at taken
    rw [if_pos notRoot, if_neg large] at taken
    cases taken
    simp
  · have value : (c.node r).tmp = call.value r := stage_ok
    simp only [stage, value] at taken
    rw [if_pos root, if_neg large] at taken
    cases taken
    simp

end Step

end YGM.Reduce
