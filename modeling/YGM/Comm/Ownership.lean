import YGM.Comm.Pool
import YGM.Library.Machine
import Mathlib.Tactic.Abel

/-!
# Every buffer has one holder

A buffer is in the free pool, a send slot or the receive queue, or the listener has it, or a
flush that is under way, or one of the open buffers below a handler.  No step of either thread
makes two of these hold the same buffer (`holds_of_reachable`): each step passes handles on,
drops them, uses one of them, or makes a new one, and these are the four rules for handles.

So a buffer has what its holder has put there.  The buffers of the free pool are empty, what
`allocate_buffer` returns is empty and nobody else's (`allocateBuffer_empty`), what is sent
are the bytes that were stored, once and in order, what is parsed are the messages that
were received, and an open buffer keeps its bytes (`buffers_owned`).
-/

namespace YGM.Pool

open scoped BigOperators

variable {n : ℕ} {bufferCapacity : ℕ} {grow : ℕ → ℕ → ℕ} {r : Fin n}

/-! ## The holders -/

/-- The buffer that a flush, or `free_buffer`, has in its hands. -/
def Op.held : Op n → Multiset Buffer
  | .none | .flush _ => 0
  | .swap _ buffer | .send _ buffer | .sending _ buffer | .clear buffer | .release buffer =>
      {buffer}

/-- The buffer that an activation of `receive_queue_process` has open; other activations have
none. -/
def Frame.held : Frame n → Multiset Buffer
  | .parse buffer _ _ _ => {buffer}
  | _ => 0

/-- The buffers that the listener has in its hands; for a large message these are two. -/
def Listener.held : Listener n → Multiset Buffer
  | .allocate | .stopped => 0
  | .resize buffer | .recv buffer | .announced buffer _ _ | .received buffer _ _
  | .push buffer _ => {buffer}
  | .large buffer largeBuffer _ _ | .pushLarge buffer largeBuffer _ => {buffer, largeBuffer}

/-- The buffers that the activations on a stack have open. -/
def openBuffers (stack : List (Frame n)) : Multiset Buffer :=
  (stack.map Frame.held).sum

/-- The buffers that a receive queue holds, as a multiset. -/
def queuedBuffers (queue : List (Buffer × Fin n)) : Multiset Buffer :=
  queue.map Prod.fst

/-- The buffers in the send slots, one for each destination. -/
def slotBuffers (sendBuffers : Fin n → Buffer) : Multiset Buffer :=
  ∑ dest, {sendBuffers dest}

/-- **All buffers of a rank, by their holders**, as the handles that these have. -/
def State.handles (s : State n) : Multiset Buffer :=
  s.freeBuffers + slotBuffers s.sendBuffers + s.listener.held + queuedBuffers s.receiveQueue + s.op.held
    + openBuffers s.stack

@[simp] theorem openBuffers_nil : openBuffers ([] : List (Frame n)) = 0 := rfl

@[simp] theorem openBuffers_cons (frame : Frame n) (stack : List (Frame n)) :
    openBuffers (frame :: stack) = frame.held + openBuffers stack := by
  simp [openBuffers]

@[simp] theorem queuedBuffers_cons (entry : Buffer × Fin n) (queue : List (Buffer × Fin n)) :
    queuedBuffers (entry :: queue) = {entry.1} + queuedBuffers queue := by
  simp [queuedBuffers]

@[simp] theorem queuedBuffers_append (queue queue' : List (Buffer × Fin n)) :
    queuedBuffers (queue ++ queue') = queuedBuffers queue + queuedBuffers queue' := by
  simp [queuedBuffers]

@[simp] theorem queuedBuffers_nil : queuedBuffers ([] : List (Buffer × Fin n)) = 0 := rfl

theorem slotBuffers_eq (sendBuffers : Fin n → Buffer) :
    slotBuffers sendBuffers = Finset.univ.val.map sendBuffers := by
  rw [slotBuffers, Finset.sum, ← Multiset.sum_map_singleton (Finset.univ.val.map sendBuffers),
    Multiset.map_map]
  rfl

/-- The buffers in the send slots are the one in the slot of `dest` and the others, which stay
when the slot gets another buffer. -/
theorem exists_slots (sendBuffers : Fin n → Buffer) (dest : Fin n) :
    ∃ others, slotBuffers sendBuffers = {sendBuffers dest} + others ∧
      ∀ buffer, slotBuffers (Function.update sendBuffers dest buffer) = {buffer} + others := by
  refine ⟨∑ d ∈ Finset.univ.erase dest, {sendBuffers d}, ?_, fun buffer => ?_⟩
  · exact (Finset.add_sum_erase _ _ (Finset.mem_univ dest)).symm
  · rw [slotBuffers, ← Finset.add_sum_erase _ _ (Finset.mem_univ dest), Function.update_self]
    congr 1
    refine Finset.sum_congr rfl fun d hd => ?_
    rw [Function.update_of_ne (Finset.ne_of_mem_erase hd)]

/-- **All holders of a rank have their buffers in order**: no two hold the same one, and each
buffer has the contents that its holder has put there. -/
def State.Held (s : State n) : Prop :=
  Holds Vec.data s.heap s.next s.handles

/-! ## Steps -/

/-- The buffers stay in order when `allocate_buffer` takes one out of the pool or makes a new
one; the buffer it returns has no other holder. -/
theorem holds_allocateBuffer {s : State n} {others : Multiset Buffer}
    (h : Holds Vec.data s.heap s.next (s.freeBuffers + others)) :
    Holds Vec.data (allocateBuffer bufferCapacity s).2.heap (allocateBuffer bufferCapacity s).2.next
      ((allocateBuffer bufferCapacity s).2.freeBuffers
        + ({(allocateBuffer bufferCapacity s).1} + others)) := by
  unfold allocateBuffer
  split
  · rename_i empty
    have fresh := h.fresh ⟨[], bufferCapacity⟩
    rw [empty] at fresh ⊢
    simpa using fresh
  · rename_i buffer freeBuffers pool
    rw [pool] at h
    refine h.of_le (le_of_eq ?_)
    rw [← Multiset.cons_coe, ← Multiset.singleton_add]
    abel

section Allocate

variable (s : State n)

/-- An `allocate_buffer` changes nothing of a rank but the pool and the heap. -/
theorem allocateBuffer_rest :
    (allocateBuffer bufferCapacity s).2 = { s with
      freeBuffers := (allocateBuffer bufferCapacity s).2.freeBuffers
      heap := (allocateBuffer bufferCapacity s).2.heap
      next := (allocateBuffer bufferCapacity s).2.next } := by
  unfold allocateBuffer
  split <;> rfl

@[simp] theorem allocateBuffer_slots :
    (allocateBuffer bufferCapacity s).2.sendBuffers = s.sendBuffers := by
  rw [allocateBuffer_rest]

@[simp] theorem allocateBuffer_queue :
    (allocateBuffer bufferCapacity s).2.receiveQueue = s.receiveQueue := by
  rw [allocateBuffer_rest]

@[simp] theorem allocateBuffer_listener :
    (allocateBuffer bufferCapacity s).2.listener = s.listener := by
  rw [allocateBuffer_rest]

@[simp] theorem allocateBuffer_op : (allocateBuffer bufferCapacity s).2.op = s.op := by
  rw [allocateBuffer_rest]

@[simp] theorem allocateBuffer_stack :
    (allocateBuffer bufferCapacity s).2.stack = s.stack := by
  rw [allocateBuffer_rest]

end Allocate

/-- The buffers stay in order when one of them is used by its holder. -/
theorem holds_apply {s : State n} {buffer : Buffer} {others : Multiset Buffer}
    (h : Holds Vec.data s.heap s.next ({buffer} + others)) (f : List UInt8 → List UInt8) :
    Holds Vec.data (s.apply grow f buffer).2.heap s.next
      ({(s.apply grow f buffer).1} + others) := by
  rw [Multiset.singleton_add] at h ⊢
  have agree := h.agree buffer (Multiset.mem_cons_self _ _)
  have written := h.write ((s.heap buffer.address).apply grow f)
  have same : ((s.heap buffer.address).apply grow f).data = f buffer.value := congrArg f agree
  rw [same] at written
  exact written

/-- The buffers stay in order in a step that passes handles on or drops them and leaves the heap
alone. -/
theorem State.Held.pass {s t : State n} (h : s.Held) (heap : t.heap = s.heap)
    (next : t.next = s.next) (le : t.handles ≤ s.handles) : t.Held := by
  unfold State.Held
  rw [heap, next]
  exact Holds.of_le h le

/-- The buffers stay in order in a step that allocates one and keeps at most that one and the
others. -/
theorem State.Held.allocate {s t : State n} (h : s.Held) {others : Multiset Buffer}
    (before : s.handles = s.freeBuffers + others)
    (heap : t.heap = (allocateBuffer bufferCapacity s).2.heap)
    (next : t.next = (allocateBuffer bufferCapacity s).2.next)
    (le : t.handles ≤ (allocateBuffer bufferCapacity s).2.freeBuffers
      + ({(allocateBuffer bufferCapacity s).1} + others)) : t.Held := by
  unfold State.Held at h ⊢
  rw [before] at h
  rw [heap, next]
  exact Holds.of_le (holds_allocateBuffer h) le

/-- The buffers stay in order in a step that uses one buffer and keeps at most that one and the
others. -/
theorem State.Held.use {s t : State n} (h : s.Held) (f : List UInt8 → List UInt8)
    {buffer : Buffer} {others : Multiset Buffer} (before : s.handles = {buffer} + others)
    (heap : t.heap = (s.apply grow f buffer).2.heap) (next : t.next = s.next)
    (le : t.handles ≤ {(s.apply grow f buffer).1} + others) : t.Held := by
  unfold State.Held at h ⊢
  rw [before] at h
  rw [heap, next]
  exact Holds.of_le (holds_apply h f) le

theorem held_userStep {s t : State n} {rest : List (Frame n)} {call : Call n} (h : s.Held)
    (op : s.op = .none) (stack : s.stack = .user :: rest)
    (taken : userStep bufferCapacity r s rest call = some t) : t.Held := by
  have same : t.heap = s.heap ∧ t.next = s.next ∧ t.handles = s.handles := by
    cases call with
    | async dest data =>
        simp only [userStep] at taken
        split at taken
        · cases taken
          simp [State.handles, stack, Frame.held]
        · split at taken
          · split at taken
            · cases taken
              simp [State.handles, stack, Frame.held, op, Op.held]
            · cases taken
              simp [State.handles, stack, Frame.held]
          · cases taken
            simp [State.handles, stack, Frame.held]
    | asyncFlush dest =>
        cases taken
        simp [State.handles, op, Op.held]
    | receiveQueueProcess =>
        cases taken
        simp [State.handles, stack, Frame.held]
    | ret =>
        simp only [userStep] at taken
        split at taken
        · cases taken
        · cases taken
          simp [State.handles, stack, Frame.held]
  exact h.pass same.1 same.2.1 same.2.2.le

theorem held_frameStep {s t : State n} {frame : Frame n} {rest : List (Frame n)} {call : Call n}
    {bytes : ℕ} (h : s.Held) (op : s.op = .none) (stack : s.stack = frame :: rest)
    (taken : frameStep bufferCapacity grow r s rest call bytes frame = some t) : t.Held := by
  cases frame with
  | user => exact held_userStep h op stack taken
  | store dest data =>
      cases taken
      obtain ⟨others, slot, update⟩ := exists_slots s.sendBuffers dest
      have before : s.handles = {s.sendBuffers dest} + (s.freeBuffers + others + s.listener.held
          + queuedBuffers s.receiveQueue + s.op.held + openBuffers rest) := by
        simp only [State.handles, slot, stack, openBuffers_cons, Frame.held]
        abel
      refine h.use (· ++ data) before rfl rfl (le_of_eq ?_)
      simp only [State.handles, State.apply, update]
      abel
  | peek =>
      simp only [frameStep] at taken
      split at taken
      · cases taken
        exact h.pass rfl rfl (by simp [State.handles, stack, Frame.held])
      · cases taken
        exact h.pass rfl rfl (by simp [State.handles, stack, Frame.held])
  | process =>
      simp only [frameStep] at taken
      split at taken
      · cases taken
        exact h.pass rfl rfl (by simp [State.handles, stack, Frame.held])
      · rename_i buffer src receiveQueue queue
        cases taken
        refine h.pass rfl rfl (le_of_eq ?_)
        simp only [State.handles, stack, queue, openBuffers_cons, queuedBuffers_cons, Frame.held]
        abel
  | parse buffer src size position =>
      simp only [frameStep] at taken
      split at taken
      · split at taken
        · cases taken
          refine h.pass rfl rfl (le_of_eq ?_)
          simp only [State.handles, stack, op, openBuffers_cons, Frame.held, Op.held]
          abel
        · -- the buffer goes out of scope
          cases taken
          refine h.pass rfl rfl ?_
          simp only [State.handles, stack, openBuffers_cons, Frame.held, zero_add]
          gcongr
          exact Multiset.le_add_left _ _
      · split at taken
        · cases taken
          exact h.pass rfl rfl (by simp [State.handles, stack, Frame.held])
        · cases taken

theorem held_mainStep {s t : State n} {call : Call n} {bytes : ℕ} (h : s.Held)
    (taken : mainStep bufferCapacity grow r s call bytes = some t) : t.Held := by
  cases op : s.op with
  | none =>
      simp only [mainStep, op] at taken
      cases stack : s.stack with
      | nil => simp [stack] at taken
      | cons frame rest =>
          rw [stack] at taken
          exact held_frameStep h op stack taken
  | flush dest =>
      simp only [mainStep, op] at taken
      split at taken
      · cases taken
        exact h.pass rfl rfl (by simp [State.handles, op, Op.held])
      · cases taken
        have before : s.handles = s.freeBuffers + (slotBuffers s.sendBuffers + s.listener.held
            + queuedBuffers s.receiveQueue + openBuffers s.stack) := by
          simp only [State.handles, op, Op.held]
          abel
        refine h.allocate before rfl rfl (le_of_eq ?_)
        simp only [State.handles, allocateBuffer_slots, allocateBuffer_listener,
          allocateBuffer_queue, allocateBuffer_stack, Op.held]
        abel
  | swap dest buffer =>
      simp only [mainStep, op] at taken
      cases taken
      obtain ⟨others, slot, update⟩ := exists_slots s.sendBuffers dest
      refine h.pass rfl rfl (le_of_eq ?_)
      simp only [State.handles, slot, update, op, Op.held]
      abel
  | send dest buffer | sending dest buffer =>
      simp only [mainStep, op] at taken
      cases taken
      exact h.pass rfl rfl (by simp [State.handles, op, Op.held])
  | clear buffer =>
      simp only [mainStep, op] at taken
      cases taken
      have before : s.handles = {buffer} + (s.freeBuffers + slotBuffers s.sendBuffers
          + s.listener.held + queuedBuffers s.receiveQueue + openBuffers s.stack) := by
        simp only [State.handles, op, Op.held]
        abel
      refine h.use (fun _ => []) before rfl rfl (le_of_eq ?_)
      simp only [State.handles, State.apply, Op.held]
      abel
  | release buffer =>
      simp only [mainStep, op] at taken
      cases taken
      refine h.pass rfl rfl (le_of_eq ?_)
      simp only [State.handles, op, Op.held, ← Multiset.cons_coe, ← Multiset.singleton_add]
      abel

/-- The buffers stay in order in a step in which the listener uses a buffer in its hands and
nothing else happens. -/
theorem State.Held.handle {s t : State n} (h : s.Held) {buffer : Buffer} {others : Multiset Buffer}
    {f : List UInt8 → List UInt8} (hand : s.listener.held = {buffer} + others)
    (step : t = { (s.apply grow f buffer).2 with listener := t.listener, taken := t.taken })
    (le : t.listener.held ≤ {(s.apply grow f buffer).1} + others) : t.Held := by
  have before : s.handles = {buffer} + (others + (s.freeBuffers + slotBuffers s.sendBuffers
      + queuedBuffers s.receiveQueue + s.op.held + openBuffers s.stack)) := by
    simp only [State.handles, hand]
    abel
  refine h.use f before (by rw [step]) (by rw [step]; rfl) ?_
  have after : t.handles = t.listener.held + (s.freeBuffers + slotBuffers s.sendBuffers
      + queuedBuffers s.receiveQueue + s.op.held + openBuffers s.stack) := by
    rw [step]
    simp only [State.handles, State.apply]
    abel
  rw [after]
  exact (Multiset.add_le_add_right le).trans (le_of_eq (add_assoc _ _ _))

theorem held_listenStep {s t : State n} {src : Fin n} {announcement : Bool}
    {message : List UInt8} (h : s.Held)
    (taken : listenStep bufferCapacity grow r s src announcement message = some t) : t.Held := by
  cases listener : s.listener with
  | allocate =>
      simp only [listenStep, listener] at taken
      cases taken
      have before : s.handles = s.freeBuffers + (slotBuffers s.sendBuffers
          + queuedBuffers s.receiveQueue + s.op.held + openBuffers s.stack) := by
        simp only [State.handles, listener, Listener.held]
        abel
      refine h.allocate before rfl rfl (le_of_eq ?_)
      simp only [State.handles, allocateBuffer_slots, allocateBuffer_op, allocateBuffer_queue,
        allocateBuffer_stack, Listener.held]
      abel
  | resize buffer =>
      have hand : s.listener.held = {buffer} + 0 := by simp [listener, Listener.held]
      simp only [listenStep, listener] at taken
      cases taken
      exact h.handle hand rfl (by simp [Listener.held])
  | recv buffer =>
      have hand : s.listener.held = {buffer} + 0 := by simp [listener, Listener.held]
      simp only [listenStep, listener] at taken
      split at taken
      · split at taken
        · cases taken
          exact h.handle hand rfl (by simp [Listener.held])
        · cases taken
          exact h.handle hand rfl (by simp [Listener.held])
      · cases taken
  | announced buffer src size =>
      simp only [listenStep, listener] at taken
      cases taken
      unfold State.Held at h ⊢
      refine Holds.of_le (h.fresh ⟨List.replicate size 0, size⟩) (le_of_eq ?_)
      simp only [State.handles, listener, Listener.held, ← Multiset.singleton_add,
        Multiset.insert_eq_cons]
      abel
  | large buffer large source size =>
      have hand : s.listener.held = {large} + {buffer} := by
        rw [listener, add_comm]
        rfl
      simp only [listenStep, listener] at taken
      split at taken
      · cases taken
        refine h.handle hand rfl (le_of_eq ?_)
        rw [add_comm]
        rfl
      · cases taken
  | pushLarge buffer large source =>
      simp only [listenStep, listener] at taken
      cases taken
      refine h.pass rfl rfl ?_
      have rest : s.handles = {buffer} + (s.freeBuffers + slotBuffers s.sendBuffers
          + queuedBuffers s.receiveQueue + {large} + s.op.held + openBuffers s.stack) := by
        simp only [State.handles, listener, Listener.held, Multiset.insert_eq_cons,
          ← Multiset.singleton_add]
        abel
      rw [rest]
      refine le_trans (le_of_eq ?_) (Multiset.le_add_left _ _)
      simp only [State.handles, Listener.held, queuedBuffers_append, queuedBuffers_cons,
        queuedBuffers_nil]
      abel
  | received buffer source count =>
      have hand : s.listener.held = {buffer} + 0 := by simp [listener, Listener.held]
      simp only [listenStep, listener] at taken
      split at taken
      · cases taken
        exact h.handle hand rfl (by simp [Listener.held])
      · cases taken
        exact h.handle hand rfl (by simp [Listener.held])
  | push buffer source =>
      simp only [listenStep, listener] at taken
      cases taken
      refine h.pass rfl rfl (le_of_eq ?_)
      simp only [State.handles, listener, Listener.held, queuedBuffers_append, queuedBuffers_cons,
        queuedBuffers_nil]
      abel
  | stopped =>
      simp only [listenStep, listener] at taken
      cases taken

theorem held_init : (State.init n bufferCapacity).Held := by
  have handles : (State.init n bufferCapacity).handles
      = Finset.univ.val.map fun dest : Fin n => ⟨dest.val, []⟩ := by
    simp [State.handles, State.init, slotBuffers_eq, Listener.held, Op.held, Frame.held]
  refine ⟨?_, fun b mem => ?_, fun b mem => ?_⟩
  · rw [handles, Multiset.map_map]
    exact (Multiset.nodup_map_iff_of_injective Fin.val_injective).mpr Finset.univ.nodup
  · rw [handles] at mem
    obtain ⟨dest, -, rfl⟩ := Multiset.mem_map.mp mem
    exact dest.isLt
  · rw [handles] at mem
    obtain ⟨dest, -, rfl⟩ := Multiset.mem_map.mp mem
    rfl

/-- **In every state reached** by the two threads of a rank, its buffers are in order. -/
theorem held_of_reachable {s : State n} (h : (threads bufferCapacity grow r).Reachable s) :
    s.Held := by
  refine h.invariant held_init ?_
  intro s a t _ inv taken
  cases a with
  | main call bytes => exact held_mainStep inv taken
  | listen src announcement message => exact held_listenStep inv taken

/-! ## The contents -/

/-- The buffer that a flush has taken out of the pool, and the one that `free_buffer` is about
to put there, are empty. -/
def Op.Empty : Op n → Prop
  | .swap _ buffer | .release buffer => buffer.value = []
  | _ => True

/-- The buffers that the listener posts for its receives are filled with zeros, to the size of
the receive. -/
def Listener.Zeroed (bufferCapacity : ℕ) : Listener n → Prop
  | .resize buffer => buffer.value = []
  | .recv buffer => buffer.value = List.replicate bufferCapacity 0
  | .large _ largeBuffer _ size => largeBuffer.value = List.replicate size 0
  | _ => True

/-- The bytes for `dest` that a flush has taken out of the send slot and not sent yet. -/
def Op.unsent (content : Buffer → List UInt8) (dest : Fin n) : Op n → List UInt8
  | .send target buffer => if target = dest then content buffer else []
  | _ => []

/-- The message that the listener has received and not pushed yet, cut to the bytes received,
with its source. -/
def Listener.arrived (content : Buffer → List UInt8) (r : Fin n) :
    Listener n → List (List UInt8 × Fin n)
  | .received buffer src count => if src = r then [] else [(Pool.resize count (content buffer), src)]
  | .push buffer src | .pushLarge _ buffer src => [(content buffer, src)]
  | _ => []

/-- The messages in a receive queue, each with its source. -/
def waiting (content : Buffer → List UInt8) (queue : List (Buffer × Fin n)) :
    List (List UInt8 × Fin n) :=
  queue.map fun entry => (content entry.1, entry.2)

/-- **The contents of the buffers that the holders have**, compared with the histories of the
bytes stored and sent and of the messages received and opened. -/
structure State.Filled (bufferCapacity : ℕ) (r : Fin n) (s : State n) : Prop where
  free : ∀ b ∈ s.freeBuffers, b.value = []
  op : s.op.Empty
  listener : s.listener.Zeroed bufferCapacity
  sends : ∀ dest, (s.sent dest).flatten ++ s.op.unsent Handle.value dest
    ++ (s.sendBuffers dest).value = s.stored dest
  receives : s.opened ++ waiting Handle.value s.receiveQueue
    ++ s.listener.arrived Handle.value r = s.taken
  sizes : ∀ b src size position, .parse b src size position ∈ s.stack →
    size = b.value.length ∧ position ≤ size

/-- The buffer that `allocate_buffer` returns is empty, and so are the buffers that remain in
the pool. -/
theorem State.Filled.allocated {s : State n} (h : s.Filled bufferCapacity r) :
    (allocateBuffer bufferCapacity s).1.value = [] ∧
      ∀ b ∈ (allocateBuffer bufferCapacity s).2.freeBuffers, b.value = [] := by
  have free := h.free
  unfold allocateBuffer
  split
  · rename_i empty
    exact ⟨rfl, by simp [empty]⟩
  · rename_i buffer freeBuffers pool
    rw [pool, List.forall_mem_cons] at free
    exact free

theorem filled_userStep {s t : State n} {rest : List (Frame n)} {call : Call n}
    (h : s.Filled bufferCapacity r) (op : s.op = .none) (stack : s.stack = .user :: rest)
    (taken : userStep bufferCapacity r s rest call = some t) : t.Filled bufferCapacity r := by
  obtain ⟨free, empty, listener, sends, receives, sizes⟩ := h
  rw [op] at empty sends
  have below : ∀ b src size position, .parse b src size position ∈ rest →
      size = b.value.length ∧ position ≤ size :=
    fun b src size position mem => sizes b src size position (by rw [stack]; simp [mem])
  cases call with
  | async dest data =>
      simp only [userStep] at taken
      split at taken
      · cases taken
        exact ⟨free, by rw [op]; trivial, listener, by simpa [op] using sends, receives,
          by simpa using below⟩
      · split at taken
        · split at taken
          · cases taken
            exact ⟨free, trivial, listener, sends, receives, by simpa using below⟩
          · cases taken
            exact ⟨free, by rw [op]; trivial, listener, by simpa [op] using sends, receives,
              by simpa using below⟩
        · cases taken
          exact ⟨free, by rw [op]; trivial, listener, by simpa [op] using sends, receives,
            by simpa using below⟩
  | asyncFlush dest =>
      cases taken
      exact ⟨free, trivial, listener, sends, receives, sizes⟩
  | receiveQueueProcess =>
      cases taken
      exact ⟨free, by rw [op]; trivial, listener, by simpa [op] using sends, receives,
        by simpa using below⟩
  | ret =>
      simp only [userStep] at taken
      split at taken
      · cases taken
      · cases taken
        exact ⟨free, by rw [op]; trivial, listener, by simpa [op] using sends, receives, below⟩

theorem filled_frameStep {s t : State n} {frame : Frame n} {rest : List (Frame n)} {call : Call n}
    {bytes : ℕ} (held : s.Held) (h : s.Filled bufferCapacity r) (op : s.op = .none)
    (stack : s.stack = frame :: rest)
    (taken : frameStep bufferCapacity grow r s rest call bytes frame = some t) :
    t.Filled bufferCapacity r := by
  have below : ∀ b src size position, .parse b src size position ∈ rest →
      size = b.value.length ∧ position ≤ size :=
    fun b src size position mem => h.sizes b src size position (by rw [stack]; simp [mem])
  cases frame with
  | user => exact filled_userStep h op stack taken
  | store dest data =>
      cases taken
      refine ⟨h.free, h.op, h.listener, fun d => ?_, h.receives, below⟩
      have sends := h.sends d
      by_cases here : d = dest
      · subst here
        simp only [Function.update_self, ← List.append_assoc, sends]
      · simpa only [State.apply, Function.update_of_ne here] using sends
  | peek =>
      simp only [frameStep] at taken
      split at taken
      · cases taken
        exact ⟨h.free, h.op, h.listener, h.sends, h.receives, below⟩
      · cases taken
        exact ⟨h.free, h.op, h.listener, h.sends, h.receives, by simpa using below⟩
  | process =>
      simp only [frameStep] at taken
      split at taken
      · cases taken
        exact ⟨h.free, h.op, h.listener, h.sends, h.receives, below⟩
      · rename_i buffer src receiveQueue queue
        have same : (s.heap buffer.address).data = buffer.value :=
          held.agree buffer (by simp [State.handles, queue])
        have receives := h.receives
        cases taken
        refine ⟨h.free, h.op, h.listener, h.sends, ?_, ?_⟩
        · rw [queue] at receives
          simpa [waiting, same] using receives
        · rintro b src' size position (_ | ⟨_, mem⟩)
          · exact ⟨congrArg List.length same, Nat.zero_le _⟩
          · exact below b src' size position mem
  | parse buffer src size position =>
      obtain ⟨whole, within⟩ := h.sizes buffer src size position (by simp [stack])
      simp only [frameStep] at taken
      split at taken
      · split at taken
        · cases taken
          refine ⟨h.free, trivial, h.listener, ?_, h.receives, by simpa using below⟩
          simpa [op, Op.unsent] using h.sends
        · cases taken
          exact ⟨h.free, h.op, h.listener, h.sends, h.receives, by simpa using below⟩
      · split at taken
        · rename_i more
          cases taken
          refine ⟨h.free, h.op, h.listener, h.sends, h.receives, ?_⟩
          simp only [List.mem_cons, reduceCtorEq, Frame.parse.injEq, false_or]
          rintro b src' size' position' (⟨rfl, rfl, rfl, rfl⟩ | mem)
          · exact ⟨whole, more.2⟩
          · exact below b src' size' position' mem
        · cases taken

theorem filled_mainStep {s t : State n} {call : Call n} {bytes : ℕ} (held : s.Held)
    (h : s.Filled bufferCapacity r)
    (taken : mainStep bufferCapacity grow r s call bytes = some t) : t.Filled bufferCapacity r := by
  have empty := h.op
  have sends := h.sends
  cases op : s.op with
  | none =>
      simp only [mainStep, op] at taken
      cases stack : s.stack with
      | nil => simp [stack] at taken
      | cons frame rest =>
          rw [stack] at taken
          exact filled_frameStep held h op stack taken
  | flush dest =>
      rw [op] at sends
      simp only [mainStep, op] at taken
      split at taken
      · cases taken
        exact ⟨h.free, trivial, h.listener, sends, h.receives, h.sizes⟩
      · obtain ⟨allocated, free⟩ := h.allocated
        cases taken
        refine ⟨free, allocated, ?_, ?_, ?_, ?_⟩
        · rw [allocateBuffer_rest]
          exact h.listener
        · rw [allocateBuffer_rest]
          exact sends
        · rw [allocateBuffer_rest]
          exact h.receives
        · rw [allocateBuffer_rest]
          exact h.sizes
  | swap dest buffer =>
      rw [op] at empty sends
      simp only [mainStep, op] at taken
      cases taken
      refine ⟨h.free, trivial, h.listener, fun d => ?_, h.receives, h.sizes⟩
      by_cases here : d = dest
      · subst here
        have nothing : buffer.value = [] := empty
        simpa [Op.unsent, nothing] using sends d
      · simpa [Op.unsent, here, Ne.symm here] using sends d
  | send dest buffer =>
      have same : (s.heap buffer.address).data = buffer.value :=
        held.agree buffer (by simp [State.handles, op, Op.held])
      rw [op] at sends
      simp only [mainStep, op] at taken
      cases taken
      refine ⟨h.free, trivial, h.listener, fun d => ?_, h.receives, h.sizes⟩
      by_cases here : d = dest
      · subst here
        simpa [Op.unsent, same] using sends d
      · simpa [Op.unsent, here, Ne.symm here] using sends d
  | sending dest buffer =>
      rw [op] at sends
      simp only [mainStep, op] at taken
      cases taken
      exact ⟨h.free, trivial, h.listener, sends, h.receives, h.sizes⟩
  | clear buffer =>
      rw [op] at sends
      simp only [mainStep, op] at taken
      cases taken
      exact ⟨h.free, rfl, h.listener, sends, h.receives, h.sizes⟩
  | release buffer =>
      rw [op] at empty sends
      simp only [mainStep, op] at taken
      cases taken
      exact ⟨List.forall_mem_cons.mpr ⟨empty, h.free⟩, trivial, h.listener, sends, h.receives, h.sizes⟩

theorem resize_receive (message data : List UInt8) :
    resize message.length (receive message data) = message := by
  simp [resize, receive]

theorem filled_listenStep {s t : State n} {src : Fin n} {announcement : Bool}
    {message : List UInt8} (h : s.Filled bufferCapacity r)
    (taken : listenStep bufferCapacity grow r s src announcement message = some t) :
    t.Filled bufferCapacity r := by
  have zeroed := h.listener
  have receives := h.receives
  cases listener : s.listener with
  | allocate =>
      obtain ⟨allocated, free⟩ := h.allocated
      rw [listener] at receives
      simp only [listenStep, listener] at taken
      cases taken
      refine ⟨free, ?_, allocated, ?_, ?_, ?_⟩
      · rw [allocateBuffer_rest]
        exact h.op
      · rw [allocateBuffer_rest]
        exact h.sends
      · rw [allocateBuffer_rest]
        exact receives
      · rw [allocateBuffer_rest]
        exact h.sizes
  | resize buffer =>
      rw [listener] at zeroed receives
      simp only [listenStep, listener] at taken
      cases taken
      have nothing : buffer.value = [] := zeroed
      refine ⟨h.free, h.op, ?_, h.sends, receives, h.sizes⟩
      simp [Listener.Zeroed, State.apply, Pool.resize, nothing]
  | recv buffer =>
      rw [listener] at receives
      simp only [listenStep, listener] at taken
      split at taken
      · split at taken
        · cases taken
          exact ⟨h.free, h.op, trivial, h.sends, receives, h.sizes⟩
        · cases taken
          refine ⟨h.free, h.op, trivial, h.sends, ?_, h.sizes⟩
          have same : resize message.length (s.apply grow (receive message) buffer).1.value
              = message := resize_receive message buffer.value
          have before : s.opened ++ waiting Handle.value s.receiveQueue
              = s.taken := by simpa [waiting, Listener.arrived] using receives
          by_cases own : src = r
          · simpa [State.apply, Listener.arrived, own] using before
          · simp only [Listener.arrived, own, if_false, same]
            exact congrArg (· ++ [(message, src)]) before
      · cases taken
  | announced buffer src size =>
      rw [listener] at receives
      simp only [listenStep, listener] at taken
      cases taken
      exact ⟨h.free, h.op, rfl, h.sends, receives, h.sizes⟩
  | large buffer large source size =>
      rw [listener] at receives zeroed
      simp only [listenStep, listener] at taken
      split at taken
      · cases taken
        refine ⟨h.free, h.op, trivial, h.sends, ?_, h.sizes⟩
        have zeros : large.value = List.replicate size 0 := zeroed
        have value : (s.apply grow (receive message) large).1.value
            = message ++ List.replicate (size - message.length) 0 := by
          simp [State.apply, receive, zeros]
        have before : s.opened ++ waiting Handle.value s.receiveQueue
            = s.taken := by simpa [waiting, Listener.arrived] using receives
        simp only [Listener.arrived, value]
        exact congrArg (· ++ [_]) before
      · cases taken
  | pushLarge buffer large source =>
      rw [listener] at receives
      simp only [listenStep, listener] at taken
      cases taken
      refine ⟨h.free, h.op, trivial, h.sends, ?_, h.sizes⟩
      simpa [waiting, Listener.arrived] using receives
  | received buffer source count =>
      rw [listener] at receives
      simp only [listenStep, listener] at taken
      split at taken
      · rename_i own
        cases taken
        refine ⟨h.free, h.op, trivial, h.sends, ?_, h.sizes⟩
        simpa [State.apply, Listener.arrived, own] using receives
      · rename_i other
        cases taken
        refine ⟨h.free, h.op, trivial, h.sends, ?_, h.sizes⟩
        simpa [State.apply, Listener.arrived, other] using receives
  | push buffer source =>
      rw [listener] at receives
      simp only [listenStep, listener] at taken
      cases taken
      refine ⟨h.free, h.op, trivial, h.sends, ?_, h.sizes⟩
      simpa [waiting, Listener.arrived] using receives
  | stopped =>
      simp only [listenStep, listener] at taken
      cases taken

theorem filled_of_reachable {s : State n} (h : (threads bufferCapacity grow r).Reachable s) :
    s.Filled bufferCapacity r := by
  refine (h.invariant (I := fun s => s.Held ∧ s.Filled bufferCapacity r) ?_ ?_).2
  · refine ⟨held_init, ?_⟩
    refine ⟨by simp [threads, State.init], trivial, trivial, ?_, ?_, ?_⟩
    · simp [threads, State.init, Op.unsent]
    · simp [threads, State.init, waiting, Listener.arrived]
    · simp [threads, State.init]
  · rintro s a t _ ⟨held, filled⟩ taken
    cases a with
    | main call bytes => exact ⟨held_mainStep held taken, filled_mainStep held filled taken⟩
    | listen src announcement message =>
        exact ⟨held_listenStep held taken, filled_listenStep filled taken⟩

/-! ## Ownership -/

/-- The bytes that a buffer has in the heap. -/
def State.bytes (s : State n) (buffer : Buffer) : List UInt8 :=
  (s.heap buffer.address).data

/-- **The ownership and the contents of all buffers**, read from the heap and from the places
that hold a buffer. -/
structure Owned (bufferCapacity : ℕ) (grow : ℕ → ℕ → ℕ) (r : Fin n) (s : State n) : Prop where
  /-- No buffer has two holders, wherever they are. -/
  once : (s.handles.map Handle.address).Nodup
  /-- The buffers of the free pool are empty. -/
  free : ∀ b ∈ s.freeBuffers, s.bytes b = []
  /-- A buffer that `allocate_buffer` returns is empty, and no one else holds it. -/
  allocated : (allocateBuffer bufferCapacity s).2.bytes (allocateBuffer bufferCapacity s).1 = [] ∧
    (allocateBuffer bufferCapacity s).1.address
      ∉ (allocateBuffer bufferCapacity s).2.handles.map Handle.address
  /-- The bytes stored for a destination were sent or are about to be sent, once and in order. -/
  sends : ∀ dest, (s.sent dest).flatten ++ s.op.unsent s.bytes dest ++ s.bytes (s.sendBuffers dest)
    = s.stored dest
  /-- The messages received have been opened or are about to be, once and in order. -/
  receives : s.opened ++ waiting s.bytes s.receiveQueue ++ s.listener.arrived s.bytes r = s.taken
  /-- An archive has the bytes of its buffer. -/
  sizes : ∀ b src size position, .parse b src size position ∈ s.stack →
    size = (s.bytes b).length ∧ position ≤ size
  /-- No step of a thread changes a buffer that is open or in `MPI_Send`, and stays so. -/
  kept : ∀ a t, (threads bufferCapacity grow r).step s a = some t →
    (∀ b src size position position', .parse b src size position ∈ s.stack →
      .parse b src size position' ∈ t.stack → t.bytes b = s.bytes b) ∧
    ∀ dest b, s.op = .sending dest b → t.op = .sending dest b → t.bytes b = s.bytes b

section Contents

variable {content content' : Buffer → List UInt8}

/-- If two accounts of the contents agree on the buffer that a flush holds, they agree on the
bytes the flush has not sent. -/
theorem Op.unsent_congr {op : Op n} (same : ∀ b ∈ op.held, content b = content' b)
    (dest : Fin n) : op.unsent content dest = op.unsent content' dest := by
  cases op with
  | send target b => simp [Op.unsent, same b (Multiset.mem_singleton_self b)]
  | _ => rfl

theorem Listener.arrived_congr {listener : Listener n}
    (same : ∀ b ∈ listener.held, content b = content' b) :
    listener.arrived content r = listener.arrived content' r := by
  cases listener with
  | received b src count => simp [Listener.arrived, same b (Multiset.mem_singleton_self b)]
  | push b src => simp [Listener.arrived, same b (Multiset.mem_singleton_self b)]
  | pushLarge b large src => simp [Listener.arrived, same large (by simp [Listener.held])]
  | _ => rfl

theorem waiting_congr {queue : List (Buffer × Fin n)}
    (same : ∀ b ∈ queuedBuffers queue, content b = content' b) :
    waiting content queue = waiting content' queue := by
  refine List.map_congr_left fun entry mem => ?_
  rw [same entry.1 (Multiset.mem_coe.mpr (List.mem_map_of_mem mem))]

end Contents

/-- **The buffer that `allocate_buffer` returns** is empty, and nobody else has it. -/
theorem allocateBuffer_empty {s : State n} (held : s.Held) (filled : s.Filled bufferCapacity r) :
    (allocateBuffer bufferCapacity s).2.bytes (allocateBuffer bufferCapacity s).1 = [] ∧
      (allocateBuffer bufferCapacity s).1.address
        ∉ (allocateBuffer bufferCapacity s).2.handles.map Handle.address := by
  have before : s.handles = s.freeBuffers + (slotBuffers s.sendBuffers + s.listener.held
      + queuedBuffers s.receiveQueue + s.op.held + openBuffers s.stack) := by
    simp only [State.handles]
    abel
  unfold State.Held at held
  rw [before] at held
  have after := @holds_allocateBuffer n bufferCapacity s _ held
  have whole : ((allocateBuffer bufferCapacity s).2.freeBuffers : Multiset Buffer)
      + ({(allocateBuffer bufferCapacity s).1} + (slotBuffers s.sendBuffers + s.listener.held
        + queuedBuffers s.receiveQueue + s.op.held + openBuffers s.stack))
      = (allocateBuffer bufferCapacity s).1 ::ₘ (allocateBuffer bufferCapacity s).2.handles := by
    simp only [State.handles, allocateBuffer_slots, allocateBuffer_listener, allocateBuffer_queue,
      allocateBuffer_op, allocateBuffer_stack, ← Multiset.singleton_add]
    abel
  rw [whole] at after
  have apart := after.apart
  rw [Multiset.map_cons, Multiset.nodup_cons] at apart
  refine ⟨?_, apart.1⟩
  rw [← filled.allocated.1]
  exact after.agree _ (Multiset.mem_cons_self _ _)

theorem mem_openBuffers {stack : List (Frame n)} {b : Buffer} {src : Fin n} {size position : ℕ}
    (mem : .parse b src size position ∈ stack) : b ∈ openBuffers stack := by
  induction stack with
  | nil => cases mem
  | cons frame stack ih =>
      rw [openBuffers_cons, Multiset.mem_add]
      rcases List.mem_cons.mp mem with rfl | mem
      · exact .inl (Multiset.mem_singleton_self _)
      · exact .inr (ih mem)

/-- **Buffers are owned**, whatever the two threads of a rank do and in whatever order: no
buffer has two holders, the buffers in the pool are empty, and the bytes stored for a
destination are sent once and in order. -/
theorem buffers_owned {s : State n} (h : (threads bufferCapacity grow r).Reachable s) :
    Owned bufferCapacity grow r s := by
  have held := held_of_reachable h
  have filled := filled_of_reachable h
  have slot : ∀ {s : State n} (dest : Fin n), s.sendBuffers dest ∈ s.handles := by
    intro s dest
    obtain ⟨others, slots, -⟩ := exists_slots s.sendBuffers dest
    simp [State.handles, slots]
  have isOpen : ∀ {s : State n} {b src size position}, .parse b src size position ∈ s.stack →
      b ∈ s.handles := by
    intro s b src size position mem
    simp [State.handles, mem_openBuffers mem]
  refine ⟨held.apart, fun b mem => ?_, ?_, fun dest => ?_, ?_, ?_, ?_⟩
  · rw [← filled.free b mem]
    exact held.agree b (by simp [State.handles, mem])
  · exact allocateBuffer_empty held filled
  · have unsent : s.op.unsent s.bytes dest = s.op.unsent Handle.value dest :=
      Op.unsent_congr (fun b mem => held.agree b (by simp [State.handles, mem])) dest
    have stored : s.bytes (s.sendBuffers dest) = (s.sendBuffers dest).value :=
      held.agree _ (slot dest)
    rw [unsent, stored]
    exact filled.sends dest
  · have queue : waiting s.bytes s.receiveQueue = waiting Handle.value s.receiveQueue :=
      waiting_congr fun b mem => held.agree b (by simp [State.handles, mem])
    have arrived : s.listener.arrived s.bytes r = s.listener.arrived Handle.value r :=
      Listener.arrived_congr fun b mem => held.agree b (by simp [State.handles, mem])
    rw [queue, arrived]
    exact filled.receives
  · intro b src size position mem
    have same : s.bytes b = b.value := held.agree b (isOpen mem)
    rw [same]
    exact filled.sizes b src size position mem
  · intro a t taken
    have after := held_of_reachable (h.step taken)
    refine ⟨fun b src size position position' before later => ?_, fun dest b before later => ?_⟩
    · exact (after.agree b (isOpen later)).trans (held.agree b (isOpen before)).symm
    · have mem : ∀ {s : State n}, s.op = .sending dest b → b ∈ s.handles := by
        intro s op
        simp [State.handles, op, Op.held]
      exact (after.agree b (mem later)).trans (held.agree b (mem before)).symm

/-! ## A run -/

/-- Steps of the listener and of the main thread whose labels say nothing: no message, no call
and no bytes. -/
def quietly (listens mains : ℕ) : List (Action 2) :=
  List.replicate listens (.listen 1 false []) ++ List.replicate mains (.main .ret 0)

/-- Rank 0 stores three bytes and finds a message of four in its queue; the handler for it
stores six bytes, which takes a flush, and receives a second message meanwhile. -/
def nestedRun : List (Action 2) :=
  quietly 2 0 ++ [.listen 1 false [4, 4, 4, 4]] ++ quietly 2 0 ++
    [.main (.async 1 [1, 2, 3]) 0] ++ quietly 0 3 ++ [.main .ret 4] ++
    [.main (.async 1 [5, 6, 7, 8, 9, 0]) 0] ++ quietly 2 0 ++ [.listen 1 false [2, 2]] ++
    quietly 2 9 ++ [.main .ret 2]

/-- The state in the handler of the second message, which runs inside the handler of the first
one, so both buffers are open. -/
def nestedState : State 2 :=
  (threads 8 max (0 : Fin 2)).drive (fun _ _ => True) (State.init 2 8) nestedRun

/-- In `nestedState` two buffers are open, and the buffer that was sent is back in the pool. -/
theorem buffers_owned_nested :
    (openBuffers nestedState.stack).map Handle.address = {3, 2} ∧
      nestedState.freeBuffers.map Handle.address = [1] ∧ nestedState.sent 1 = [[1, 2, 3]] ∧
      nestedState.opened = [([4, 4, 4, 4], 1), ([2, 2], 1)] ∧
      Owned 8 max (0 : Fin 2) nestedState := by
  have reached : (threads 8 max (0 : Fin 2)).Reachable nestedState :=
    Machine.ReachableBy.init.drive _
  exact ⟨by decide +kernel, by decide +kernel, by decide +kernel, by decide +kernel,
    buffers_owned reached⟩

end YGM.Pool
