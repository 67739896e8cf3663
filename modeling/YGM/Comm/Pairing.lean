import YGM.Comm.Order

/-!
# Announcements and large messages

A large message is announced and then sent, and the listener of its receiver takes the
announcement with its any-source receive and the message with a second receive, which
names the source and the tag.  All other messages between the same ranks, and those of
all other ranks, are on the same communicator.

`Traffic` records what was sent on each stream and what the listeners have pushed onto
the receive queues; nothing reads it.  Every stream is a sequence of buffers and of
announcements each followed by its message (`pairing`), and what a listener is at says
where in that sequence it is (`Paired`).  So the any-source receive never meets a large
message, and what is pushed is what was sent, in order (`large_messages_pair`).
-/

namespace YGM

variable {n : ℕ} {P σ V C : Type}
variable {cfg : Config} {prog : Program n P σ V C} {mem : Fin n → σ} {main : Fin n → C}

/-! ## What was sent and pushed -/

/-- **The messages of a run** (history): what the main threads have sent and what the listeners
have pushed. -/
structure Traffic (n : ℕ) (P : Type) where
  /-- The packets that have been sent from one rank to another, oldest first. -/
  sent : Fin n → Fin n → List (Packet n P)
  /-- The entries that a listener has pushed onto its receive queue, oldest first. -/
  pushed : Fin n → List (List (Rpc n P) × Fin n)

/-- The record after a step: a step of a main thread adds the packet it sends, and a step of a
listener adds the entry it pushes. -/
def Traffic.record (c : Sys n P σ V C) : Action n → Sys n P σ V C → Traffic n P → Traffic n P
  | .main _ _, d, t =>
      { t with
        sent := fun src dest => t.sent src dest ++ (d.net src dest).drop (c.net src dest).length }
  | .listen r _, d, t =>
      { t with
        pushed := Function.update t.pushed r
          (t.pushed r ++ (d.rank r).receiveQueue.drop (c.rank r).receiveQueue.length) }

/-- **The communicator with the record of its messages**, which no step reads. -/
def commTraffic (cfg : Config) (prog : Program n P σ V C) (mem : Fin n → σ)
    (main : Fin n → C) : Machine (Sys n P σ V C × Traffic n P) (Action n) :=
  (comm cfg prog mem main).recording ⟨fun _ _ => [], fun _ => []⟩ Traffic.record

/-- The entry that a message makes in the receive queue of its receiver; an announcement makes
none. -/
def Packet.entry : Packet n P → Option (List (Rpc n P))
  | .buffer msgs => some msgs
  | .announce _ => none
  | .large m => some [m]

/-- The entries that messages from `src` make in a receive queue, in the order of the messages. -/
def entries (src : Fin n) (packets : List (Packet n P)) : List (List (Rpc n P) × Fin n) :=
  (packets.filterMap Packet.entry).map fun msgs => (msgs, src)

@[simp] theorem entries_append (src : Fin n) (packets packets' : List (Packet n P)) :
    entries src (packets ++ packets') = entries src packets ++ entries src packets' := by
  simp [entries]

/-! ## The shape of a stream -/

/-- **Every announcement is followed by the message of that size.**  `awaited` is the size
of a message whose announcement comes before the stream, and the result that of a message
whose announcement ends it. -/
def pairing (prog : Program n P σ V C) : Option ℕ → List (Packet n P) → Option (Option ℕ)
  | awaited, [] => some awaited
  | none, .buffer _ :: stream => pairing prog none stream
  | none, .announce size :: stream => pairing prog (some size) stream
  | some size, .large m :: stream =>
      if prog.packedSize m.payload = size then pairing prog none stream else none
  | _, _ => none

theorem pairing_append (awaited : Option ℕ) (stream stream' : List (Packet n P)) :
    pairing prog awaited (stream ++ stream')
      = (pairing prog awaited stream).bind (pairing prog · stream') := by
  induction stream generalizing awaited with
  | nil => rfl
  | cons packet stream ih =>
      cases awaited with
      | none => cases packet <;> simp [pairing, ih]
      | some size =>
          cases packet with
          | large m =>
              by_cases fits : prog.packedSize m.payload = size <;> simp [pairing, fits, ih]
          | _ => rfl

/-- In a stream of which a large message is awaited, the next packet is a large message of the
announced size. -/
theorem pairing_some {size : ℕ} {packet : Packet n P} {stream : List (Packet n P)}
    {last : Option ℕ} (shape : pairing prog (some size) (packet :: stream) = some last) :
    ∃ m, packet = .large m ∧ prog.packedSize m.payload = size ∧
      pairing prog none stream = some last := by
  cases packet with
  | large m =>
      by_cases fits : prog.packedSize m.payload = size
      · exact ⟨m, rfl, fits, by simpa [pairing, fits] using shape⟩
      · simp [pairing, fits] at shape
  | _ => simp [pairing] at shape

/-- When a stream ends with a message awaited, its last packet is the announcement of that
message, or the stream is empty and the message was awaited before it. -/
theorem announced_of_pairing {awaited : Option ℕ} {stream : List (Packet n P)} {size : ℕ}
    (shape : pairing prog awaited stream = some (some size)) :
    stream = [] ∧ awaited = some size ∨ ∃ before, stream = before ++ [.announce size] := by
  induction stream generalizing awaited with
  | nil => exact .inl ⟨rfl, by simpa [pairing] using shape⟩
  | cons packet stream ih =>
      right
      have more : ∀ {awaited'}, pairing prog awaited' stream = some (some size) →
          (awaited' = some size → packet = .announce size) →
            ∃ before, packet :: stream = before ++ [.announce size] := by
        intro awaited' shape own
        rcases ih shape with ⟨rfl, here⟩ | ⟨before, rfl⟩
        · exact ⟨[], by rw [own here]; rfl⟩
        · exact ⟨packet :: before, rfl⟩
      cases awaited with
      | none =>
          cases packet with
          | buffer msgs => exact more (by simpa [pairing] using shape) (by simp)
          | announce size' =>
              exact more (by simpa [pairing] using shape) fun same => by rw [Option.some.inj same]
          | large m => simp [pairing] at shape
      | some size' =>
          obtain ⟨m, rfl, -, shape⟩ := pairing_some shape
          exact more shape (by simp)

/-- The size of the large message from `src` that the listener is waiting for, if it has taken
an announcement from `src`. -/
def Listener.awaits (src : Fin n) : Listener n → Option ℕ
  | .large source size => if source = src then some size else none
  | _ => none

/-- The size of the large message for `dest` that has been announced and not been sent yet. -/
def announcedTo (prog : Program n P σ V C) (dest : Fin n) (m : Option (Rpc n P)) : Option ℕ :=
  m.bind fun m => if m.dest = dest then some (prog.packedSize m.payload) else none

/-- **The stream from `src` to `r`**: what was sent is what the listener has taken, which
is what it has pushed, and what is still coming. -/
structure Paired (prog : Program n P σ V C) (src r : Fin n) (c : Sys n P σ V C)
    (t : Traffic n P) : Prop where
  shape : ∃ m, Announcing (c.rank src).stack m ∧
    pairing prog ((c.rank r).listener.awaits src) (c.net src r) = some (announcedTo prog r m)
  taken : ∃ before, t.sent src r = before ++ c.net src r ∧
    pairing prog none before = some ((c.rank r).listener.awaits src) ∧
    (t.pushed r).filter (fun entry => entry.2 = src) = entries src before

/-! ## Steps -/

/-- The size that a rank announces is the size of the large message it sends next to the same
destination. -/
theorem Move.announces {r dest : Fin n} {w : View n V} {s t : Rank n P σ V C} {size : ℕ}
    (move : Move cfg prog r w s t (some (dest, .announce size))) {m : Option (Rpc n P)}
    (h : Announcing t.stack m) : announcedTo prog dest m = some size := by
  cases move with
  | @announce m' rest stack =>
      cases h with
      | nothing clear => exact absurd trivial (clear (.large m') (by simp))
      | sending clear => simp [announcedTo]

section Send

variable {src r : Fin n} {m m' : Option (Rpc n P)} {sent : Option (Fin n × Packet n P)}

/-- The packets that a rank sends keep the shape of its streams: every announcement is followed
by its message. -/
theorem pairing_send (announced : Announced m sent m')
    (sizes : ∀ dest size, sent = some (dest, .announce size) → announcedTo prog dest m' = some size)
    (net : Fin n → Fin n → List (Packet n P)) {awaited : Option ℕ}
    (shape : pairing prog awaited (net src r) = some (announcedTo prog r m)) :
    pairing prog awaited (Sys.send net src sent src r) = some (announcedTo prog r m') := by
  cases announced with
  | same => exact shape
  | @buffer dest msgs =>
      by_cases here : r = dest
      · subst here
        simp [Sys.send, pairing_append, shape, announcedTo, pairing]
      · simpa [Sys.send, here] using shape
  | @announce m size =>
      by_cases here : r = m.dest
      · subst here
        rw [sizes m.dest size rfl]
        simp [Sys.send, pairing_append, shape, announcedTo, pairing]
      · simpa [Sys.send, here, announcedTo, Ne.symm here] using shape
  | @large m =>
      by_cases here : r = m.dest
      · subst here
        simp [Sys.send, pairing_append, shape, announcedTo, pairing]
      · simpa [Sys.send, here, announcedTo, Ne.symm here] using shape

end Send

/-- A step of a rank adds packets to the end of a stream and removes none, whichever stream it
is. -/
theorem Traffic.record_sent {src : Fin n} (net : Fin n → Fin n → List (Packet n P))
    (sent : Option (Fin n × Packet n P)) (s d : Fin n) :
    ∃ new, Sys.send net src sent s d = net s d ++ new :=
  ⟨_, Sys.send_eq_append net src sent s d⟩

/-- **A receive from another rank** takes an announcement, a buffer, or the message that was
announced. -/
inductive Takes (prog : Program n P σ V C) (src : Fin n) (s t : Rank n P σ V C) :
    List (Packet n P) → List (Packet n P) → Prop
  | announcement {size : ℕ} {stream : List (Packet n P)} (any : s.listener = .any)
      (next : t = { s with listener := .large src size }) :
      Takes prog src s t (.announce size :: stream) stream
  | buffer {msgs : List (Rpc n P)} {stream : List (Packet n P)} (any : s.listener = .any)
      (next : t = { s with
        listener := .any
        receiveQueue := s.receiveQueue ++ [(msgs, src)] }) :
      Takes prog src s t (.buffer msgs :: stream) stream
  | large {m : Rpc n P} {stream : List (Packet n P)}
      (awaited : s.listener = .large src (prog.packedSize m.payload))
      (next : t = { s with
        listener := .any
        receiveQueue := s.receiveQueue ++ [([m], src)] }) :
      Takes prog src s t (.large m :: stream) stream

/-- **The listener takes what it should**: an any-source receive takes a buffer or an
announcement, and the second receive takes the message that was announced. -/
theorem Receive.takes {r src : Fin n} {s t : Rank n P σ V C}
    {stream stream' : List (Packet n P)}
    (receive : Receive cfg prog r src s stream t stream') (other : src ≠ r) {last : Option ℕ}
    (shape : pairing prog (s.listener.awaits src) stream = some last) :
    Takes prog src s t stream stream' := by
  cases receive with
  | announced any head fits =>
      subst head
      exact .announcement any rfl
  | stop any head data own => exact absurd own other
  | buffer any head fits _ =>
      subst head
      exact .buffer any rfl
  | stray any head fits _ =>
      subst head
      simp [any, Listener.awaits, pairing] at shape
  | @large size m stream' awaited taken announced =>
      cases stream with
      | nil => cases taken
      | cons packet stream =>
          have awaits : s.listener.awaits src = some size := by
            simp [awaited, Listener.awaits]
          rw [awaits] at shape
          obtain ⟨m', rfl, -, -⟩ := pairing_some shape
          obtain ⟨rfl, rfl⟩ : m' = m ∧ stream = stream' := by simpa [takeLarge] using taken
          exact .large (announced ▸ awaited) rfl

/-- The packet that the listener takes is the first of its stream, and its entry is pushed at
the end of the receive queue. -/
theorem Takes.pairs {src : Fin n} {s t : Rank n P σ V C} {stream stream' : List (Packet n P)}
    (takes : Takes prog src s t stream stream') {last : Option ℕ}
    (shape : pairing prog (s.listener.awaits src) stream = some last) :
    ∃ packet, stream = packet :: stream' ∧
      t.receiveQueue = s.receiveQueue ++ entries src [packet] ∧
      pairing prog (s.listener.awaits src) [packet] = some (t.listener.awaits src) ∧
      pairing prog (t.listener.awaits src) stream' = some last := by
  cases takes with
  | announcement any next =>
      subst next
      refine ⟨_, rfl, by simp [entries, Packet.entry], ?_, ?_⟩
      · simp [any, Listener.awaits, pairing]
      · simpa [any, Listener.awaits, pairing] using shape
  | buffer any next =>
      subst next
      refine ⟨_, rfl, by simp [entries, Packet.entry], ?_, ?_⟩
      · simp [any, Listener.awaits, pairing]
      · simpa [any, Listener.awaits, pairing] using shape
  | large awaited next =>
      subst next
      refine ⟨_, rfl, by simp [entries, Packet.entry], ?_, ?_⟩
      · simp [awaited, Listener.awaits, pairing]
      · simpa [awaited, Listener.awaits, pairing] using shape

/-- A receive from another source changes neither what the listener awaits from `src` nor the
entries of `src`. -/
theorem Receive.awaits_of_ne {r src source : Fin n} {s t : Rank n P σ V C}
    {stream stream' : List (Packet n P)}
    (receive : Receive cfg prog r source s stream t stream') (other : source ≠ src) :
    t.listener.awaits src = s.listener.awaits src ∧
      ∃ new, t.receiveQueue = s.receiveQueue ++ new ∧ ∀ entry ∈ new, entry.2 = source := by
  cases receive with
  | announced any head fits => exact ⟨by simp [any, Listener.awaits, other], [], by simp, by simp⟩
  | stop any head data own => exact ⟨by simp [any, Listener.awaits], [], by simp, by simp⟩
  | buffer any head fits _ => exact ⟨by simp [any, Listener.awaits], _, rfl, by simp⟩
  | stray any head fits _ => exact ⟨by simp [any, Listener.awaits], _, rfl, by simp⟩
  | large awaited taken announced =>
      exact ⟨by simp [awaited, Listener.awaits, other], _, rfl, by simp⟩

/-! ## Runs -/

section Runs

variable {src r : Fin n}

theorem paired_of_reachable (apart : src ≠ r) {c : Sys n P σ V C} {t : Traffic n P}
    (h : (commTraffic cfg prog mem main).Reachable (c, t)) : Paired prog src r c t := by
  refine h.invariant (I := fun x => Paired prog src r x.1 x.2) ?_ ?_
  · exact ⟨⟨none, .nothing (by simp [commTraffic, Machine.recording, comm, Rank.init]), rfl⟩,
      [], by simp [commTraffic, Machine.recording, comm], rfl,
      by simp [commTraffic, Machine.recording, entries]⟩
  · rintro ⟨c, t⟩ a ⟨d, t'⟩ _ inv taken
    obtain ⟨moved, record⟩ := Machine.recording_step.mp taken
    simp only at moved record
    subst record
    obtain ⟨m, announcing, shape⟩ := inv.shape
    obtain ⟨before, sent, whole, pushed⟩ := inv.taken
    simp only at announcing shape sent whole pushed
    rcases Sys.step_cases moved with
      ⟨i, flag, u, out, rfl, move, rfl⟩ | ⟨i, source, u, stream, rfl, receive, rfl⟩
    · -- a rank moves: what it sends is added to the stream
      have listener : (Function.update c.rank i u r).listener = (c.rank r).listener := by
        by_cases hr : r = i
        · subst hr
          simpa using move.listener
        · simp [hr]
      refine ⟨?_, before, ?_, by simpa only [listener] using whole, pushed⟩
      · simp only [listener]
        by_cases hi : i = src
        · subst hi
          obtain ⟨m', announcing', announced⟩ := move.announcing announcing
          refine ⟨m', by simpa using announcing',
            pairing_send announced (fun dest size eq => ?_) c.net shape⟩
          subst eq
          exact move.announces announcing'
        · exact ⟨m, by simpa [Ne.symm hi] using announcing,
            by simpa only [Sys.send_of_ne _ _ (Ne.symm hi)] using shape⟩
      · obtain ⟨new, added⟩ := @Traffic.record_sent _ _ i c.net out src r
        simp only [Traffic.record, added, List.drop_left, sent, List.append_assoc]
    · have stack : (Function.update c.rank i u src).stack = (c.rank src).stack := by
        obtain ⟨listener, queue, eq⟩ := receive.frame src
        simp [eq]
      by_cases hi : i = r
      · subst hi
        by_cases hs : source = src
        · -- the listener takes the next message of the stream
          subst hs
          have takes := receive.takes apart shape
          obtain ⟨packet, head, queue, next, rest⟩ := takes.pairs shape
          refine ⟨⟨m, by simpa only [stack] using announcing, by simpa using rest⟩,
            before ++ [packet], ?_, ?_, ?_⟩
          · simp [Traffic.record, sent, head]
          · simpa [pairing_append, whole] using next
          · have own : (entries source [packet]).filter (fun entry => entry.2 = source)
                = entries source [packet] := by
              refine List.filter_eq_self.mpr fun entry hentry => ?_
              obtain ⟨msgs, -, rfl⟩ := List.mem_map.mp hentry
              simp
            simp [Traffic.record, queue, pushed, own]
        · obtain ⟨awaits, new, queue, labels⟩ := receive.awaits_of_ne hs
          have others : new.filter (fun entry => entry.2 = src) = [] := by
            refine List.filter_eq_nil_iff.mpr fun entry hentry => ?_
            simpa [labels entry hentry] using hs
          refine ⟨⟨m, by simpa only [stack] using announcing, ?_⟩, before, ?_, ?_, ?_⟩
          · simpa [awaits, Function.update_of_ne (Ne.symm hs)] using shape
          · simpa [Traffic.record, Function.update_of_ne (Ne.symm hs)] using sent
          · simpa [awaits] using whole
          · simp [Traffic.record, queue, pushed, others]
      · have net : Function.update c.net source (Function.update (c.net source) i stream) src r
            = c.net src r := by
          by_cases hs : src = source
          · subst hs
            simp [Ne.symm hi]
          · simp [hs]
        refine ⟨⟨m, by simpa only [stack] using announcing, ?_⟩, before, ?_, ?_, ?_⟩
        · simpa [net, Function.update_of_ne (Ne.symm hi)] using shape
        · simpa [Traffic.record, net] using sent
        · simpa [Function.update_of_ne (Ne.symm hi)] using whole
        · simpa [Traffic.record, Function.update_of_ne (Ne.symm hi)] using pushed

/-- Every entry pushed onto a receive queue is labelled with the rank that issued its calls, and
all of them are addressed to the rank of the queue. -/
theorem pushed_of_reachable {c : Sys n P σ V C} {t : Traffic n P}
    (h : (commTraffic cfg prog mem main).Reachable (c, t)) (r : Fin n) :
    ∀ entry ∈ t.pushed r, entry.2 ≠ r ∧ Between entry.2 r entry.1 := by
  refine h.invariant (I := fun x => ∀ r, ∀ entry ∈ x.2.pushed r,
    entry.2 ≠ r ∧ Between entry.2 r entry.1) (by simp [commTraffic, Machine.recording]) ?_ r
  rintro ⟨c, t⟩ a ⟨d, t'⟩ before inv taken i
  obtain ⟨moved, record⟩ := Machine.recording_step.mp taken
  simp only at moved record
  subst record
  have reached : (comm cfg prog mem main).Reachable d :=
    (Machine.Reachable.of_recording before).step moved
  cases a with
  | main r flag => exact inv i
  | listen r src =>
      by_cases hi : i = r
      · subst hi
        intro entry hentry
        simp only [Traffic.record, Function.update_self, List.mem_append] at hentry
        rcases hentry with old | new
        · exact inv i entry old
        · exact ((Sys.routed_of_reachable reached).rank i).queue entry (List.mem_of_mem_drop new)
      · simpa [Traffic.record, hi] using inv i

end Runs

/-- **The messages from `src` and the listener of `r`**: which packets its two receives meet,
and which entries they have made. -/
structure Exchange (cfg : Config) (prog : Program n P σ V C) (src r : Fin n)
    (c : Sys n P σ V C) (t : Traffic n P) : Prop where
  /-- The any-source receive of the listener never finds a large message before it. -/
  any : (c.rank r).listener = .any → ∀ m stream, c.net src r ≠ .large m :: stream
  /-- The second receive comes right after the announcement, and the message after that. -/
  second : ∀ size, (c.rank r).listener = .large src size →
    (∃ before, t.sent src r = before ++ .announce size :: c.net src r) ∧
      ∀ packet stream, c.net src r = packet :: stream →
        ∃ m, packet = .large m ∧ prog.packedSize m.payload = size
  receives : ∀ d, Sys.step cfg prog c (.listen r src) = some d →
    Takes prog src (c.rank r) (d.rank r) (c.net src r) (d.net src r)
  /-- The messages received have made one entry each, in the order they were sent in. -/
  pushed : ∃ received, t.sent src r = received ++ c.net src r ∧
    (t.pushed r).filter (fun entry => entry.2 = src) = entries src received
  /-- Every entry of the receive queue comes from a message of another rank, under the label of
  this rank. -/
  labels : ∀ entry ∈ t.pushed r, entry.2 ≠ r ∧ Between entry.2 r entry.1

/-- **Large messages are paired with their announcements**, whatever else is sent and in
whatever order the listener takes the messages of its sources: between any two ranks, the
message that the listener awaits is the one that was announced, and the receive queue gets all
messages in the order in which they were sent. -/
theorem large_messages_pair {src r : Fin n} (apart : src ≠ r) {x : Sys n P σ V C × Traffic n P}
    (h : (commTraffic cfg prog mem main).Reachable x) : Exchange cfg prog src r x.1 x.2 := by
  obtain ⟨c, t⟩ := x
  change Exchange cfg prog src r c t
  have paired := paired_of_reachable apart h
  obtain ⟨m, -, shape⟩ := paired.shape
  obtain ⟨before, sent, whole, pushed⟩ := paired.taken
  refine ⟨fun any m' stream head => ?_, fun size awaited => ⟨?_, fun packet stream head => ?_⟩,
    fun d taken => ?_, ⟨before, sent, pushed⟩, pushed_of_reachable h r⟩
  · simp [any, Listener.awaits, head, pairing] at shape
  · have awaits : (c.rank r).listener.awaits src = some size := by simp [awaited, Listener.awaits]
    rw [awaits] at whole
    rcases announced_of_pairing whole with ⟨-, none⟩ | ⟨before', rfl⟩
    · cases none
    · exact ⟨before', by simpa using sent⟩
  · simp only [awaited, Listener.awaits, if_true, head] at shape
    obtain ⟨m', large, size_eq, -⟩ := pairing_some shape
    exact ⟨m', large, size_eq⟩
  · rcases Sys.step_cases taken with ⟨_, _, _, _, eq, -⟩ | ⟨i, source, u, stream, eq, receive, rfl⟩
    · cases eq
    · cases eq
      simpa using receive.takes apart shape

/-- A state of a run of `mixedMain`, with its messages, in which the listener of rank 1 has
taken the large message. -/
def mixedTraffic : Sys 2 (ℕ × List (Act 2)) Unit Unit (List (Act 2)) × Traffic 2 (ℕ × List (Act 2)) :=
  (commTraffic ⟨16, false⟩ (script 2) (fun _ => ()) mixedMain).drive (fun _ _ => True)
    (commTraffic ⟨16, false⟩ (script 2) (fun _ => ()) mixedMain).init
    (mains 0 22 ++ List.replicate 3 (.listen 1 0))

/-- In `mixedTraffic` the buffer has made one entry, and the announcement and its message
together have made another. -/
theorem large_messages_pair_mixed :
    (mixedTraffic.2.pushed 1).map (fun entry => (entry.1.map fun m => m.payload.1, entry.2))
        = [([0], 0), ([8], 0)] ∧
      Exchange ⟨16, false⟩ (script 2) 0 1 mixedTraffic.1 mixedTraffic.2 :=
  ⟨by decide +kernel, large_messages_pair (by decide) (Machine.ReachableBy.init.drive _)⟩

end YGM
