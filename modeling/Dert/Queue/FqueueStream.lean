import Dert.Library.Refinement
import Dert.Queue.Fqueue

universe u

namespace Dert.Fqueue

open Library Library.Cyclic

@[ext] structure Stream where
  consumed : List UInt8
  pending : List UInt8

inductive Call
  | enqueue (data : List UInt8)
  | dequeue (size : Nat)
  | foldDown
  | rewindReadCursor (back : Nat)
  | rewindWriteCursor (back : Nat)

inductive Op (ι : Type u)
  | on (queue : ι) (call : Call)
  | exchange (readQueue writeQueue : ι) (distinct : readQueue ≠ writeQueue) (size : Nat)

structure Reply where
  ret : FqueueRet
  data : List UInt8
  deriving DecidableEq

namespace Stream

variable (s : Stream)

def empty : Stream := ⟨[], []⟩

def whole : List UInt8 := s.consumed ++ s.pending

def append (data : List UInt8) : Stream := { s with pending := s.pending ++ data }

def advance (n : Nat) : Stream := ⟨s.consumed ++ s.pending.take n, s.pending.drop n⟩

def rewind (k : Nat) : Stream :=
  let kept := s.consumed.length - k
  ⟨s.consumed.take kept, s.consumed.drop kept ++ s.pending⟩

def truncate (k : Nat) : Stream :=
  let kept := s.whole.take (s.whole.length - k)
  ⟨kept.take s.consumed.length, kept.drop s.consumed.length⟩

def fold : Stream := ⟨[], s.pending⟩

def call (cap : Nat) : Call → Stream × Reply
  | .enqueue data =>
    if data.length = 0 then (s, ⟨.ERR_QUEUE_INVALID_SIZE, []⟩)
    else if data.length > cap - s.whole.length then (s, ⟨.ERR_QUEUE_CANNOT_READ_QUANTITY, []⟩)
    else (s.append data, ⟨.ok, []⟩)
  | .dequeue size =>
    if size = 0 then (s, ⟨.ERR_QUEUE_INVALID_SIZE, []⟩)
    else if size > s.pending.length then (s, ⟨.ERR_QUEUE_CANNOT_WRITE_QUANTITY, []⟩)
    else (s.advance size, ⟨.ok, s.pending.take size⟩)
  | .foldDown =>
    if s.pending.length > 1 + cap / 2 then (s, ⟨.ERR_QUEUE_CANNOT_WRITE_QUANTITY, []⟩)
    else (s.fold, ⟨.ok, []⟩)
  | .rewindReadCursor back =>
    if back = 0 then (s, ⟨.ERR_QUEUE_INVALID_SIZE, []⟩)
    else if s.consumed.length < back then (s, ⟨.ERR_QUEUE_CANNOT_WRITE_QUANTITY, []⟩)
    else (s.rewind back, ⟨.ok, []⟩)
  | .rewindWriteCursor back =>
    if back = 0 then (s, ⟨.ERR_QUEUE_INVALID_SIZE, []⟩)
    else if s.whole.length < back then (s, ⟨.ERR_QUEUE_CANNOT_WRITE_QUANTITY, []⟩)
    else (s.truncate back, ⟨.ok, []⟩)

variable {ι : Type u} [DecidableEq ι]

def exchange (cap : ι → Nat) (streams : ι → Stream) (readQueue writeQueue : ι) (size : Nat) :
    (ι → Stream) × Reply :=
  if size = 0 then (streams, ⟨.ERR_QUEUE_INVALID_SIZE, []⟩)
  else if size > (streams readQueue).pending.length then
    (streams, ⟨.ERR_QUEUE_CANNOT_READ_QUANTITY, []⟩)
  else if size > cap writeQueue - (streams writeQueue).whole.length then
    (streams, ⟨.ERR_QUEUE_CANNOT_WRITE_QUANTITY, []⟩)
  else
    let moved := (streams readQueue).pending.take size
    (Function.update (Function.update streams readQueue ((streams readQueue).advance size))
      writeQueue ((streams writeQueue).append moved), ⟨.ok, []⟩)

def callOn (cap : ι → Nat) (streams : ι → Stream) : Op ι → (ι → Stream) × Option Reply
  | .on i call =>
    (Function.update streams i ((streams i).call (cap i) call).1, some ((streams i).call (cap i) call).2)
  | .exchange readQueue writeQueue _ size =>
    ((exchange cap streams readQueue writeQueue size).1,
      some (exchange cap streams readQueue writeQueue size).2)

end Stream

def call (queue : Fqueue) : Call → Option (Fqueue × Reply)
  | .enqueue data => (fqueueEnqueue queue data).map fun (queue, ret) => (queue, ⟨ret, []⟩)
  | .dequeue size => (fqueueDequeue queue size).map fun (queue, ret, data) => (queue, ⟨ret, data⟩)
  | .foldDown => (fqueueFoldDown queue).map fun (queue, ret) => (queue, ⟨ret, []⟩)
  | .rewindReadCursor back =>
    let (queue, ret) := fqueueRewindReadCursor queue back
    some (queue, ⟨ret, []⟩)
  | .rewindWriteCursor back =>
    let (queue, ret) := fqueueRewindWriteCursor queue back
    some (queue, ⟨ret, []⟩)

/-- A call on one of several queues, or on two; there is no reply where it leaves their bytes. -/
def callOn {ι : Type u} [DecidableEq ι] (queues : ι → Fqueue) :
    Op ι → (ι → Fqueue) × Option Reply
  | .on i op =>
    match (queues i).call op with
    | none => (queues, none)
    | some (queue, reply) => (Function.update queues i queue, some reply)
  | .exchange readQueue writeQueue _ size =>
    match fqueueExchange (queues readQueue) (queues writeQueue) size with
    | none => (queues, none)
    | some (read, write, ret) =>
      (Function.update (Function.update queues readQueue read) writeQueue write, some ⟨ret, []⟩)

/-- The queue holds the stream, what has been read below its read cursor and what is to be
read between its cursors. -/
structure Refines (cap : Nat) (queue : Fqueue) (s : Stream) : Prop where
  cap_eq : queue.cap = cap
  cap_lt : cap < sizeMax
  read_le : queue.readCursor ≤ queue.writeCursor
  write_le : queue.writeCursor ≤ queue.cap
  consumed : s.consumed = copyOut queue.bytes 0 queue.readCursor
  pending : s.pending = copyOut queue.bytes queue.readCursor (queue.writeCursor - queue.readCursor)

def Follows (cap : Nat) (queue : Fqueue) (s : Stream) (c : Call) : Prop :=
  ∃ queue', queue.call c = some (queue', (s.call cap c).2) ∧
    Refines cap queue' (s.call cap c).1 ∧ ((s.call cap c).2.ret ≠ .ok → queue' = queue)

namespace Refines

variable {cap : Nat} {queue : Fqueue} {s : Stream}

theorem init (hcap : cap < sizeMax) (h : fqueueInit true cap = some queue) :
    Refines cap queue .empty := by
  rw [fqueueInit] at h
  split_ifs at h
  obtain rfl := Option.some.inj h
  exact ⟨rfl, hcap, Nat.le_refl _, Nat.zero_le _, rfl, rfl⟩

variable (h : Refines cap queue s)
include h

theorem length_consumed : s.consumed.length = queue.readCursor := by
  rw [h.consumed, length_copyOut]

theorem length_pending : s.pending.length = queue.writeCursor - queue.readCursor := by
  rw [h.pending, length_copyOut]

theorem whole : s.whole = copyOut queue.bytes 0 queue.writeCursor := by
  have hsplit : copyOut queue.bytes 0 _ = _ := copyOut_add 0 queue.readCursor
    (queue.writeCursor - queue.readCursor)
  rw [Nat.add_sub_cancel' h.read_le, Nat.zero_add] at hsplit
  rw [Stream.whole, h.consumed, h.pending, hsplit]

theorem length_whole : s.whole.length = queue.writeCursor := by
  rw [h.whole, length_copyOut]

theorem used_eq : fqueueUsed queue = s.pending.length := by
  have hlt := h.cap_eq ▸ h.cap_lt
  have hwrite := h.write_le
  rw [fqueueUsed, sizeT_sub h.read_le (by omega), h.length_pending]

theorem unused_eq : fqueueUnused queue = cap - s.whole.length := by
  have hlt := h.cap_eq ▸ h.cap_lt
  rw [fqueueUnused, sizeT_sub h.write_le hlt, h.length_whole, h.cap_eq]

theorem load_pending {size : Nat} (hsize : size ≤ s.pending.length) :
    queue.load queue.readCursor size = some (s.pending.take size) := by
  have hread := h.read_le
  have hwrite := h.write_le
  have hlength := h.length_pending
  rw [Fqueue.load, if_pos (by omega), h.pending, take_copyOut (by omega)]

theorem advance {size : Nat} (hsize : size ≤ s.pending.length) :
    Refines cap { queue with readCursor := sizeT (queue.readCursor + size) } (s.advance size) := by
  have hread := h.read_le
  have hwrite := h.write_le
  have hlength := h.length_pending
  have hlt := h.cap_eq ▸ h.cap_lt
  have hcursor : sizeT (queue.readCursor + size) = queue.readCursor + size :=
    sizeT_of_lt (by omega)
  simp only [hcursor]
  refine ⟨h.cap_eq, h.cap_lt, ?_, hwrite, ?_, ?_⟩
  · change queue.readCursor + size ≤ queue.writeCursor
    omega
  · change s.consumed ++ s.pending.take size = copyOut queue.bytes 0 (queue.readCursor + size)
    rw [h.consumed, h.pending, take_copyOut (by omega), copyOut_add, Nat.zero_add]
  · change s.pending.drop size = copyOut queue.bytes (queue.readCursor + size) _
    rw [h.pending, drop_copyOut (by omega)]
    congr 1
    change _ = queue.writeCursor - (queue.readCursor + size)
    omega

theorem append {data : List UInt8} (hdata : data.length ≤ cap - s.whole.length) :
    ∃ queue', queue.store queue.writeCursor data = some queue' ∧
      Refines cap { queue' with writeCursor := sizeT (queue'.writeCursor + data.length) }
        (s.append data) := by
  have hread := h.read_le
  have hwrite := h.write_le
  have hcap := h.cap_eq
  have hlt := h.cap_eq ▸ h.cap_lt
  rw [h.length_whole] at hdata
  have hcursor : sizeT (queue.writeCursor + data.length) = queue.writeCursor + data.length :=
    sizeT_of_lt (by omega)
  refine ⟨_, if_pos (by omega), ?_⟩
  simp only [hcursor]
  refine ⟨hcap, h.cap_lt, ?_, ?_, ?_, ?_⟩
  · change queue.readCursor ≤ queue.writeCursor + data.length
    omega
  · change queue.writeCursor + data.length ≤ queue.cap
    omega
  · change s.consumed = copyOut (copyIn queue.bytes queue.writeCursor data) 0 queue.readCursor
    rw [copyOut_before queue.bytes data (by omega), ← h.consumed]
  · change s.pending ++ data = copyOut (copyIn queue.bytes queue.writeCursor data) queue.readCursor
      (queue.writeCursor + data.length - queue.readCursor)
    rw [Nat.sub_add_comm hread, copyOut_add, copyOut_before queue.bytes data (by omega),
      Nat.add_sub_cancel' hread, copyOut_copyIn, ← h.pending]

theorem enqueue (data : List UInt8) : Follows cap queue s (.enqueue data) := by
  simp only [Follows, Fqueue.call, Stream.call, fqueueEnqueue, h.unused_eq]
  split_ifs with hzero hfull
  · exact ⟨queue, rfl, h, fun _ => rfl⟩
  · exact ⟨queue, rfl, h, fun _ => rfl⟩
  · obtain ⟨queue', hstore, hnext⟩ := h.append (Nat.le_of_not_lt hfull)
    exact ⟨_, by rw [hstore]; rfl, hnext, fun hret => absurd rfl hret⟩

theorem dequeue (size : Nat) : Follows cap queue s (.dequeue size) := by
  simp only [Follows, Fqueue.call, Stream.call, fqueueDequeue, h.used_eq]
  split_ifs with hzero hfew
  · exact ⟨queue, rfl, h, fun _ => rfl⟩
  · exact ⟨queue, rfl, h, fun _ => rfl⟩
  · have hsize := Nat.le_of_not_lt hfew
    exact ⟨_, by rw [h.load_pending hsize]; rfl, h.advance hsize, fun hret => absurd rfl hret⟩

theorem foldDown : Follows cap queue s .foldDown := by
  have hread := h.read_le
  have hwrite := h.write_le
  have hlt := h.cap_eq ▸ h.cap_lt
  have hdiff : sizeT (queue.writeCursor + (sizeMax - queue.readCursor)) = s.pending.length :=
    h.used_eq
  have hhalf : sizeT (1 + queue.cap / 2) = 1 + cap / 2 := by
    rw [h.cap_eq]
    have hsize : 2 < sizeMax := by decide
    have hcap := h.cap_lt
    exact sizeT_of_lt (by omega)
  simp only [Follows, Fqueue.call, Stream.call, fqueueFoldDown, hdiff, hhalf]
  split_ifs with hmuch
  · exact ⟨queue, rfl, h, fun _ => rfl⟩
  · have hload := h.load_pending (Nat.le_refl _)
    rw [List.take_length] at hload
    have hlength := h.length_pending
    have hstore : queue.store 0 s.pending =
        some { queue with bytes := copyIn queue.bytes 0 s.pending } := if_pos (by omega)
    refine ⟨_, by rw [hload, Option.bind_eq_bind, Option.bind_some, hstore]; rfl, ?_,
      fun hret => absurd rfl hret⟩
    refine ⟨h.cap_eq, h.cap_lt, Nat.zero_le _, ?_, rfl, ?_⟩
    · change s.pending.length ≤ queue.cap
      omega
    · change s.pending = copyOut (copyIn queue.bytes 0 s.pending) 0 s.pending.length
      exact (copyOut_copyIn queue.bytes 0 s.pending).symm

theorem rewindReadCursor (back : Nat) : Follows cap queue s (.rewindReadCursor back) := by
  have hread := h.read_le
  simp only [Follows, Fqueue.call, Stream.call, fqueueRewindReadCursor, h.length_consumed]
  split_ifs with hzero hfew
  · exact ⟨queue, rfl, h, fun _ => rfl⟩
  · exact ⟨queue, rfl, h, fun _ => rfl⟩
  · refine ⟨_, rfl, ⟨h.cap_eq, h.cap_lt, ?_, h.write_le, ?_, ?_⟩, fun hret => absurd rfl hret⟩
    · exact Nat.le_trans (Nat.sub_le _ _) hread
    · simp only [Stream.rewind, h.length_consumed]
      rw [h.consumed, take_copyOut (Nat.sub_le _ _)]
    · simp only [Stream.rewind, h.length_consumed]
      rw [h.consumed, h.pending, drop_copyOut (Nat.sub_le _ _), Nat.zero_add]
      have hsplit : queue.writeCursor - (queue.readCursor - back) =
          queue.readCursor - (queue.readCursor - back) + (queue.writeCursor - queue.readCursor) := by
        omega
      rw [hsplit, copyOut_add, Nat.add_sub_cancel' (Nat.sub_le _ _)]

theorem rewindWriteCursor (back : Nat) : Follows cap queue s (.rewindWriteCursor back) := by
  have hread := h.read_le
  have hwrite := h.write_le
  simp only [Follows, Fqueue.call, Stream.call, fqueueRewindWriteCursor, h.length_whole]
  split_ifs with hzero hfew hpast
  · exact ⟨queue, rfl, h, fun _ => rfl⟩
  · exact ⟨queue, rfl, h, fun _ => rfl⟩
  -- the read cursor comes down with the write cursor
  · refine ⟨_, rfl, ⟨h.cap_eq, h.cap_lt, Nat.le_refl _, ?_, ?_, ?_⟩, fun hret => absurd rfl hret⟩
    · exact Nat.le_trans (Nat.sub_le _ _) hwrite
    · simp only [Stream.truncate, h.length_whole, h.length_consumed]
      rw [h.whole, take_copyOut (Nat.sub_le _ _), List.take_of_length_le]
      rw [length_copyOut]
      exact Nat.le_of_lt hpast
    · simp only [Stream.truncate, h.length_whole, h.length_consumed, Nat.sub_self]
      rw [h.whole, take_copyOut (Nat.sub_le _ _), List.drop_eq_nil_of_le, copyOut_zero]
      rw [length_copyOut]
      exact Nat.le_of_lt hpast
  · have hkeep := Nat.le_of_not_lt hpast
    refine ⟨_, rfl, ⟨h.cap_eq, h.cap_lt, hkeep, ?_, ?_, ?_⟩, fun hret => absurd rfl hret⟩
    · exact Nat.le_trans (Nat.sub_le _ _) hwrite
    · simp only [Stream.truncate, h.length_whole, h.length_consumed]
      rw [h.whole, take_copyOut (Nat.sub_le _ _), take_copyOut hkeep]
    · simp only [Stream.truncate, h.length_whole, h.length_consumed]
      rw [h.whole, take_copyOut (Nat.sub_le _ _), drop_copyOut hkeep, Nat.zero_add]

theorem call (c : Call) : Follows cap queue s c := by
  cases c with
  | enqueue data => exact h.enqueue data
  | dequeue size => exact h.dequeue size
  | foldDown => exact h.foldDown
  | rewindReadCursor back => exact h.rewindReadCursor back
  | rewindWriteCursor back => exact h.rewindWriteCursor back

end Refines

variable {ι : Type u} [DecidableEq ι] {cap : ι → Nat} {queues : ι → Fqueue} {streams : ι → Stream}

theorem Refines.exchange {readQueue writeQueue : ι} (hne : readQueue ≠ writeQueue)
    (h : ∀ i, Refines (cap i) (queues i) (streams i)) (size : Nat) :
    ∃ read write, fqueueExchange (queues readQueue) (queues writeQueue) size =
        some (read, write, (Stream.exchange cap streams readQueue writeQueue size).2.ret) ∧
      (Stream.exchange cap streams readQueue writeQueue size).2.data = [] ∧
      (∀ i, Refines (cap i)
        (Function.update (Function.update queues readQueue read) writeQueue write i)
        ((Stream.exchange cap streams readQueue writeQueue size).1 i)) ∧
      ((Stream.exchange cap streams readQueue writeQueue size).2.ret ≠ .ok →
        Function.update (Function.update queues readQueue read) writeQueue write = queues) := by
  have hsame : Function.update (Function.update queues readQueue (queues readQueue)) writeQueue
      (queues writeQueue) = queues := by
    rw [Function.update_eq_self, Function.update_eq_self]
  simp only [fqueueExchange, Stream.exchange, (h readQueue).used_eq, (h writeQueue).unused_eq]
  split_ifs with hzero hfew hfull
  · exact ⟨_, _, rfl, rfl, hsame.symm ▸ h, fun _ => hsame⟩
  · exact ⟨_, _, rfl, rfl, hsame.symm ▸ h, fun _ => hsame⟩
  · exact ⟨_, _, rfl, rfl, hsame.symm ▸ h, fun _ => hsame⟩
  · have hsize := Nat.le_of_not_lt hfew
    have hmoved : ((streams readQueue).pending.take size).length = size :=
      List.length_take_of_le hsize
    have hroom : ((streams readQueue).pending.take size).length ≤
        cap writeQueue - (streams writeQueue).whole.length :=
      hmoved.symm ▸ Nat.le_of_not_lt hfull
    obtain ⟨write, hstore, hwrite⟩ := (h writeQueue).append hroom
    rw [hmoved] at hwrite
    have hread := (h readQueue).advance hsize
    simp only [(h readQueue).load_pending hsize, hstore, Option.bind_eq_bind, Option.bind_some]
    refine ⟨_, _, rfl, trivial, fun i => ?_, fun hret => absurd rfl hret⟩
    by_cases hi : i = writeQueue
    · subst hi
      rw [Function.update_self, Function.update_self]
      exact hwrite
    · rw [Function.update_of_ne hi, Function.update_of_ne hi]
      by_cases hi' : i = readQueue
      · subst hi'
        rw [Function.update_self, Function.update_self]
        exact hread
      · rw [Function.update_of_ne hi', Function.update_of_ne hi']
        exact h i

def FailsUnchanged (queues : ι → Fqueue) : Prop :=
  ∀ op reply, (callOn queues op).2 = some reply → reply.ret ≠ .ok → (callOn queues op).1 = queues

/-- A call on the queues replies as that on their streams does, and changes nothing when it
fails. -/
theorem Refines.callOn (h : ∀ i, Refines (cap i) (queues i) (streams i)) (op : Op ι) :
    (callOn queues op).2 = (Stream.callOn cap streams op).2 ∧
      (∀ i, Refines (cap i) ((callOn queues op).1 i) ((Stream.callOn cap streams op).1 i)) ∧
      ∀ reply, (callOn queues op).2 = some reply → reply.ret ≠ .ok →
        (callOn queues op).1 = queues := by
  cases op with
  | on i c =>
    obtain ⟨queue', hcall, hnext, hfailed⟩ := (h i).call c
    simp only [Fqueue.callOn, Stream.callOn, hcall]
    refine ⟨trivial, fun j => ?_, fun reply hreply hret => ?_⟩
    · by_cases hj : j = i
      · subst hj
        rw [Function.update_self, Function.update_self]
        exact hnext
      · rw [Function.update_of_ne hj, Function.update_of_ne hj]
        exact h j
    · obtain rfl := Option.some.inj hreply
      rw [hfailed hret, Function.update_eq_self]
  | exchange readQueue writeQueue hne size =>
    obtain ⟨read, write, hexchange, hdata, hnext, hfailed⟩ := Refines.exchange hne h size
    simp only [Fqueue.callOn, Stream.callOn, hexchange, ← hdata]
    refine ⟨trivial, hnext, fun reply hreply hret => hfailed ?_⟩
    obtain rfl := Option.some.inj hreply
    exact hret

/-- Whatever calls are made on whatever queues, they reply as on the streams, and never leave
the bytes of a queue; the queues then hold the streams, and a call that fails changes nothing. -/
theorem stream_calls (hcap : ∀ i, cap i < sizeMax)
    (hinit : ∀ i, fqueueInit true (cap i) = some (queues i)) (ops : List (Op ι)) :
    replies callOn queues ops = replies (Stream.callOn cap) (fun _ => .empty) ops ∧
      (∀ i, Refines (cap i) (final callOn queues ops i)
        (final (Stream.callOn cap) (fun _ => .empty) ops i)) ∧
      FailsUnchanged (final callOn queues ops) := by
  have hstart : ∀ i, Refines (cap i) (queues i) .empty := fun i => .init (hcap i) (hinit i)
  have hstep : ∀ queues streams (op : Op ι), (∀ i, Refines (cap i) (queues i) (streams i)) → True → True →
      (callOn queues op).2 = (Stream.callOn cap streams op).2 ∧
        ∀ i, Refines (cap i) ((callOn queues op).1 i) ((Stream.callOn cap streams op).1 i) :=
    fun queues streams op h _ _ => ⟨(Refines.callOn h op).1, (Refines.callOn h op).2.1⟩
  obtain ⟨hreplies, hfinal⟩ := simulation hstep hstart
    (along_of_forall (fun _ _ => trivial) queues ops) (along_of_forall (fun _ _ => trivial) _ ops)
  exact ⟨hreplies, hfinal, fun op => (Refines.callOn hfinal op).2.2⟩

theorem stream_calls_two :
    (∀ i, fqueueInit true 4 = some ((fun _ : Bool => ⟨fun _ => 0, 0, 0, 4⟩) i)) ∧
      let queues : Bool → Fqueue := fun _ => ⟨fun _ => 0, 0, 0, 4⟩
      let ops : List (Op Bool) :=
        [.on false (.enqueue [1, 2, 3]), .on false (.dequeue 1), .exchange false true (by decide) 2,
          .on false (.rewindReadCursor 2), .on false (.rewindWriteCursor 2), .on true .foldDown]
      replies callOn queues ops = replies (Stream.callOn fun _ => 4) (fun _ => .empty) ops ∧
        (∀ i, Refines 4 (final callOn queues ops i)
          (final (Stream.callOn fun _ => 4) (fun _ => .empty) ops i)) ∧
        FailsUnchanged (final callOn queues ops) :=
  ⟨fun _ => rfl, stream_calls (fun _ => by decide) (fun _ => rfl) _⟩

end Dert.Fqueue
