import Dert.Library.Machine
import Dert.Queue.FqueueStream

namespace Dert.Fqueue

open Library Library.Cyclic

def queued (queue : Fqueue) : List UInt8 := copyOut queue.bytes queue.readCursor (fqueueUsed queue)

section Drain

variable {cap size : Nat} {queue : Fqueue} {s : Stream} {file : File} {sizes : List Nat}

def drain (queue : Fqueue) (file : File) : List Nat → Option (Fqueue × File)
  | [] => some (queue, file)
  | size :: sizes => do
    let (queue, file, ret) ← fqueueFdequeue queue file size size
    if ret = .ok then drain queue file sizes else none

/-- The call writes what `fqueue_dequeue` delivers, and leaves what that leaves. -/
def FdequeueLaw (queue : Fqueue) (file : File) (size : Nat) : Prop :=
  ∃ queue' file' store data, fqueueFdequeue queue file size size = some (queue', file', .ok) ∧
    fqueueDequeue queue size = some (store, .ok, data) ∧
    file'.passed = file.passed ++ data ∧ queued queue' = queued store

def DrainLaw (queue : Fqueue) (file : File) (sizes : List Nat) : Prop :=
  ∃ queue' file', drain queue file sizes = some (queue', file') ∧
    file'.passed = file.passed ++ (queued queue).take sizes.sum ∧
    queued queue' = (queued queue).drop sizes.sum

theorem Refines.queued_eq (h : Refines cap queue s) : queued queue = s.pending := by
  rw [queued, h.used_eq, h.length_pending, h.pending]

theorem Refines.dequeue_eq (h : Refines cap queue s) (hzero : size ≠ 0)
    (hsize : size ≤ s.pending.length) :
    ∃ store, fqueueDequeue queue size = some (store, .ok, s.pending.take size) ∧
      queued store = s.pending.drop size := by
  refine ⟨_, ?_, (h.advance hsize).queued_eq⟩
  rw [fqueueDequeue, if_neg hzero, h.used_eq, if_neg (Nat.not_lt.mpr hsize), h.load_pending hsize]
  rfl

theorem Refines.emptied (h : Refines cap queue s) :
    Refines cap { queue with writeCursor := queue.readCursor } ⟨s.consumed, []⟩ := by
  refine ⟨h.cap_eq, h.cap_lt, Nat.le_refl _, Nat.le_trans h.read_le h.write_le, h.consumed, ?_⟩
  change [] = copyOut queue.bytes queue.readCursor (queue.readCursor - queue.readCursor)
  rw [Nat.sub_self, copyOut_zero]

theorem Refines.fdequeue_eq (h : Refines cap queue s) (hfile : file.error = false)
    (hzero : size ≠ 0) (hsize : size ≤ s.pending.length) :
    fqueueFdequeue queue file size size = some ({ queue with writeCursor := queue.readCursor },
      fwrite file (copyOut queue.bytes 0 size) size, .ok) := by
  have hlength := h.length_pending
  have hread := h.read_le
  have hwrite := h.write_le
  have hlt := h.cap_eq ▸ h.cap_lt
  have hdifference : sizeT (queue.writeCursor + (sizeMax - queue.readCursor)) = s.pending.length :=
    h.used_eq
  have hload : queue.load 0 size = some (copyOut queue.bytes 0 size) := if_pos (by omega)
  have hback : sizeT (queue.writeCursor + (sizeMax - s.pending.length)) = queue.readCursor := by
    rw [sizeT_sub (by omega) (by omega)]
    omega
  have hfits : ¬ size > s.pending.length := Nat.not_lt.mpr hsize
  rw [fqueueFdequeue, if_neg hzero, h.used_eq, if_neg hfits, hfile, if_neg (by decide)]
  simp only [hdifference, if_neg hfits, hload, Option.bind_eq_bind, Option.bind_some, ne_eq,
    not_true_eq_false, if_false, hback]

theorem fwrite_passed (file : File) (slots : Nat → UInt8) (size : Nat) :
    (fwrite file (copyOut slots 0 size) size).passed = file.passed ++ copyOut slots 0 size := by
  rw [fwrite, List.take_of_length_le (Nat.le_of_eq (length_copyOut ..))]

theorem emptied_iff (file : File) {written : List UInt8} (hsize : size ≤ s.pending.length)
    (hwritten : written.length = size) :
    (file.passed ++ written = file.passed ++ s.pending.take size ∧ [] = s.pending.drop size) ↔
      size = s.pending.length ∧ written = s.pending := by
  rw [List.append_right_inj, eq_comm (a := ([] : List UInt8)), List.drop_eq_nil_iff]
  constructor
  · rintro ⟨hsame, hlong⟩
    exact ⟨Nat.le_antisymm hsize hlong, by rwa [List.take_of_length_le hlong] at hsame⟩
  · rintro ⟨rfl, rfl⟩
    exact ⟨(List.take_length ..).symm, Nat.le_refl _⟩

theorem fdequeueLaw_iff (h : Refines cap queue s) (hfile : file.error = false) (hzero : size ≠ 0)
    (hsize : size ≤ s.pending.length) :
    FdequeueLaw queue file size ↔
      size = s.pending.length ∧ copyOut queue.bytes 0 size = s.pending := by
  obtain ⟨store, hdequeue, hstore⟩ := h.dequeue_eq hzero hsize
  have hcall := h.fdequeue_eq hfile hzero hsize
  rw [← emptied_iff file hsize (length_copyOut ..)]
  constructor
  · rintro ⟨queue', file', store', data, hcall', hdequeue', hpassed, hqueued⟩
    obtain ⟨rfl, hr⟩ := Prod.mk.inj (Option.some.inj (hcall.symm.trans hcall'))
    obtain ⟨rfl, -⟩ := Prod.mk.inj hr
    obtain ⟨rfl, hr⟩ := Prod.mk.inj (Option.some.inj (hdequeue.symm.trans hdequeue'))
    obtain ⟨-, rfl⟩ := Prod.mk.inj hr
    rw [fwrite_passed] at hpassed
    rw [h.emptied.queued_eq, hstore] at hqueued
    exact ⟨hpassed, hqueued⟩
  · rintro ⟨hpassed, hqueued⟩
    refine ⟨_, _, store, _, hcall, hdequeue, by rw [fwrite_passed, hpassed], ?_⟩
    rw [h.emptied.queued_eq, hstore]
    exact hqueued

theorem drain_cons (h : Refines cap queue s) (hfile : file.error = false) (hzero : size ≠ 0)
    (hsize : size ≤ s.pending.length) (hpos : ∀ n ∈ sizes, n ≠ 0) :
    drain queue file (size :: sizes) = if sizes = [] then
      some ({ queue with writeCursor := queue.readCursor },
        fwrite file (copyOut queue.bytes 0 size) size) else none := by
  rw [drain, h.fdequeue_eq hfile hzero hsize]
  simp only [Option.bind_eq_bind, Option.bind_some, if_true]
  cases sizes with
  | nil => rfl
  | cons n sizes =>
    have hn : n ≠ 0 := hpos n (by simp)
    have hfew : n > fqueueUsed { queue with writeCursor := queue.readCursor } := by
      rw [h.emptied.used_eq]
      exact Nat.pos_of_ne_zero hn
    rw [drain, fqueueFdequeue, if_neg hn, if_pos hfew]
    rfl

theorem drainLaw_one (h : Refines cap queue s) (hfile : file.error = false) (hzero : size ≠ 0)
    (hsize : size ≤ s.pending.length) :
    DrainLaw queue file [size] ↔
      size = s.pending.length ∧ copyOut queue.bytes 0 size = s.pending := by
  rw [DrainLaw, h.queued_eq, drain_cons h hfile hzero hsize (by simp), if_pos rfl,
    List.sum_singleton, ← emptied_iff file hsize (length_copyOut ..)]
  constructor
  · rintro ⟨queue', file', hr, hpassed, hqueued⟩
    obtain ⟨rfl, rfl⟩ := Prod.mk.inj (Option.some.inj hr)
    rw [fwrite_passed] at hpassed
    rw [h.emptied.queued_eq] at hqueued
    exact ⟨hpassed, hqueued⟩
  · rintro ⟨hpassed, hqueued⟩
    exact ⟨_, _, rfl, by rw [fwrite_passed, hpassed], by rw [h.emptied.queued_eq]; exact hqueued⟩

theorem drainLaw_iff (h : Refines cap queue s) (hfile : file.error = false)
    (hpos : ∀ n ∈ sizes, n ≠ 0) (hsum : sizes.sum ≤ s.pending.length) :
    DrainLaw queue file sizes ↔ sizes = [] ∨ sizes = [s.pending.length] ∧
      copyOut queue.bytes 0 s.pending.length = s.pending := by
  cases sizes with
  | nil => exact iff_of_true ⟨queue, file, rfl, (List.append_nil _).symm, rfl⟩ (Or.inl rfl)
  | cons size sizes =>
    rw [List.forall_mem_cons] at hpos
    rw [List.sum_cons] at hsum
    by_cases hnil : sizes = []
    · subst hnil
      rw [drainLaw_one h hfile hpos.1 hsum]
      constructor
      · rintro ⟨rfl, hsame⟩
        exact Or.inr ⟨rfl, hsame⟩
      · rintro (heq | ⟨heq, hsame⟩)
        · cases heq
        · obtain rfl := (List.cons.inj heq).1
          exact ⟨rfl, hsame⟩
    · rw [DrainLaw, drain_cons h hfile hpos.1 (by omega) hpos.2, if_neg hnil]
      refine iff_of_false ?_ ?_
      · rintro ⟨queue', file', hr, -⟩
        cases hr
      · rintro (heq | ⟨heq, -⟩)
        · cases heq
        · exact hnil (List.cons.inj heq).2

theorem Refines.fdequeue_error (h : Refines cap queue s) (hfile : file.error = true)
    (hzero : size ≠ 0) (hsize : size ≤ s.pending.length) :
    fqueueFdequeue queue file size size = some (queue, file, FqueueRet.ERR_QUEUE_FILE_IO) := by
  rw [fqueueFdequeue, if_neg hzero, h.used_eq, if_neg (Nat.not_lt.mpr hsize), if_pos hfile]

/-- A call writes what it is to write just where it is told to write all that there is, and
the first bytes of the block are these, as they are where nothing has been read since the last
fold; then no drain is made in pieces. -/
theorem fdequeue_iff (h : Refines cap queue s) (file : File) :
    (∀ size, size ≠ 0 → size ≤ fqueueUsed queue →
      (FdequeueLaw queue file size ↔ file.error = false ∧ size = fqueueUsed queue ∧
        copyOut queue.bytes 0 (fqueueUsed queue) = queued queue)) ∧
    ∀ sizes : List Nat, (∀ n ∈ sizes, n ≠ 0) → sizes.sum ≤ fqueueUsed queue →
      (DrainLaw queue file sizes ↔ sizes = [] ∨ file.error = false ∧ sizes = [fqueueUsed queue] ∧
        copyOut queue.bytes 0 (fqueueUsed queue) = queued queue) := by
  rw [h.used_eq, h.queued_eq]
  cases hfile : file.error with
  | false =>
    simp only [true_and]
    refine ⟨fun size hzero hsize => ?_, fun sizes hpos hsum => drainLaw_iff h hfile hpos hsum⟩
    rw [fdequeueLaw_iff h hfile hzero hsize]
    exact and_congr_right fun heq => by rw [heq]
  | true =>
    simp only [Bool.true_eq_false, false_and, or_false]
    refine ⟨fun size hzero hsize => ?_, fun sizes hpos hsum => ?_⟩
    · rw [iff_false]
      rintro ⟨queue', file', store, data, hcall, -⟩
      cases (h.fdequeue_error hfile hzero hsize).symm.trans hcall
    · cases sizes with
      | nil => exact iff_of_true ⟨queue, file, rfl, (List.append_nil _).symm, rfl⟩ rfl
      | cons size sizes =>
        rw [List.forall_mem_cons] at hpos
        rw [List.sum_cons] at hsum
        refine iff_of_false ?_ (List.cons_ne_nil size sizes)
        rintro ⟨queue', file', hr, -⟩
        rw [drain, h.fdequeue_error hfile hpos.1 (by omega)] at hr
        cases hr

def readOne : Fqueue := ⟨copyIn (fun _ => 0) 0 [1, 2, 3], 3, 1, 4⟩

def emptyFile : File := ⟨[], [], false⟩

theorem readOne_refines : Refines 4 readOne ⟨[1], [2, 3]⟩ :=
  ⟨rfl, by decide, by decide, by decide, rfl, rfl⟩

theorem fdequeue_readOne :
    (∀ size, size ≠ 0 → size ≤ fqueueUsed readOne →
      (FdequeueLaw readOne emptyFile size ↔ false = false ∧ size = fqueueUsed readOne ∧
        copyOut readOne.bytes 0 (fqueueUsed readOne) = queued readOne)) ∧
    ∀ sizes : List Nat, (∀ n ∈ sizes, n ≠ 0) → sizes.sum ≤ fqueueUsed readOne →
      (DrainLaw readOne emptyFile sizes ↔ sizes = [] ∨ false = false ∧
        sizes = [fqueueUsed readOne] ∧
        copyOut readOne.bytes 0 (fqueueUsed readOne) = queued readOne) :=
  fdequeue_iff readOne_refines emptyFile

/-- Of the bytes 2 and 3 that are queued, the call writes 1 instead of 2, and keeps none. -/
theorem fdequeue_writes_read :
    Refines 4 readOne ⟨[1], [2, 3]⟩ ∧
      (fqueueFdequeue readOne emptyFile 1 1).map (fun r => (r.2.1.passed, queued r.1, r.2.2)) =
        some ([1], [], .ok) ∧
      ¬ FdequeueLaw readOne emptyFile 1 := by
  refine ⟨readOne_refines, by decide, ?_⟩
  rintro ⟨queue', file', store, data, hcall, hdequeue, hpassed, -⟩
  cases hcall
  cases hdequeue
  exact absurd hpassed (by decide)

end Drain

section Fill

inductive FileCall
  | fenqueue (size : Nat)
  | dequeue (size : Nat)
  | foldDown

structure FileState where
  queue : Fqueue
  file : File
  dequeued : List UInt8

def FileState.call (s : FileState) : FileCall → Option (FileState × FqueueRet)
  | .fenqueue size => (fqueueFenqueue s.queue s.file size).map fun (queue, file, ret) =>
    ({ s with queue, file }, ret)
  | .dequeue size => (fqueueDequeue s.queue size).map fun (queue, ret, data) =>
    ({ s with queue, dequeued := s.dequeued ++ data }, ret)
  | .foldDown => (fqueueFoldDown s.queue).map fun (queue, ret) => ({ s with queue }, ret)

def fileMachine (cap : Nat) : Machine FileState FileCall where
  init s := fqueueInit true cap = some s.queue ∧ s.file.passed = [] ∧ s.dequeued = []
  step s c := (s.call c).map Prod.fst

/-- The call reads some bytes, but the file ends before it has as many as it asks for. -/
def Short (s : FileState) : FileCall → Prop
  | .fenqueue size => size ≤ fqueueUnused s.queue ∧ s.file.error = false ∧ s.file.ahead ≠ [] ∧
    s.file.ahead.length < size
  | _ => False

variable {cap size : Nat} {s s' : FileState} {c : FileCall} {stream : Stream}

def Kept (s : FileState) : Prop := s.dequeued ++ queued s.queue = s.file.passed

theorem Refines.beyond {queue : Fqueue} (h : Refines cap queue stream) {data : List UInt8}
    (hdata : data.length ≤ cap - stream.whole.length) :
    ∃ queue', queue.store queue.writeCursor data = some queue' ∧ Refines cap queue' stream := by
  have hread := h.read_le
  have hwrite := h.write_le
  have hcap := h.cap_eq
  rw [h.length_whole] at hdata
  refine ⟨_, if_pos (by omega), hcap, h.cap_lt, hread, hwrite, ?_, ?_⟩
  · rw [h.consumed]
    exact (copyOut_before queue.bytes data (by omega)).symm
  · rw [h.pending]
    exact (copyOut_before queue.bytes data (by omega)).symm

theorem Stream.dequeue_pending (s : Stream) (cap size : Nat) :
    (s.call cap (.dequeue size)).2.data ++ (s.call cap (.dequeue size)).1.pending = s.pending := by
  rw [Stream.call]
  split_ifs
  · rfl
  · rfl
  · exact List.take_append_drop size s.pending

theorem Stream.foldDown_pending (s : Stream) (cap : Nat) :
    (s.call cap .foldDown).1.pending = s.pending := by
  rw [Stream.call]
  split_ifs <;> rfl

structure Reads (cap : Nat) (s : FileState) (stream : Stream) (c : FileCall) (s' : FileState)
    (kept lost : List UInt8) (stream' : Stream) : Prop where
  refines : Refines cap s'.queue stream'
  queued : s'.dequeued ++ stream'.pending = s.dequeued ++ stream.pending ++ kept
  passed : s'.file.passed = s.file.passed ++ kept ++ lost
  short : lost ≠ [] ↔ Short s c

theorem Reads.none {s' : FileState} {stream' : Stream} (h : Refines cap s'.queue stream')
    (hkept : s'.dequeued ++ stream'.pending = s.dequeued ++ stream.pending)
    (hfile : s'.file.passed = s.file.passed) (hshort : ¬ Short s c) :
    Reads cap s stream c s' [] [] stream' :=
  ⟨h, by rw [hkept, List.append_nil], by rw [hfile, List.append_nil, List.append_nil],
    iff_of_false (fun hne => hne rfl) hshort⟩

def Returns (cap : Nat) (s : FileState) (stream : Stream) (c : FileCall) : Prop :=
  ∃ s' ret kept lost stream', s.call c = some (s', ret) ∧ Reads cap s stream c s' kept lost stream'

section Fenqueue

variable (h : Refines cap s.queue stream) (hzero : size ≠ 0) (hfits : ¬ size > fqueueUnused s.queue)
  (hfile : ¬ s.file.error = true)

include h hfits in
theorem fread_room : (s.file.ahead.take size).length ≤ cap - stream.whole.length := by
  rw [← h.unused_eq, List.length_take]
  exact Nat.le_trans (Nat.min_le_left ..) (Nat.le_of_not_lt hfits)

include h hzero hfits hfile

theorem returns_whole (hall : (s.file.ahead.take size).length = size) :
    Returns cap s stream (.fenqueue size) := by
  obtain ⟨queue', hstore, hnext⟩ := h.append (fread_room h hfits)
  refine ⟨{ s with queue := { queue' with writeCursor := _ }, file := (fread s.file size).1 }, .ok,
    s.file.ahead.take size, [], _, ?_, hnext, ?_, ?_, ?_⟩
  · rw [FileState.call, fqueueFenqueue, if_neg hzero, if_neg hfits, if_neg hfile]
    simp only [fread, hstore, Option.bind_eq_bind, Option.bind_some, ne_eq, hall,
      not_true_eq_false, if_false, Option.map_some]
  · exact (List.append_assoc ..).symm
  · exact (List.append_nil _).symm
  · refine iff_of_false (fun hne => hne rfl) fun hshort => ?_
    have hlt := hshort.2.2.2
    rw [List.length_take] at hall
    omega

theorem returns_short (hall : (s.file.ahead.take size).length ≠ size) :
    Returns cap s stream (.fenqueue size) := by
  have hfew : s.file.ahead.length < size := by
    rw [List.length_take] at hall
    omega
  obtain ⟨queue', hstore, hnext⟩ := h.beyond (fread_room h hfits)
  refine ⟨{ s with queue := queue', file := (fread s.file size).1 },
    .ERR_QUEUE_FILE_READ_INCOMPLETE, [], s.file.ahead, stream, ?_, hnext, ?_, ?_, ?_⟩
  · rw [FileState.call, fqueueFenqueue, if_neg hzero, if_neg hfits, if_neg hfile]
    simp only [fread, hstore, Option.bind_eq_bind, Option.bind_some, ne_eq, hall,
      not_false_eq_true, if_true, Option.map_some]
  · exact (List.append_nil _).symm
  · change s.file.passed ++ s.file.ahead.take size = _
    rw [List.append_nil, List.take_of_length_le (Nat.le_of_lt hfew)]
  · refine ⟨fun hne => ⟨Nat.le_of_not_lt hfits, ?_, hne, hfew⟩, fun hshort => hshort.2.2.1⟩
    exact Bool.eq_false_iff.mpr hfile

end Fenqueue

theorem returns_fenqueue (h : Refines cap s.queue stream) (size : Nat) :
    Returns cap s stream (.fenqueue size) := by
  have hself (ret : FqueueRet) (hcall : fqueueFenqueue s.queue s.file size =
      some (s.queue, s.file, ret)) (hshort : ¬ Short s (.fenqueue size)) :
      Returns cap s stream (.fenqueue size) :=
    ⟨s, ret, [], [], stream, by rw [FileState.call, hcall]; rfl, Reads.none h rfl rfl hshort⟩
  by_cases hzero : size = 0
  · refine hself _ (if_pos hzero) fun hshort => ?_
    exact Nat.not_lt_zero _ (hzero ▸ hshort.2.2.2)
  by_cases hfull : size > fqueueUnused s.queue
  · refine hself _ (by rw [fqueueFenqueue, if_neg hzero, if_pos hfull]) fun hshort => ?_
    exact Nat.not_lt.mpr hshort.1 hfull
  by_cases hfile : s.file.error = true
  · refine hself _ (by rw [fqueueFenqueue, if_neg hzero, if_neg hfull, if_pos hfile])
      fun hshort => ?_
    exact absurd (hfile.symm.trans hshort.2.1) (by decide)
  by_cases hall : (s.file.ahead.take size).length = size
  · exact returns_whole h hzero hfull hfile hall
  · exact returns_short h hzero hfull hfile hall

theorem returns (h : Refines cap s.queue stream) (c : FileCall) : Returns cap s stream c := by
  cases c with
  | fenqueue size => exact returns_fenqueue h size
  | dequeue size =>
    obtain ⟨queue', hcall, hnext, -⟩ := h.dequeue size
    obtain ⟨⟨queue', ret, data⟩, hdequeue, hr⟩ := Option.map_eq_some_iff.mp hcall
    obtain ⟨rfl, hreply⟩ := Prod.mk.inj hr
    refine ⟨{ s with queue := queue', dequeued := s.dequeued ++ data }, ret, [], [], _,
      by rw [FileState.call, hdequeue]; rfl, Reads.none hnext ?_ rfl nofun⟩
    have hdata : data = (stream.call cap (.dequeue size)).2.data := congrArg Reply.data hreply
    rw [List.append_assoc, hdata, stream.dequeue_pending]
  | foldDown =>
    obtain ⟨queue', hcall, hnext, -⟩ := h.foldDown
    obtain ⟨⟨queue', ret⟩, hfold, hr⟩ := Option.map_eq_some_iff.mp hcall
    obtain ⟨rfl, -⟩ := Prod.mk.inj hr
    refine ⟨{ s with queue := queue' }, ret, [], [], _, by rw [FileState.call, hfold]; rfl,
      Reads.none hnext ?_ rfl nofun⟩
    rw [stream.foldDown_pending]

theorem kept_eq (h : Refines cap s.queue stream) :
    Kept s ↔ s.dequeued ++ stream.pending = s.file.passed := by
  rw [Kept, h.queued_eq]

theorem Refines.start (hcap : cap < sizeMax) (h : (fileMachine cap).init s) :
    Refines cap s.queue .empty ∧ Kept s := by
  obtain ⟨hqueue, hpassed, hdequeued⟩ := h
  have hstart := Refines.init hcap hqueue
  refine ⟨hstart, (kept_eq hstart).mpr ?_⟩
  rw [hpassed, hdequeued]
  rfl

theorem step_kept (h : Refines cap s.queue stream) (hkept : Kept s)
    (hstep : (fileMachine cap).step s c = some s') : Kept s' ↔ ¬ Short s c := by
  obtain ⟨x, ret, kept, lost, stream', hcall, hreads⟩ := returns h c
  obtain rfl : x = s' := Option.some.inj ((congrArg (Option.map Prod.fst) hcall).symm.trans hstep)
  rw [kept_eq hreads.refines, hreads.queued, hreads.passed, (kept_eq h).mp hkept,
    ← hreads.short, not_not, List.self_eq_append_right]

theorem step_refines (h : ∃ stream, Refines cap s.queue stream)
    (hstep : (fileMachine cap).step s c = some s') : ∃ stream, Refines cap s'.queue stream := by
  obtain ⟨stream, h⟩ := h
  obtain ⟨x, ret, kept, lost, stream', hcall, hreads⟩ := returns h c
  obtain rfl : x = s' := Option.some.inj ((congrArg (Option.map Prod.fst) hcall).symm.trans hstep)
  exact ⟨stream', hreads.refines⟩

/-- Along a run the bytes dequeued and queued are those read from the file for as long as no
read is cut short by the end of the file, and every call returns. -/
theorem keptBytes_run (hcap : cap < sizeMax) {tr : List (FileState × FileCall)}
    (hr : (fileMachine cap).Run tr s) :
    ((∀ x, Machine.Visits tr s x → Kept x) ↔ ∀ p ∈ tr, ¬ Short p.1 p.2) ∧
      ∀ x, Machine.Visits tr s x → ∀ c, ∃ x', (fileMachine cap).step x c = some x' := by
  constructor
  · refine hr.visited_iff (I := fun x => (∃ stream, Refines cap x.queue stream) ∧ Kept x)
      (G := fun x c => ¬ Short x c) (fun x hx => ⟨⟨_, (Refines.start hcap hx).1⟩, (Refines.start hcap hx).2⟩) ?_
      (fun x hx => hx.2) ?_
    · rintro x c x' ⟨⟨stream, h⟩, hkept⟩ hshort hstep
      exact ⟨step_refines ⟨stream, h⟩ hstep, (step_kept h hkept hstep).mpr hshort⟩
    · rintro x c x' ⟨⟨stream, h⟩, hkept⟩ hshort hstep
      exact fun hkept' => hshort ((step_kept h hkept hstep).mp hkept')
  · intro x hx c
    obtain ⟨stream, h⟩ : ∃ stream, Refines cap x.queue stream :=
      hr.visited (G := fun _ _ => True) (I := fun x => ∃ stream, Refines cap x.queue stream)
        (fun x hx => ⟨_, (Refines.start hcap hx).1⟩)
        (fun x c x' hx _ hstep => step_refines hx hstep) (fun _ _ => trivial) hx
    obtain ⟨x', ret, -, -, -, hcall, -⟩ := returns h c
    exact ⟨x', congrArg (Option.map Prod.fst) hcall⟩

def threeBytes : FileState := ⟨⟨fun _ => 0, 0, 0, 4⟩, ⟨[], [1, 2, 3], false⟩, []⟩

theorem keptBytes_run_pairs :
    ∃ tr s, (fileMachine 4).Run tr s ∧ s.dequeued = [1] ∧
      ((∀ x, Machine.Visits tr s x → Kept x) ↔ ∀ p ∈ tr, ¬ Short p.1 p.2) ∧
      ∀ x, Machine.Visits tr s x → ∀ c, ∃ x', (fileMachine 4).step x c = some x' := by
  obtain ⟨tr, s, hr, hs⟩ := Machine.exists_run_of_exec (fileMachine 4) threeBytes
    [.fenqueue 2, .dequeue 1, .foldDown, .fenqueue 2] (fun s => s.dequeued = [1])
    ⟨rfl, rfl, rfl⟩ (by decide)
  simp only [decide_eq_true_eq] at hs
  exact ⟨tr, s, hr, hs, keptBytes_run (by decide) hr⟩

/-- Four bytes are asked for where the file has three: none of them is queued, and the file is
at its end. -/
theorem short_read_lost :
    ∃ tr s, (fileMachine 4).Run tr s ∧ s.file.passed = [1, 2, 3] ∧ ¬ Kept s := by
  obtain ⟨tr, s, hr, hs⟩ := Machine.exists_run_of_exec (fileMachine 4) threeBytes [.fenqueue 4]
    (fun s => s.file.passed = [1, 2, 3] ∧ s.dequeued ++ queued s.queue = [])
    ⟨rfl, rfl, rfl⟩ (by decide)
  simp only [decide_eq_true_eq] at hs
  refine ⟨tr, s, hr, hs.1, fun hkept => ?_⟩
  rw [Kept, hs.1, hs.2] at hkept
  cases hkept

end Fill

end Dert.Fqueue
