import Dert.Library.Fifo
import Dert.Queue.AqueueLaws

universe u

namespace Dert.Aqueue

open Library Library.Cyclic

variable {α : Type u} {cap : Nat} {s s' : State α} {l : Label α}

/-- What a step is for the queue as a whole: a call takes effect where it adds to `len`
or subtracts from it, and fails where it loads `len`. -/
def event (s : State α) : Label α → Fifo.Event α
  | .produce =>
    match s.producer with
    | .enqueueLoad _ => if s.queue.len = s.queue.cap then .refused else .idle
    | .enqueueAdd src => .pushed [src]
    | .someLoad src =>
      if src.length ≠ 0 ∧ aqueueCap s.queue - aqueueLen s.queue = 0 then .refused else .idle
    | .someAdd _ src => .pushed src
    | _ => .idle
  | .consume =>
    match s.consumer with
    | .frontLoad _ => if s.queue.len = 0 then .missed else .idle
    | .dequeueSub dest => .popped [dest]
    | .someLoad n => if n ≠ 0 ∧ aqueueLen s.queue = 0 then .missed else .idle
    | .someSub _ dest => .popped dest
    | _ => .idle
  | _ => .idle

theorem refused_full (hle : s.queue.len ≤ s.queue.cap) (h : event s l = .refused) :
    s.queue.len = s.queue.cap := by
  cases l with
  | produce =>
    cases hproducer : s.producer with
    | enqueueLoad src =>
      by_contra hfull
      simp [event, hproducer, hfull] at h
    | someLoad src =>
      by_contra hfull
      have hroom : aqueueCap s.queue - aqueueLen s.queue ≠ 0 :=
        Nat.sub_ne_zero_of_lt (Nat.lt_of_le_of_ne hle hfull)
      simp [event, hproducer, hroom] at h
    | _ => simp [event, hproducer] at h
  | consume =>
    cases hconsumer : s.consumer with
    | frontLoad dequeue =>
      simp only [event, hconsumer] at h
      split_ifs at h
    | someLoad n =>
      simp only [event, hconsumer] at h
      split_ifs at h
    | _ => simp [event, hconsumer] at h
  | _ => cases h

theorem missed_empty (h : event s l = .missed) : s.queue.len = 0 := by
  cases l with
  | produce =>
    cases hproducer : s.producer with
    | enqueueLoad src =>
      simp only [event, hproducer] at h
      split_ifs at h
    | someLoad src =>
      simp only [event, hproducer] at h
      split_ifs at h
    | _ => simp [event, hproducer] at h
  | consume =>
    cases hconsumer : s.consumer with
    | frontLoad dequeue =>
      by_contra hempty
      simp [event, hconsumer, hempty] at h
    | someLoad n =>
      by_contra hempty
      have hlen : aqueueLen s.queue ≠ 0 := hempty
      simp [event, hconsumer, hlen] at h
    | _ => simp [event, hconsumer] at h
  | _ => cases h

theorem produce_histories (hs : produce s = some s') :
    s'.accepted = s.accepted ++ (event s .produce).given ∧
      s'.delivered = s.delivered ++ (event s .produce).taken := by
  obtain ⟨queue, producer, consumer, accepted, delivered⟩ := s
  unfold produce at hs
  cases producer with
  | returned res num => cases hs
  | enqueueLoad src =>
    dsimp only [event] at hs ⊢
    split at hs <;> cases hs <;> split_ifs <;> simp [Fifo.Event.given, Fifo.Event.taken]
  | someLoad src =>
    dsimp only [event] at hs ⊢
    split at hs
    · cases hs
      split_ifs <;> simp [Fifo.Event.given, Fifo.Event.taken]
    · split at hs <;> cases hs <;> split_ifs <;> simp [Fifo.Event.given, Fifo.Event.taken]
  | someCopy res src copied =>
    dsimp only at hs
    split at hs <;> cases hs <;> simp [event, Fifo.Event.given, Fifo.Event.taken]
  | _ =>
    cases hs
    simp [event, Fifo.Event.given, Fifo.Event.taken]

theorem consume_histories (hs : consume s = some s') :
    s'.accepted = s.accepted ++ (event s .consume).given ∧
      s'.delivered = s.delivered ++ (event s .consume).taken := by
  obtain ⟨queue, producer, consumer, accepted, delivered⟩ := s
  unfold consume at hs
  cases consumer with
  | returned res num => cases hs
  | peeked dest => cases hs
  | frontLoad dequeue =>
    dsimp only [event] at hs ⊢
    split at hs <;> cases hs <;> split_ifs <;> simp [Fifo.Event.given, Fifo.Event.taken]
  | someLoad n =>
    dsimp only [event] at hs ⊢
    split at hs
    · cases hs
      split_ifs <;> simp [Fifo.Event.given, Fifo.Event.taken]
    · split at hs <;> cases hs <;> split_ifs <;> simp [Fifo.Event.given, Fifo.Event.taken]
  | someCopy res should dest =>
    dsimp only at hs
    split at hs <;> cases hs <;> simp [event, Fifo.Event.given, Fifo.Event.taken]
  | _ =>
    cases hs
    simp [event, Fifo.Event.given, Fifo.Event.taken]

theorem call_histories {producer : Producer α} (hs : s.callProducer producer = some s') :
    s'.accepted = s.accepted ∧ s'.delivered = s.delivered := by
  unfold State.callProducer at hs
  split at hs <;> cases hs
  exact ⟨rfl, rfl⟩

theorem callConsumer_histories {consumer : Consumer α} (hs : s.callConsumer consumer = some s') :
    s'.accepted = s.accepted ∧ s'.delivered = s.delivered := by
  unfold State.callConsumer at hs
  split at hs <;> cases hs <;> exact ⟨rfl, rfl⟩

theorem histories (hs : step s l = some s') :
    s'.accepted = s.accepted ++ (event s l).given ∧
      s'.delivered = s.delivered ++ (event s l).taken := by
  cases l with
  | produce => exact produce_histories hs
  | consume => exact consume_histories hs
  | enqueue src => simpa [event, Fifo.Event.given, Fifo.Event.taken] using call_histories hs
  | enqueueSome src => simpa [event, Fifo.Event.given, Fifo.Event.taken] using call_histories hs
  | front => simpa [event, Fifo.Event.given, Fifo.Event.taken] using callConsumer_histories hs
  | dequeue => simpa [event, Fifo.Event.given, Fifo.Event.taken] using callConsumer_histories hs
  | dequeueSome n => simpa [event, Fifo.Event.given, Fifo.Event.taken] using callConsumer_histories hs

def Inv.fifo (h : Inv cap s) : Fifo α cap :=
  ⟨s.queued, by rw [State.queued, window_length]; exact h.len_le⟩

theorem Inv.fifo_length (h : Inv cap s) : h.fifo.length = s.queue.len := window_length _

theorem refused_iff (hs : produce s = some s') :
    event s .produce = .refused ↔ s'.producer = .returned .EXFULL none := by
  obtain ⟨queue, producer, consumer, accepted, delivered⟩ := s
  unfold produce at hs
  cases producer with
  | returned res num => cases hs
  | enqueueLoad src =>
    dsimp only [event] at hs ⊢
    split at hs
    next hfull =>
      cases hs
      simp [hfull]
    next hfull =>
      cases hs
      simp [hfull]
  | someLoad src =>
    dsimp only [event] at hs ⊢
    split at hs
    next hzero =>
      cases hs
      simp [hzero]
    next hzero =>
      split at hs
      next hfull =>
        cases hs
        simp [hzero, hfull]
      next hfull =>
        cases hs
        simp [hfull]
  | someCopy res src copied =>
    dsimp only at hs
    split at hs <;> cases hs <;> simp [event]
  | _ =>
    cases hs
    simp [event]

theorem missed_iff (hs : consume s = some s') :
    event s .consume = .missed ↔
      s'.consumer = .returned .ENODATA none ∨ s'.consumer = .returned .ENOTRECOVERABLE none := by
  obtain ⟨queue, producer, consumer, accepted, delivered⟩ := s
  unfold consume at hs
  cases consumer with
  | returned res num => cases hs
  | peeked dest => cases hs
  | frontLoad dequeue =>
    dsimp only [event] at hs ⊢
    split at hs
    next hempty =>
      cases hs
      cases dequeue <;> simp [hempty]
    next hempty =>
      cases hs
      simp [hempty]
  | frontCopy dequeue =>
    cases hs
    cases dequeue <;> simp [event]
  | someLoad n =>
    dsimp only [event] at hs ⊢
    split at hs
    next hzero =>
      cases hs
      simp [hzero]
    next hzero =>
      split at hs
      next hempty =>
        cases hs
        simp [hzero, hempty]
      next hempty =>
        cases hs
        simp [hempty]
  | someCopy res should dest =>
    dsimp only at hs
    split at hs <;> cases hs <;> simp [event]
  | _ =>
    cases hs
    simp [event]

/-- Every step of a run is one event of a queue that does everything at once. -/
theorem allows {zero : α} {tr : List (State α × Label α)} (hr : (machine zero cap).Run tr s)
    (hs : step s l = some s') (ht : s'.produced < sizeMax) :
    ∃ q q' : Fifo α cap, q.list = s.queued ∧ q'.list = s'.queued ∧ q.Allows (event s l) q' := by
  have h : Inv cap s := run_inv hr (Nat.lt_of_le_of_lt (produced_le hs) ht)
  have h' : Inv cap s' := run_inv (hr.next hs) ht
  refine ⟨h.fifo, h'.fifo, rfl, rfl, Fifo.allows_of_balance ?_ ?_ ?_⟩
  · have hsplit := h'.split
    obtain ⟨haccepted, hdelivered⟩ := histories hs
    rw [haccepted, hdelivered, h.split, List.append_assoc, List.append_assoc] at hsplit
    exact List.append_cancel_left hsplit
  · intro hrefused
    rw [h.fifo_length, refused_full (h.cap_eq ▸ h.len_le) hrefused, h.cap_eq]
  · intro hmissed
    apply List.eq_nil_of_length_eq_zero
    exact h.fifo_length.trans (missed_empty hmissed)

/-- Every step of a run is one event of a queue that does everything at once: `aqueue_enqueue`
pushes when it adds to `len` and `aqueue_dequeue` pops when it subtracts from it.  A call fails
exactly when it is refused, or misses, at its load of `len`. -/
theorem atomic_run {zero : α} {tr : List (State α × Label α)} (hr : (machine zero cap).Run tr s)
    (hs : step s l = some s') (ht : s'.produced < sizeMax) :
    ∃ q q' : Fifo α cap, q.list = s.queued ∧ q'.list = s'.queued ∧ q.Allows (event s l) q' ∧
      (∀ src, s.producer = .enqueueAdd src → l = .produce → q.push src = some q') ∧
      (∀ dest, s.consumer = .dequeueSub dest → l = .consume → q.pop = some (dest, q')) ∧
      (l = .produce → (event s l = .refused ↔ s'.producer = .returned .EXFULL none)) ∧
      (l = .consume → (event s l = .missed ↔
        s'.consumer = .returned .ENODATA none ∨ s'.consumer = .returned .ENOTRECOVERABLE none)) := by
  obtain ⟨q, q', hq, hq', hallows⟩ := allows hr hs ht
  refine ⟨q, q', hq, hq', hallows, fun src hproducer hl => ?_, fun dest hconsumer hl => ?_, ?_, ?_⟩
  · subst hl
    simp only [event, hproducer] at hallows
    exact Fifo.allows_pushed_iff.mp hallows
  · subst hl
    simp only [event, hconsumer] at hallows
    exact Fifo.allows_popped_iff.mp hallows
  · rintro rfl
    exact refused_iff hs
  · rintro rfl
    exact missed_iff hs

def Consumer.takes : Consumer α → Option α
  | .dequeueSub dest => some dest
  | _ => none

theorem Consumer.eq_dequeueSub {consumer : Consumer α} {dest : α} (h : consumer.takes = some dest) :
    consumer = .dequeueSub dest := by
  cases consumer <;> simp_all [Consumer.takes]

theorem atomic_run_overlapping : ∃ (tr : List (State Nat × Label Nat)) (s s' : State Nat),
    (machine 0 3).Run tr s ∧ s.queued = [1] ∧ step s .consume = some s' ∧
      ∃ q q' : Fifo Nat 3, q.list = [1] ∧ q'.list = s'.queued ∧ q.pop = some (1, q') := by
  obtain ⟨tr, s, hr, hs⟩ := (machine 0 3).exists_run_of_exec (start ⟨fun _ => 0, 0, 0, 0, 3⟩)
    [.enqueue 1, .produce, .produce, .produce, .produce, .dequeue, .consume, .consume,
      .enqueueSome [2, 3, 4], .produce, .produce, .consume]
    (fun s => s.queued = [1] ∧ s.consumer.takes = some 1 ∧
      (step s .consume).any fun s' => decide (s'.produced < sizeMax)) ⟨_, rfl, rfl⟩ (by decide)
  simp only [decide_eq_true_eq] at hs
  obtain ⟨hqueued, htakes, hnext⟩ := hs
  obtain ⟨s', hs', ht⟩ := (Option.any_eq_true _ _).mp hnext
  rw [decide_eq_true_eq] at ht
  obtain ⟨q, q', hq, hq', -, -, hpop, -⟩ := atomic_run hr hs' ht
  exact ⟨tr, s, s', hr, hqueued, hs', q, q', hq.trans hqueued, hq',
    hpop 1 (Consumer.eq_dequeueSub htakes) rfl⟩

end Dert.Aqueue
