import Dert.Queue.Aqueue
import Dert.Queue.QueueLayout

universe u

namespace Dert.Aqueue

open Library Library.Cyclic

variable {α : Type u} {cap : Nat} {s s' : State α}

namespace Producer

def copied : Producer α → Nat
  | .enqueueBack _ => 1
  | .enqueueAdd _ => 1
  | .someCopy _ _ copied => copied
  | .someBack _ src => src.length
  | .someAdd _ src => src.length
  | _ => 0

def moved : Producer α → Nat
  | .enqueueAdd _ => 1
  | .someAdd _ src => src.length
  | _ => 0

end Producer

namespace Consumer

def claimed : Consumer α → Nat
  | .frontCopy _ => 1
  | .dequeueFront _ => 1
  | .dequeueSub _ => 1
  | .someCopy _ should _ => should
  | .someFront _ dest => dest.length
  | .someSub _ dest => dest.length
  | _ => 0

def dest : Consumer α → List α
  | .dequeueFront dest => [dest]
  | .dequeueSub dest => [dest]
  | .someCopy _ _ dest => dest
  | .someFront _ dest => dest
  | .someSub _ dest => dest
  | _ => []

def moved : Consumer α → Nat
  | .dequeueSub _ => 1
  | .someSub _ dest => dest.length
  | _ => 0

end Consumer

/-- The producer's elements lie just behind the queued ones, where there is room. -/
structure ProducerInv (cap : Nat) (queue : Aqueue α) (accepted : Nat) (p : Producer α) : Prop where
  room : queue.len + p.pending.length ≤ cap
  copied_le : p.copied ≤ p.pending.length
  content : window queue.elems cap accepted p.copied = p.pending.take p.copied
  back : Cursor cap (accepted + p.moved) queue.back

structure ConsumerInv (cap : Nat) (queue : Aqueue α) (delivered : Nat) (c : Consumer α) : Prop where
  claimed_le : c.claimed ≤ queue.len
  dest_le : c.dest.length ≤ c.claimed
  content : window queue.elems cap delivered c.dest.length = c.dest
  front : Cursor cap (delivered + c.moved) queue.front

structure Inv (cap : Nat) (s : State α) : Prop where
  cap_eq : s.queue.cap = cap
  cap_pos : 0 < cap
  split : s.accepted = s.delivered ++ s.queued
  producer : ProducerInv cap s.queue s.accepted.length s.producer
  consumer : ConsumerInv cap s.queue s.delivered.length s.consumer
  peeked : ∀ x, s.consumer = .peeked x → s.accepted[s.delivered.length]? = some x

theorem inv_start {zero : α} {queue : Aqueue α} (h : aqueueInit zero cap = some queue) :
    Inv cap (start queue) := by
  unfold aqueueInit at h
  split at h
  · cases h
  · next hcap =>
    cases h
    refine ⟨rfl, Nat.pos_of_ne_zero hcap, rfl, ?_, ?_, by simp [start]⟩
    · exact ⟨Nat.zero_le _, Nat.le_refl _, rfl, Cursor.refl cap 0⟩
    · exact ⟨Nat.le_refl _, Nat.le_refl _, rfl, Cursor.refl cap 0⟩

theorem slot_eq {queue : Aqueue α} (hcap : queue.cap = cap) {n m pos j : Nat} (hn : n ≤ cap)
    (hj : j < n) (hpos : Cursor cap m pos) : aqueueSlot queue pos n j = (m + j) % cap := by
  have hlt : pos % cap < cap := Nat.mod_lt _ (by omega)
  have hmod : (m + j) % cap = (pos % cap + j) % cap := by
    rw [mod_add_mod_eq]
    exact Nat.ModEq.add_right j hpos.slot.symm
  rw [hmod, aqueueSlot, aqueueWrap, hcap]
  generalize pos % cap = start at *
  by_cases hwrap : start + j < cap
  · rw [Nat.mod_eq_of_lt hwrap]
    split
    · rfl
    · exact if_pos (by omega)
  · rw [Nat.mod_eq_sub_mod (by omega), Nat.mod_eq_of_lt (by omega), if_neg (by omega),
      if_neg (by omega)]
    omega

namespace Inv

theorem accepted_length (h : Inv cap s) :
    s.accepted.length = s.delivered.length + s.queue.len := by
  rw [h.split, List.length_append, State.queued, window_length]

theorem len_le (h : Inv cap s) : s.queue.len ≤ cap :=
  Nat.le_trans (Nat.le_add_right _ _) h.producer.room

theorem head_eq (h : Inv cap s) (hne : 0 < s.queue.len) {pos : Nat}
    (hpos : Cursor cap s.delivered.length pos) :
    s.accepted[s.delivered.length]? = some (s.queue.elems (pos % cap)) := by
  have hzero : 0 < s.queued.length := by
    rw [State.queued, window_length]
    exact hne
  rw [h.split, List.getElem?_append_right (Nat.le_refl _), Nat.sub_self,
    List.getElem?_eq_getElem hzero, hpos.slot]
  simp [State.queued, h.cap_eq]

theorem behind_ne (h : Inv cap s) {c j : Nat} (hc : s.queue.len + c < cap)
    (hj : j < s.queue.len + c) :
    (s.delivered.length + j) % cap ≠ (s.accepted.length + c) % cap := by
  intro heq
  rw [h.accepted_length, Nat.add_assoc] at heq
  have := mod_add_inj (by omega) hc heq
  omega

theorem setProducer (h : Inv cap s) {p : Producer α} {back : Nat}
    (hp : ProducerInv cap { s.queue with back } s.accepted.length p) :
    Inv cap { s with queue := { s.queue with back }, producer := p } :=
  ⟨h.cap_eq, h.cap_pos, h.split, hp,
    ⟨h.consumer.claimed_le, h.consumer.dest_le, h.consumer.content, h.consumer.front⟩, h.peeked⟩

theorem setConsumer (h : Inv cap s) {c : Consumer α} {front : Nat}
    (hc : ConsumerInv cap { s.queue with front } s.delivered.length c)
    (hpeek : ∀ x, c = .peeked x → s.accepted[s.delivered.length]? = some x) :
    Inv cap { s with queue := { s.queue with front }, consumer := c } :=
  ⟨h.cap_eq, h.cap_pos, h.split,
    ⟨h.producer.room, h.producer.copied_le, h.producer.content, h.producer.back⟩, hc, hpeek⟩

theorem copy (h : Inv cap s) {p : Producer α} {x : α}
    (hx : s.producer.pending[s.producer.copied]? = some x)
    (hpending : p.pending = s.producer.pending) (hcopied : p.copied = s.producer.copied + 1)
    (hmoved : p.moved = s.producer.moved) {i : Nat}
    (hi : i = (s.accepted.length + s.producer.copied) % cap) :
    Inv cap { s with
      queue := { s.queue with elems := Function.update s.queue.elems i x }, producer := p } := by
  obtain ⟨hlt, hget⟩ := List.getElem?_eq_some_iff.mp hx
  have hroom := h.producer.room
  have hwindow {n : Nat} (hn : n ≤ s.queue.len + s.producer.copied) :
      window (Function.update s.queue.elems i x) cap s.delivered.length n =
        window s.queue.elems cap s.delivered.length n := by
    refine window_update_outside (fun j hj => ?_) x
    rw [hi]
    exact h.behind_ne (by omega) (by omega)
  have hdest := Nat.le_trans h.consumer.dest_le h.consumer.claimed_le
  have hcontent := hwindow (Nat.le_trans hdest (Nat.le_add_right _ _))
  refine ⟨h.cap_eq, h.cap_pos, ?_, ⟨?_, ?_, ?_, ?_⟩,
    ⟨h.consumer.claimed_le, h.consumer.dest_le, ?_, h.consumer.front⟩, h.peeked⟩
  · have hqueued := h.split
    rw [State.queued, h.cap_eq] at hqueued ⊢
    rw [hwindow (Nat.le_add_right _ _)]
    exact hqueued
  · rw [hpending]
    exact hroom
  · rw [hpending, hcopied]
    exact hlt
  · rw [hpending, hcopied, hi, window_update (by omega), h.producer.content,
      List.take_add_one, hx]
    rfl
  · rw [hmoved]
    exact h.producer.back
  · exact hcontent.trans h.consumer.content

theorem add (h : Inv cap s) (hcopied : s.producer.copied = s.producer.pending.length)
    (hmoved : s.producer.moved = s.producer.pending.length) {len : Nat} {res : Ret}
    {num : Option Nat} (hlen : len = s.queue.len + s.producer.pending.length) :
    Inv cap { s with
      queue := { s.queue with len }
      producer := .returned res num
      accepted := s.accepted ++ s.producer.pending } := by
  have hcontent := h.producer.content
  rw [hcopied, List.take_length] at hcontent
  have hback := h.producer.back
  rw [hmoved] at hback
  refine ⟨h.cap_eq, h.cap_pos, ?_, ⟨?_, Nat.le_refl _, rfl, ?_⟩,
    ⟨?_, h.consumer.dest_le, h.consumer.content, h.consumer.front⟩, ?_⟩
  · have hsplit := h.split
    rw [State.queued, h.cap_eq] at hsplit ⊢
    dsimp only
    rw [hlen, window_add, ← h.accepted_length, hcontent, ← List.append_assoc, ← hsplit]
  · rw [hlen]
    exact h.producer.room
  · rw [List.length_append]
    exact hback
  · rw [hlen]
    exact Nat.le_trans h.consumer.claimed_le (Nat.le_add_right _ _)
  · intro x hx
    have hpeeked := h.peeked x hx
    obtain ⟨hlt, -⟩ := List.getElem?_eq_some_iff.mp hpeeked
    rw [List.getElem?_append_left hlt]
    exact hpeeked

theorem sub (h : Inv cap s) (hmoved : s.consumer.moved = s.consumer.dest.length)
    {len : Nat} {res : Ret} {num : Option Nat}
    (hlen : len + s.consumer.dest.length = s.queue.len) :
    Inv cap { s with
      queue := { s.queue with len }
      consumer := .returned res num
      delivered := s.delivered ++ s.consumer.dest } := by
  have hfront := h.consumer.front
  rw [hmoved] at hfront
  refine ⟨h.cap_eq, h.cap_pos, ?_,
    ⟨?_, h.producer.copied_le, h.producer.content, h.producer.back⟩,
    ⟨Nat.zero_le _, Nat.le_refl _, rfl, ?_⟩, by simp⟩
  · have hsplit := h.split
    rw [State.queued, ← hlen, Nat.add_comm len, window_add, h.cap_eq, h.consumer.content] at hsplit
    rw [State.queued, List.length_append, h.cap_eq, List.append_assoc]
    exact hsplit
  · have := h.producer.room
    show len + s.producer.pending.length ≤ cap
    omega
  · rw [List.length_append]
    exact hfront

theorem produce (h : Inv cap s) (ht : s.produced < sizeMax) (hs : produce s = some s') :
    Inv cap s' := by
  obtain ⟨queue, producer, consumer, accepted, delivered⟩ := s
  have hpos := h.cap_pos
  have hlen : accepted.length = delivered.length + queue.len := h.accepted_length
  have hle : queue.len ≤ cap := h.len_le
  obtain ⟨hroom, hcopied, hcontent, hback⟩ := h.producer
  obtain rfl := h.cap_eq
  simp only [Aqueue.produce, State.produced] at hs ht
  cases producer with
  | returned res num => cases hs
  | enqueueLoad src =>
    dsimp only at hs
    split at hs
    · cases hs
      exact h.setProducer ⟨hle, Nat.le_refl _, rfl, hback⟩
    · next hfull =>
      cases hs
      exact h.setProducer ⟨Nat.lt_of_le_of_ne hle hfull, Nat.zero_le _, rfl, hback⟩
  | enqueueCopy src =>
    cases hs
    exact h.copy (p := .enqueueBack src) rfl rfl rfl rfl hback.slot
  | enqueueBack src =>
    cases hs
    have hnext : sizeT (queue.back + 1) = queue.back + 1 :=
      sizeT_of_lt (Nat.lt_of_le_of_lt (Nat.add_le_add_right hback.le 1) ht)
    refine h.setProducer ⟨hroom, hcopied, hcontent, ?_⟩
    rw [hnext]
    exact (hback.advance 1).wrap
  | enqueueAdd src =>
    cases hs
    exact h.add rfl rfl (sizeT_of_lt (by simp only [Producer.pending, List.length_singleton] at *; omega))
  | someLoad src =>
    have hroom' : aqueueCap queue - aqueueLen queue = queue.cap - queue.len := rfl
    dsimp only at hs
    split at hs
    · cases hs
      exact h.setProducer ⟨hle, Nat.le_refl _, rfl, hback⟩
    · split at hs
      · cases hs
        exact h.setProducer ⟨hle, Nat.le_refl _, rfl, hback⟩
      · cases hs
        refine h.setProducer ⟨?_, Nat.zero_le _, rfl, hback⟩
        simp only [Producer.pending, List.length_take]
        split <;> omega
  | someCopy res src copied =>
    cases hget : src[copied]? with
    | none =>
      simp only [hget, Option.some.injEq] at hs
      subst hs
      have hall : copied = src.length :=
        Nat.le_antisymm hcopied (List.getElem?_eq_none_iff.mp hget)
      subst hall
      exact h.setProducer ⟨hroom, Nat.le_refl _, hcontent, hback⟩
    | some x =>
      simp only [hget, Option.some.injEq] at hs
      subst hs
      have hlt := (List.getElem?_eq_some_iff.mp hget).1
      have hn : src.length ≤ queue.cap := Nat.le_trans (Nat.le_add_left _ _) hroom
      exact h.copy (p := .someCopy res src (copied + 1)) hget rfl rfl rfl (slot_eq rfl hn hlt hback)
  | someBack res src =>
    cases hs
    have hnext : sizeT (queue.back + src.length) = queue.back + src.length :=
      sizeT_of_lt (Nat.lt_of_le_of_lt (Nat.add_le_add_right hback.le _) ht)
    refine h.setProducer ⟨hroom, hcopied, hcontent, ?_⟩
    rw [hnext]
    exact hback.advance src.length
  | someAdd res src =>
    cases hs
    exact h.add rfl rfl (sizeT_of_lt (by simp only [Producer.pending] at *; omega))

theorem consume (h : Inv cap s) (ht : s.produced < sizeMax) (hs : consume s = some s') :
    Inv cap s' := by
  obtain ⟨queue, producer, consumer, accepted, delivered⟩ := s
  have hpos := h.cap_pos
  have hlen : accepted.length = delivered.length + queue.len := h.accepted_length
  have hle : queue.len ≤ cap := h.len_le
  obtain ⟨hclaimed, hdest, hcontent, hfront⟩ := h.consumer
  obtain rfl := h.cap_eq
  have hlt : queue.len < sizeMax := by
    simp only [State.produced] at ht
    omega
  have hcursor (n : Nat) (hn : n ≤ queue.len) (hf : queue.front ≤ delivered.length) :
      sizeT (queue.front + n) = queue.front + n := by
    simp only [State.produced] at ht
    exact sizeT_of_lt (by omega)
  have hsub (n : Nat) (hn : n ≤ queue.len) :
      sizeT (queue.len + (sizeMax - n)) + n = queue.len := by
    rw [sizeT_sub hn hlt]
    omega
  simp only [Aqueue.consume] at hs
  cases consumer with
  | returned res num => cases hs
  | peeked dest => cases hs
  | frontLoad dequeue =>
    dsimp only at hs
    split at hs
    · cases hs
      exact h.setConsumer ⟨Nat.zero_le _, Nat.le_refl _, rfl, hfront⟩ (by simp)
    · next hne =>
      cases hs
      exact h.setConsumer ⟨Nat.pos_of_ne_zero hne, Nat.zero_le _, rfl, hfront⟩ (by simp)
  | frontCopy dequeue =>
    cases hs
    have hhead := h.head_eq hclaimed hfront
    cases dequeue with
    | false =>
      refine h.setConsumer ⟨Nat.zero_le _, Nat.le_refl _, rfl, hfront⟩ fun x hx => ?_
      cases hx
      exact hhead
    | true =>
      refine h.setConsumer ⟨hclaimed, Nat.le_refl _, ?_, hfront⟩ (by simp)
      exact congrArg (fun i => [queue.elems i]) hfront.slot.symm
  | dequeueFront dest =>
    cases hs
    refine h.setConsumer ⟨hclaimed, hdest, hcontent, ?_⟩ (by simp)
    rw [hcursor 1 hclaimed hfront.le]
    exact (hfront.advance 1).wrap
  | dequeueSub dest =>
    cases hs
    exact h.sub rfl (hsub 1 hclaimed)
  | someLoad n =>
    have hlen' : aqueueLen queue = queue.len := rfl
    dsimp only at hs
    split at hs
    · cases hs
      exact h.setConsumer ⟨Nat.zero_le _, Nat.le_refl _, rfl, hfront⟩ (by simp)
    · split at hs
      · cases hs
        exact h.setConsumer ⟨Nat.zero_le _, Nat.le_refl _, rfl, hfront⟩ (by simp)
      · cases hs
        refine h.setConsumer ⟨?_, Nat.zero_le _, rfl, hfront⟩ (by simp)
        simp only [Consumer.claimed]
        split <;> omega
  | someCopy res should dest =>
    dsimp only at hs
    split at hs
    · next hmore =>
      cases hs
      have hslot : aqueueSlot queue queue.front should dest.length =
          (delivered.length + dest.length) % queue.cap :=
        slot_eq rfl (Nat.le_trans hclaimed hle) hmore hfront
      refine h.setConsumer ⟨hclaimed, ?_, ?_, hfront⟩ (by simp)
      · simp only [Consumer.dest, List.length_append, List.length_singleton]
        exact hmore
      · simp only [Consumer.dest, List.length_append, List.length_singleton] at hcontent ⊢
        rw [window_add, hcontent, hslot]
        rfl
    · next hdone =>
      cases hs
      have hall : dest.length = should := Nat.le_antisymm hdest (Nat.le_of_not_lt hdone)
      subst hall
      exact h.setConsumer ⟨hclaimed, Nat.le_refl _, hcontent, hfront⟩ (by simp)
  | someFront res dest =>
    cases hs
    refine h.setConsumer ⟨hclaimed, hdest, hcontent, ?_⟩ (by simp)
    rw [hcursor dest.length hclaimed hfront.le]
    exact hfront.advance dest.length
  | someSub res dest =>
    cases hs
    exact h.sub rfl (hsub dest.length hclaimed)

theorem call (h : Inv cap s) {producer : Producer α} (hs : s.callProducer producer = some s')
    (hp : producer.pending = [] ∧ producer.copied = 0 ∧ producer.moved = 0) : Inv cap s' := by
  obtain ⟨hpending, hcopied, hmoved⟩ := hp
  unfold State.callProducer at hs
  split at hs
  · next res num heq =>
    cases hs
    have hback := h.producer.back
    rw [heq] at hback
    refine h.setProducer ⟨?_, Nat.le_of_eq ?_, ?_, ?_⟩
    · rw [hpending]
      exact h.len_le
    · rw [hcopied, hpending]
      rfl
    · rw [hcopied]
      rfl
    · rw [hmoved]
      exact hback
  · cases hs

theorem callConsumer (h : Inv cap s) {consumer : Consumer α}
    (hs : s.callConsumer consumer = some s')
    (hc : consumer.claimed = 0 ∧ consumer.dest = [] ∧ consumer.moved = 0 ∧
      ∀ x, consumer ≠ .peeked x) : Inv cap s' := by
  obtain ⟨hclaimed, hdest, hmoved, hpeek⟩ := hc
  have houtside {front : Nat} (hfront : Cursor cap s.delivered.length front) :
      ConsumerInv cap { s.queue with front } s.delivered.length consumer := by
    refine ⟨?_, ?_, ?_, ?_⟩
    · rw [hclaimed]
      exact Nat.zero_le _
    · rw [hdest]
      exact Nat.zero_le _
    · rw [hdest]
      rfl
    · rw [hmoved]
      exact hfront
  have hfront := h.consumer.front
  unfold State.callConsumer at hs
  split at hs
  · next heq =>
    cases hs
    rw [heq] at hfront
    exact h.setConsumer (houtside hfront) fun x hx => absurd hx (hpeek x)
  · next heq =>
    cases hs
    rw [heq] at hfront
    exact h.setConsumer (houtside hfront) fun x hx => absurd hx (hpeek x)
  · cases hs

theorem step (h : Inv cap s) (ht : s.produced < sizeMax) {l : Label α}
    (hs : Aqueue.step s l = some s') : Inv cap s' := by
  cases l with
  | enqueue src => exact h.call hs ⟨rfl, rfl, rfl⟩
  | enqueueSome src => exact h.call hs ⟨rfl, rfl, rfl⟩
  | produce => exact h.produce ht hs
  | front => exact h.callConsumer hs ⟨rfl, rfl, rfl, fun _ => by simp⟩
  | dequeue => exact h.callConsumer hs ⟨rfl, rfl, rfl, fun _ => by simp⟩
  | dequeueSome n => exact h.callConsumer hs ⟨rfl, rfl, rfl, fun _ => by simp⟩
  | consume => exact h.consume ht hs

theorem writes_eq (h : Inv cap s) {i : Nat} (hw : s.writes = some i) :
    ∃ c, s.queue.len + c < cap ∧ i = (s.accepted.length + c) % cap := by
  obtain ⟨queue, producer, consumer, accepted, delivered⟩ := s
  have hroom := h.producer.room
  have hback := h.producer.back
  cases producer with
  | enqueueCopy src =>
    cases hw
    exact ⟨0, hroom, by rw [aqueueWrap, h.cap_eq]; exact hback.slot⟩
  | someCopy res src copied =>
    simp only [State.writes, Option.ite_none_right_eq_some, Option.some.injEq] at hw
    obtain ⟨hlt, rfl⟩ := hw
    have hn : src.length ≤ cap := Nat.le_trans (Nat.le_add_left _ _) hroom
    exact ⟨copied, Nat.lt_of_lt_of_le (Nat.add_lt_add_left hlt _) hroom,
      slot_eq h.cap_eq hn hlt hback⟩
  | _ => cases hw

theorem reads_eq (h : Inv cap s) {i : Nat} (hr : s.reads = some i) :
    ∃ j < s.queue.len, i = (s.delivered.length + j) % cap := by
  obtain ⟨queue, producer, consumer, accepted, delivered⟩ := s
  have hclaimed := h.consumer.claimed_le
  have hfront := h.consumer.front
  cases consumer with
  | frontCopy dequeue =>
    cases hr
    exact ⟨0, hclaimed, by rw [aqueueWrap, h.cap_eq]; exact hfront.slot⟩
  | someCopy res should dest =>
    simp only [State.reads, Option.ite_none_right_eq_some, Option.some.injEq] at hr
    obtain ⟨hlt, rfl⟩ := hr
    exact ⟨dest.length, Nat.lt_of_lt_of_le hlt hclaimed,
      slot_eq h.cap_eq (Nat.le_trans hclaimed h.len_le) hlt hfront⟩
  | _ => cases hr

/-- The producer's next write and the consumer's next read are of different slots. -/
theorem write_ne_read (h : Inv cap s) {i : Nat} (hw : s.writes = some i) : s.reads ≠ some i := by
  intro hr
  obtain ⟨c, hc, hwrite⟩ := h.writes_eq hw
  obtain ⟨j, hj, hread⟩ := h.reads_eq hr
  exact h.behind_ne hc (Nat.lt_of_lt_of_le hj (Nat.le_add_right _ _)) (hread.symm.trans hwrite)

theorem used_lt (h : Inv cap s) {i : Nat} (hused : s.writes = some i ∨ s.reads = some i) :
    i < cap := by
  rcases hused with hw | hr
  · obtain ⟨c, -, rfl⟩ := h.writes_eq hw
    exact Nat.mod_lt _ h.cap_pos
  · obtain ⟨j, -, rfl⟩ := h.reads_eq hr
    exact Nat.mod_lt _ h.cap_pos

end Inv

theorem produced_le_produce (hs : produce s = some s') : s.produced ≤ s'.produced := by
  obtain ⟨queue, producer, consumer, accepted, delivered⟩ := s
  unfold produce at hs
  cases producer with
  | returned res num => cases hs
  | enqueueLoad src =>
    dsimp only at hs
    split at hs <;> cases hs <;> simp [State.produced, Producer.pending]
  | someLoad src =>
    dsimp only at hs
    split at hs
    · cases hs
      exact Nat.le_refl _
    · split at hs <;> cases hs
      · exact Nat.le_refl _
      · exact Nat.le_add_right _ _
  | someCopy res src copied =>
    dsimp only at hs
    split at hs <;> cases hs <;> exact Nat.le_refl _
  | _ =>
    cases hs
    simp [State.produced, Producer.pending]

theorem producer_frame (hproducer : s'.producer = s.producer) (haccepted : s'.accepted = s.accepted)
    (hback : s'.queue.back = s.queue.back) (hcap : s'.queue.cap = s.queue.cap) :
    s'.produced = s.produced ∧ s'.writes = s.writes := by
  simp only [State.produced, State.writes, aqueueWrap, aqueueSlot, hproducer, haccepted, hback, hcap]
  exact ⟨trivial, rfl⟩

theorem consumer_frame {l : Label α} (hl : l.ofConsumer = true) (hs : step s l = some s') :
    s'.produced = s.produced ∧ s'.writes = s.writes ∧ s'.queue.elems = s.queue.elems := by
  have hcall {consumer : Consumer α} (hs : s.callConsumer consumer = some s') :
      s'.produced = s.produced ∧ s'.writes = s.writes ∧ s'.queue.elems = s.queue.elems := by
    unfold State.callConsumer at hs
    split at hs <;> cases hs <;> exact ⟨rfl, rfl, rfl⟩
  cases l with
  | front => exact hcall hs
  | dequeue => exact hcall hs
  | dequeueSome n => exact hcall hs
  | consume =>
    obtain ⟨queue, producer, consumer, accepted, delivered⟩ := s
    unfold step consume at hs
    have hkeep {queue' : Aqueue α} {consumer' : Consumer α} {delivered' : List α}
        (hback : queue'.back = queue.back) (hcap : queue'.cap = queue.cap)
        (helems : queue'.elems = queue.elems)
        (heq : ⟨queue', producer, consumer', accepted, delivered'⟩ = s') :
        s'.produced = State.produced ⟨queue, producer, consumer, accepted, delivered⟩ ∧
          s'.writes = State.writes ⟨queue, producer, consumer, accepted, delivered⟩ ∧
            s'.queue.elems = queue.elems := by
      subst heq
      exact and_assoc.mp ⟨producer_frame rfl rfl hback hcap, helems⟩
    cases consumer with
    | returned res num => cases hs
    | peeked dest => cases hs
    | frontLoad dequeue =>
      dsimp only at hs
      split at hs <;> exact hkeep rfl rfl rfl (Option.some.inj hs)
    | someLoad n =>
      dsimp only at hs
      split at hs
      · exact hkeep rfl rfl rfl (Option.some.inj hs)
      · split at hs <;> exact hkeep rfl rfl rfl (Option.some.inj hs)
    | someCopy res should dest =>
      dsimp only at hs
      split at hs <;> exact hkeep rfl rfl rfl (Option.some.inj hs)
    | _ => exact hkeep (by dsimp only) (by dsimp only) (by dsimp only) (Option.some.inj hs)
  | _ => cases hl

theorem produced_le {l : Label α} (hs : step s l = some s') : s.produced ≤ s'.produced := by
  have hcall {producer : Producer α} (hs : s.callProducer producer = some s') :
      s.produced ≤ s'.produced := by
    unfold State.callProducer at hs
    split at hs
    · next heq =>
      cases hs
      simp [State.produced, heq, Producer.pending]
    · cases hs
  cases l with
  | enqueue src => exact hcall hs
  | enqueueSome src => exact hcall hs
  | produce => exact produced_le_produce hs
  | front => exact (consumer_frame rfl hs).1.ge
  | dequeue => exact (consumer_frame rfl hs).1.ge
  | dequeueSome n => exact (consumer_frame (l := .dequeueSome n) rfl hs).1.ge
  | consume => exact (consumer_frame rfl hs).1.ge

/-- The invariant holds as long as the positions fit a `size_t`. -/
theorem run_inv {zero : α} {tr : List (State α × Label α)}
    (hr : (machine zero cap).Run tr s) (ht : s.produced < sizeMax) : Inv cap s := by
  refine hr.always (I := fun s => s.produced < sizeMax → Inv cap s) ?_ ?_ ht
  · rintro s ⟨queue, hinit, rfl⟩ _
    exact inv_start hinit
  · intro s l s' h hs ht
    have hle := Nat.lt_of_le_of_lt (produced_le hs) ht
    exact (h hle).step hle hs

theorem Inv.not_mayRead (h : Inv cap s) (ht : s.produced < sizeMax) {i : Nat}
    (hw : s.writes = some i) : ¬ s.MayRead i := by
  rintro ⟨s', hpath, hr⟩
  have hkeep : Inv cap s' ∧ s'.produced < sizeMax ∧ s'.writes = some i := by
    clear hr
    induction hpath with
    | refl => exact ⟨h, ht, hw⟩
    | tail _ hstep ih =>
      obtain ⟨l, hl, hs⟩ := hstep
      obtain ⟨h, ht, hw⟩ := ih
      obtain ⟨hproduced, hwrites, -⟩ := consumer_frame hl hs
      exact ⟨h.step ht hs, hproduced ▸ ht, hwrites.trans hw⟩
  exact hkeep.1.write_ne_read hkeep.2.2 hr

/-- What holds of the queue between any two steps. -/
structure Correct (s : State α) : Prop where
  split : s.accepted = s.delivered ++ s.queued
  queued_length : s.queued.length = s.queue.len
  len_le : s.queue.len ≤ s.queue.cap
  write_clear : ∀ i, s.writes = some i → ¬ s.MayRead i
  peeked : ∀ x, s.consumer = .peeked x → s.queued.head? = some x

theorem produce_elems {i : Nat} (hs : produce s = some s') (hi : s.writes ≠ some i) :
    s'.queue.elems i = s.queue.elems i := by
  unfold produce at hs
  unfold State.writes at hi
  cases hproducer : s.producer with
  | returned res num => simp only [hproducer, reduceCtorEq] at hs
  | enqueueCopy src =>
    simp only [hproducer, ne_eq, Option.some.injEq] at hs hi
    subst hs
    exact Function.update_of_ne (Ne.symm hi) _ _
  | someCopy res src copied =>
    simp only [hproducer] at hs hi
    cases hx : src[copied]? with
    | none =>
      rw [hx] at hs
      cases hs
      rfl
    | some x =>
      rw [if_pos (List.getElem?_eq_some_iff.mp hx).1] at hi
      rw [hx] at hs
      cases hs
      exact Function.update_of_ne (fun h => hi (congrArg some h.symm)) _ _
  | enqueueLoad src =>
    simp only [hproducer] at hs
    split_ifs at hs <;> cases hs <;> rfl
  | someLoad src =>
    simp only [hproducer] at hs
    split_ifs at hs <;> cases hs <;> rfl
  | _ =>
    simp only [hproducer, Option.some.injEq] at hs
    subst hs
    rfl

theorem step_elems {l : Label α} {i : Nat} (hs : step s l = some s') (hi : s.writes ≠ some i) :
    s'.queue.elems i = s.queue.elems i := by
  have hcall {producer : Producer α} (hs : s.callProducer producer = some s') :
      s'.queue = s.queue := by
    unfold State.callProducer at hs
    split at hs <;> cases hs
    rfl
  cases l with
  | enqueue src => rw [hcall hs]
  | enqueueSome src => rw [hcall hs]
  | produce => exact produce_elems hs hi
  | _ => exact congrFun (consumer_frame rfl hs).2.2 i

/-- The queue's header, and the slots that the next steps write and read, lie in the block that
`aqueue_advise` asks for, and no step changes another slot. -/
def State.Inside (elemSize : Nat) (s : State α) : Prop :=
  (ArrayInside sizeofAqueue elemSize s.queue.cap fun i => s.writes = some i ∨ s.reads = some i) ∧
    ∀ l s', step s l = some s' → ∀ i, s.writes ≠ some i → s'.queue.elems i = s.queue.elems i

section Runs

variable {zero : α} {tr : List (State α × Label α)}

theorem correct (hr : (machine zero cap).Run tr s) (ht : s.produced < sizeMax) : Correct s := by
  have h := run_inv hr ht
  refine ⟨h.split, window_length _, ?_, fun _ hw => h.not_mayRead ht hw, fun x hx => ?_⟩
  · rw [h.cap_eq]
    exact h.len_le
  · have hpeeked := h.peeked x hx
    rw [h.split, List.getElem?_append_right (Nat.le_refl _), Nat.sub_self] at hpeeked
    rw [List.head?_eq_getElem?]
    exact hpeeked

theorem exists_copying (zero : α) {src : List α} (hpos : 0 < src.length) (hcap : src.length ≤ cap)
    {k : Nat} (hk : k ≤ src.length) :
    ∃ tr s, (machine zero cap).Run tr s ∧ s.producer = .someCopy .ok src k ∧ s.queue.back = 0 ∧
      s.queue.cap = cap ∧ s.accepted = [] := by
  induction k with
  | zero =>
    let queue : Aqueue α := ⟨fun _ => zero, 0, 0, 0, cap⟩
    have hinit : aqueueInit zero cap = some queue := if_neg (by omega)
    have hr : (machine zero cap).Run [] (start queue) := .start ⟨_, hinit, rfl⟩
    have hcall : (machine zero cap).step (start queue) (.enqueueSome src) =
        some { start queue with producer := .someLoad src } := rfl
    have hload : (machine zero cap).step { start queue with producer := .someLoad src } .produce =
        some { start queue with producer := .someCopy .ok src 0 } := by
      have hcan : aqueueCap queue - aqueueLen queue = cap := rfl
      simp only [machine, step, produce, start, hcan, if_neg (show ¬ src.length = 0 by omega),
        if_neg (show ¬ cap = 0 by omega), if_pos hcap, List.take_length]
    exact ⟨_, _, (hr.next hcall).next hload, rfl, rfl, rfl, rfl⟩
  | succ k ih =>
    obtain ⟨tr, s, hr, hproducer, hback, hcap', hnone⟩ := ih (Nat.le_of_succ_le hk)
    have hget : src[k]? = some (src.get ⟨k, hk⟩) := List.getElem?_eq_getElem hk
    let slot := aqueueSlot s.queue s.queue.back src.length k
    let elems := Function.update s.queue.elems slot (src.get ⟨k, hk⟩)
    have hcopy : (machine zero cap).step s .produce =
        some { s with queue := { s.queue with elems }, producer := .someCopy .ok src (k + 1) } := by
      simp only [machine, step, produce, hproducer, hget]
      rfl
    exact ⟨_, _, hr.next hcopy, rfl, hback, hcap', hnone⟩

/-- What the consumer was given is a prefix of what the producer was told was accepted, the
queued elements are the rest, and no write touches a slot still to be read: this holds, and all
of it happens in the queue's block, exactly when the size of the block does not wrap. -/
theorem correct_iff (zero : α) (cap elemSize : Nat) :
    (∀ tr s, (machine zero cap).Run tr s → s.produced < sizeMax →
      Correct s ∧ s.Inside elemSize) ↔ sizeofAqueue + cap * elemSize < sizeMax := by
  constructor
  · intro hlaw
    by_contra hwrap
    obtain ⟨i, hi, hsmall, houtside⟩ :=
      exists_slot_outside (by decide) (by decide) (Nat.le_of_not_lt hwrap)
    have hlen : (List.replicate (i + 1) zero).length = i + 1 := List.length_replicate
    obtain ⟨tr, s, hr, hproducer, hback, hcap, hnone⟩ :=
      @exists_copying _ cap zero (List.replicate (i + 1) zero) (by omega) (by omega) i (by omega)
    have hproduced : s.produced < sizeMax := by
      simpa [State.produced, hproducer, hnone, Producer.pending] using hsmall
    have hwrites : s.writes = some i := by
      have hslot := slot_eq (j := i) hcap (show i + 1 ≤ cap by omega) (Nat.lt_succ_self i)
        (Cursor.refl cap 0)
      rw [Nat.zero_add, Nat.mod_eq_of_lt hi] at hslot
      simp only [State.writes, hproducer, hlen, hback, hslot, Nat.lt_succ_self, if_true]
    have hinside := (hlaw tr s hr hproduced).2.1.slots i (.inl hwrites)
    rw [hcap] at hinside
    exact houtside hinside
  · intro hsize tr s hr ht
    have h := run_inv hr ht
    refine ⟨correct hr ht, ?_⟩
    rw [State.Inside, h.cap_eq]
    exact ⟨arrayInside_of_lt hsize fun i hused => h.used_lt hused,
      fun l s' hs i hi => step_elems hs hi⟩

end Runs

def overlapping : List (Label Nat) :=
  [.enqueue 1, .produce, .produce, .produce, .produce, .dequeue, .consume, .consume,
    .enqueueSome [2, 3, 4], .produce, .produce, .consume, .produce, .produce, .produce,
    .consume, .produce, .front, .consume, .consume]

theorem correct_iff_overlapping :
    ∃ tr s, (machine 0 3).Run tr s ∧ s.delivered = [1] ∧ s.accepted = [1, 2, 3] ∧
      s.consumer.claimed = 0 ∧ Correct s ∧ s.Inside 8 := by
  obtain ⟨tr, s, hr, hs⟩ := (machine 0 3).exists_run_of_exec
    (start ⟨fun _ => 0, 0, 0, 0, 3⟩) overlapping
    (fun s => s.delivered = [1] ∧ s.accepted = [1, 2, 3] ∧ s.consumer.claimed = 0 ∧
      s.produced < sizeMax) ⟨_, rfl, rfl⟩ (by decide)
  simp only [decide_eq_true_eq] at hs
  exact ⟨tr, s, hr, hs.1, hs.2.1, hs.2.2.1, (correct_iff 0 3 8).mpr (by decide) tr s hr hs.2.2.2⟩

/-- A queue for `2 ^ 61` elements of 8 bytes gets a block for its header only, and the first
element is copied behind it. -/
theorem not_inside_wrapped :
    ¬ ∀ (cap elemSize : Nat) tr s, (machine 0 cap).Run tr s → s.produced < sizeMax →
      Correct s ∧ s.Inside elemSize := by
  intro hlaw
  obtain ⟨tr, s, hr, hs⟩ := (machine 0 (2 ^ 61)).exists_run_of_exec
    (start ⟨fun _ => 0, 0, 0, 0, 2 ^ 61⟩) [.enqueue 1, .produce]
    (fun s => s.writes = some 0 ∧ s.queue.cap = 2 ^ 61 ∧ s.produced < sizeMax)
    ⟨_, rfl, rfl⟩ (by decide)
  simp only [decide_eq_true_eq] at hs
  obtain ⟨hwrites, hcap, ht⟩ := hs
  have hinside := (hlaw (2 ^ 61) 8 tr s hr ht).2.1.slots 0 (.inl hwrites)
  rw [hcap] at hinside
  exact absurd hinside (by decide)

end Dert.Aqueue
