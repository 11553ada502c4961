import Dert.Queue.AqueueLaws
import Dert.Queue.MpscqueueLaws

universe u v

namespace Dert.Mpscqueue

open Library Library.Cyclic

variable {α : Type u} {Thread : Type v}

abbrev Trace (Thread : Type v) (α : Type u) := List (State Thread α × Label Thread α)

def State.queued (s : State Thread α) : List α :=
  window s.queue.elems s.queue.cap s.dequeued.length s.queue.len

variable [DecidableEq Thread]

def sources (t : Thread) : Trace Thread α → List α
  | [] => []
  | (_, .enqueue u src) :: tr => if u = t then sources t tr ++ [src] else sources t tr
  | _ :: tr => sources t tr

def returns (s : State Thread α) (tr : Trace Thread α) : Label Thread α → List (Thread × α)
  | .produce t =>
    match s.producer t with
    | .unlock => (sources t tr).getLast?.toList.map fun src => (t, src)
    | _ => []
  | _ => []

def succeeded : Trace Thread α → List (Thread × α)
  | [] => []
  | (s, l) :: tr => succeeded tr ++ returns s tr l

def own (t : Thread) (enqueued : List (Thread × α)) : List α :=
  (enqueued.filter fun p => p.1 = t).map Prod.snd

omit [DecidableEq Thread] in
/-- What a producer does to the queue under the mutex is what the producer of an `Aqueue`
does. -/
def Producer.image : Producer α → Aqueue.Producer α
  | .load src => .enqueueLoad src
  | .copy src => .enqueueCopy src
  | .back src => .enqueueBack src
  | .add src => .enqueueAdd src
  | _ => .returned .ok none

def Consumer.image : Consumer α → Aqueue.Consumer α
  | .returned _ => .returned .ok none
  | .peeked dest => .peeked dest
  | .frontLoad dequeue => .frontLoad dequeue
  | .directLoad dequeue => .frontLoad dequeue
  | .copy dequeue => .frontCopy dequeue
  | .front dest => .dequeueFront dest
  | .sub dest => .dequeueSub dest

def image (queue : Mpscqueue α) : Aqueue α :=
  ⟨queue.elems, queue.front, queue.back, queue.len, queue.cap⟩

def State.active (s : State Thread α) : Aqueue.Producer α :=
  match s.producerMutex with
  | some t => (s.producer t).image
  | none => .returned .ok none

/-- The queue as its consumer sees it: one producer at a time. -/
def State.image (s : State Thread α) : Aqueue.State α :=
  ⟨Mpscqueue.image s.queue, s.active, s.consumer.image, s.enqueued.map Prod.snd, s.dequeued⟩

/-- The queue under the mutex is an `Aqueue`, and both of its cursors are wrapped. -/
structure Ordered (cap : Nat) (s : State Thread α) : Prop where
  aqueue : Aqueue.Inv cap s.image
  holder : ∀ t, (s.producer t).Holding → s.producerMutex = some t
  front : s.queue.front < cap
  back : s.queue.back < cap

section Steps

variable {cap : Nat} {s s' : State Thread α} {t : Thread}

omit [DecidableEq Thread] in
theorem active_of_mutex (hm : s.producerMutex = some t) : s.active = (s.producer t).image := by
  rw [State.active, hm]

omit [DecidableEq Thread] in
theorem Ordered.producer (h : Ordered cap s) (hm : s.producerMutex = some t) {p : Producer α}
    (hpc : s.producer t = p) : Aqueue.ProducerInv cap (image s.queue)
      (s.enqueued.map Prod.snd).length p.image := by
  have hp := h.aqueue.producer
  rwa [State.image, active_of_mutex hm, hpc] at hp

theorem Ordered.move (h : Ordered cap s) (hm : s.producerMutex = some t) {p : Producer α}
    {queue : Mpscqueue α} {enqueued : List (Thread × α)}
    (ha : Aqueue.Inv cap ⟨image queue, p.image, s.consumer.image, enqueued.map Prod.snd, s.dequeued⟩)
    (hfront : queue.front < cap) (hback : queue.back < cap) :
    Ordered cap ({ s with queue, enqueued }.setProducer t p) where
  aqueue := by
    have hactive : ({ s with queue, enqueued }.setProducer t p).active = p.image := by
      simp [State.active, State.setProducer, hm]
    rw [State.image, hactive]
    exact ha
  holder u hu := by
    by_cases hne : u = t
    · rw [hne]
      exact hm
    · rw [setProducer_other _ _ hne] at hu
      exact h.holder u hu
  front := hfront
  back := hback

omit [DecidableEq Thread] in
theorem Ordered.taken (h : Ordered cap s) (hm : s.producerMutex = none) {src : α}
    (hpc : s.producer t = .lock src) : Ordered cap { s with producerMutex := some t } := by
  refine ⟨?_, fun u hu => ?_, h.front, h.back⟩
  · have himage : State.image { s with producerMutex := some t } = s.image := by
      simp [State.image, State.active, hm, hpc, Producer.image]
    rw [himage]
    exact h.aqueue
  · rw [h.holder u hu] at hm
    cases hm

omit [DecidableEq Thread] in
theorem Ordered.released (h : Ordered cap s) (hm : s.producerMutex = some t)
    (hout : ¬ (s.producer t).Holding) (hidle : (s.producer t).image = .returned .ok none) :
    Ordered cap { s with producerMutex := none } := by
  refine ⟨?_, fun u hu => ?_, h.front, h.back⟩
  · have himage : State.image { s with producerMutex := none } = s.image := by
      simp [State.image, State.active, hm, hidle]
    rw [himage]
    exact h.aqueue
  · have hut : u = t := Option.some.inj ((h.holder u hu).symm.trans hm)
    exact absurd (hut ▸ hu) hout

theorem Ordered.produce (h : Ordered cap s) (hcap : cap < sizeMax)
    (hs : produce s t = some s') : Ordered cap s' := by
  have hq : s.queue.cap = cap := h.aqueue.cap_eq
  have hpos := h.aqueue.cap_pos
  have hlen := h.aqueue.len_le
  unfold Mpscqueue.produce at hs
  cases hpc : s.producer t with
  | returned ret => simp [hpc] at hs
  | lock src =>
    cases hm : s.producerMutex with
    | some u => simp [hpc, hm] at hs
    | none =>
      simp only [hpc, hm, Option.some.injEq] at hs
      subst hs
      have htaken := h.taken hm hpc
      refine htaken.move rfl (htaken.aqueue.setProducer ⟨hlen, Nat.le_refl _, rfl, ?_⟩) h.front h.back
      exact (htaken.producer rfl hpc).back
  | load src =>
    have hm := h.holder t (by simp [hpc, Producer.Holding])
    have hp := h.producer hm hpc
    simp only [hpc] at hs
    split at hs
    · cases hs
      exact h.move hm (h.aqueue.setProducer ⟨hlen, Nat.le_refl _, rfl, hp.back⟩) h.front h.back
    · next hfull =>
      cases hs
      refine h.move hm (h.aqueue.setProducer ⟨?_, Nat.zero_le _, rfl, hp.back⟩) h.front h.back
      exact Nat.lt_of_le_of_ne hlen (fun heq => hfull (heq.trans hq.symm))
  | copy src =>
    have hm := h.holder t (by simp [hpc, Producer.Holding])
    have hp := h.producer hm hpc
    simp only [hpc, Option.some.injEq] at hs
    subst hs
    have hactive : s.active = .enqueueCopy src := by rw [active_of_mutex hm, hpc]; rfl
    have hslot := hp.back.slot
    have hcopy := h.aqueue.copy (p := .enqueueBack src) (x := src)
      (i := mpscqueueWrap s.queue s.queue.back)
      (by rw [State.image, hactive]; rfl) (by rw [State.image, hactive]; rfl)
      (by rw [State.image, hactive]; rfl) (by rw [State.image, hactive]; rfl)
      (by rw [mpscqueueWrap, State.image, hactive, hq]; exact hslot)
    exact h.move hm hcopy h.front h.back
  | back src =>
    have hm := h.holder t (by simp [hpc, Producer.Holding])
    have hp := h.producer hm hpc
    simp only [hpc, Option.some.injEq] at hs
    subst hs
    have hnext : sizeT (s.queue.back + 1) = s.queue.back + 1 :=
      sizeT_of_lt (Nat.lt_of_le_of_lt h.back hcap)
    refine h.move hm (h.aqueue.setProducer ⟨hp.room, Nat.le_refl _, hp.content, ?_⟩) h.front ?_
    · rw [hnext, mpscqueueWrap, hq]
      exact (hp.back.advance 1).wrap
    · exact hq ▸ Nat.mod_lt _ (hq ▸ hpos)
  | add src =>
    have hm := h.holder t (by simp [hpc, Producer.Holding])
    have hp := h.producer hm hpc
    simp only [hpc, Option.some.injEq] at hs
    subst hs
    have hactive : s.active = .enqueueAdd src := by rw [active_of_mutex hm, hpc]; rfl
    have hroom : s.queue.len + 1 ≤ cap := hp.room
    have hadd : Aqueue.Inv cap { s.image with
        queue := { s.image.queue with len := sizeT (s.queue.len + 1) }
        producer := .returned .ok none
        accepted := s.image.accepted ++ s.image.producer.pending } :=
      h.aqueue.add (by rw [State.image, hactive]; rfl) (by rw [State.image, hactive]; rfl)
        (by rw [State.image, hactive]; exact sizeT_of_lt (Nat.lt_of_le_of_lt hroom hcap))
    refine h.move hm ?_ h.front h.back
    have hlog : s.image.accepted ++ s.image.producer.pending =
        (s.enqueued ++ [(t, src)]).map Prod.snd := by
      rw [State.image, hactive]
      simp [Aqueue.Producer.pending]
    rw [hlog] at hadd
    exact hadd
  | unlock =>
    have hm := h.holder t (by simp [hpc, Producer.Holding])
    have hp := h.producer hm hpc
    simp only [hpc, Option.some.injEq] at hs
    subst hs
    have hdone : Ordered cap (s.setProducer t (.returned 0)) :=
      h.move hm (h.aqueue.setProducer ⟨hlen, Nat.le_refl _, rfl, hp.back⟩) h.front h.back
    exact hdone.released hm (by simp [Producer.Holding]) (by simp [Producer.image])

omit [DecidableEq Thread] in
theorem Ordered.consumer (h : Ordered cap s) {c : Consumer α} (hpc : s.consumer = c) :
    Aqueue.ConsumerInv cap (image s.queue) s.dequeued.length c.image := by
  have hc := h.aqueue.consumer
  rwa [State.image, hpc] at hc

omit [DecidableEq Thread] in
theorem Ordered.setConsumer (h : Ordered cap s) {c : Consumer α} {front : Nat}
    (hc : Aqueue.ConsumerInv cap { image s.queue with front } s.dequeued.length c.image)
    (hpeek : ∀ x, c.image = .peeked x → (s.enqueued.map Prod.snd)[s.dequeued.length]? = some x)
    (hfront : front < cap) :
    Ordered cap { s with queue := { s.queue with front }, consumer := c } :=
  ⟨h.aqueue.setConsumer hc hpeek, h.holder, hfront, h.back⟩

omit [DecidableEq Thread] in
theorem Ordered.subtract (h : Ordered cap s) {dest : α} (hpc : s.consumer = .sub dest) {len : Nat}
    (ret : Nat) (hless : len + 1 = s.queue.len) :
    Ordered cap { s with
      queue := { s.queue with len }
      consumer := .returned ret
      dequeued := s.dequeued ++ [dest] } := by
  have himage : s.image.consumer = .dequeueSub dest := by rw [State.image, hpc]; rfl
  have hsub : Aqueue.Inv cap { s.image with
      queue := { s.image.queue with len }
      consumer := .returned .ok none
      delivered := s.image.delivered ++ s.image.consumer.dest } :=
    h.aqueue.sub (by rw [himage]; rfl) (by rw [himage]; exact hless)
  rw [himage] at hsub
  exact ⟨hsub, h.holder, h.front, h.back⟩

omit [DecidableEq Thread] in
theorem Ordered.consume (h : Ordered cap s) (hcap : cap < sizeMax)
    (hs : consume s = some s') : Ordered cap s' := by
  have hq : s.queue.cap = cap := h.aqueue.cap_eq
  have hpos := h.aqueue.cap_pos
  have hlen : s.queue.len ≤ cap := h.aqueue.len_le
  unfold Mpscqueue.consume at hs
  cases hpc : s.consumer with
  | returned ret => simp [hpc] at hs
  | peeked dest => simp [hpc] at hs
  | frontLoad dequeue =>
    have hfront := (h.consumer hpc).front
    simp only [hpc] at hs
    split at hs
    · cases hs
      exact h.setConsumer ⟨Nat.zero_le _, Nat.le_refl _, rfl, hfront⟩ nofun h.front
    · cases hs
      exact h.setConsumer ⟨Nat.zero_le _, Nat.le_refl _, rfl, hfront⟩ nofun h.front
  | directLoad dequeue =>
    have hfront := (h.consumer hpc).front
    simp only [hpc] at hs
    split at hs
    · cases hs
      exact h.setConsumer ⟨Nat.zero_le _, Nat.le_refl _, rfl, hfront⟩ nofun h.front
    · next hne =>
      cases hs
      have hone := Nat.pos_of_ne_zero hne
      exact h.setConsumer ⟨hone, Nat.zero_le _, rfl, hfront⟩ nofun h.front
  | copy dequeue =>
    obtain ⟨hclaimed, -, -, hfront⟩ := h.consumer hpc
    have hhead := h.aqueue.head_eq hclaimed hfront
    simp only [hpc, Option.some.injEq] at hs
    subst hs
    have hslot : mpscqueueWrap s.queue s.queue.front = s.queue.front % cap := by
      rw [mpscqueueWrap, hq]
    cases dequeue with
    | false =>
      refine h.setConsumer ⟨Nat.zero_le _, Nat.le_refl _, rfl, hfront⟩ (fun x hx => ?_) h.front
      cases hx
      rw [hslot]
      exact hhead
    | true =>
      refine h.setConsumer ⟨hclaimed, Nat.le_refl _, ?_, hfront⟩ nofun h.front
      rw [hslot]
      exact congrArg (fun i => [s.queue.elems i]) hfront.slot.symm
  | front dest =>
    obtain ⟨hclaimed, hdest, hcontent, hfront⟩ := h.consumer hpc
    simp only [hpc, Option.some.injEq] at hs
    subst hs
    have hnext : sizeT (s.queue.front + 1) = s.queue.front + 1 :=
      sizeT_of_lt (Nat.lt_of_le_of_lt h.front hcap)
    refine h.setConsumer ⟨hclaimed, hdest, hcontent, ?_⟩ nofun ?_
    · rw [hnext, mpscqueueWrap, hq]
      exact (hfront.advance 1).wrap
    · exact hq ▸ Nat.mod_lt _ (hq ▸ hpos)
  | sub dest =>
    have hclaimed : 1 ≤ s.queue.len := (h.consumer hpc).claimed_le
    simp only [hpc, Option.some.injEq] at hs
    subst hs
    refine h.subtract hpc 0 ?_
    rw [sizeT_sub hclaimed (by omega)]
    omega

theorem Ordered.enqueue (h : Ordered cap s) {ret : Nat} (hpc : s.producer t = .returned ret)
    (src : α) : Ordered cap (s.setProducer t (.lock src)) := by
  refine ⟨?_, fun u hu => ?_, h.front, h.back⟩
  · have himage : (s.setProducer t (.lock src)).image = s.image := by
      have hactive : (s.setProducer t (.lock src)).active = s.active := by
        cases hm : s.producerMutex with
        | none => simp [State.active, hm]
        | some u =>
          by_cases hu : u = t
          · simp [State.active, hm, hu, hpc, Producer.image]
          · simp [State.active, hm, setProducer_other _ _ hu]
      rw [State.image, hactive]
      rfl
    rw [himage]
    exact h.aqueue
  · by_cases hne : u = t
    · rw [hne, setProducer_self] at hu
      exact absurd hu (by simp [Producer.Holding])
    · rw [setProducer_other _ _ hne] at hu
      exact h.holder u hu

omit [DecidableEq Thread] in
theorem Ordered.call (h : Ordered cap s) {dequeue : Bool}
    (hs : s.callConsumer (.frontLoad dequeue) = some s') : Ordered cap s' := by
  unfold State.callConsumer at hs
  split at hs
  next hpc =>
    cases hs
    exact h.setConsumer ⟨Nat.zero_le _, Nat.le_refl _, rfl, (h.consumer hpc).front⟩ nofun h.front
  next hpc =>
    cases hs
    exact h.setConsumer ⟨Nat.zero_le _, Nat.le_refl _, rfl, (h.consumer hpc).front⟩ nofun h.front
  next => cases hs

theorem Ordered.step {l : Label Thread α} (h : Ordered cap s) (hcap : cap < sizeMax)
    (hs : step s l = some s') : Ordered cap s' := by
  cases l with
  | enqueue t src =>
    cases hpc : s.producer t with
    | returned ret =>
      simp only [Mpscqueue.step, hpc, Option.some.injEq] at hs
      subst hs
      exact h.enqueue hpc src
    | _ => simp [Mpscqueue.step, hpc] at hs
  | produce t => exact h.produce hcap hs
  | front => exact h.call hs
  | dequeue => exact h.call hs
  | consume => exact h.consume hcap hs

omit [DecidableEq Thread] in
theorem ordered_start {zero : α} {queue : Mpscqueue α}
    (h : mpscqueueInit zero cap = some queue) : Ordered cap (start queue : State Thread α) := by
  unfold mpscqueueInit at h
  split at h
  next => cases h
  next hcap =>
    cases h
    have hinit : aqueueInit zero cap = some ⟨fun _ => zero, 0, 0, 0, cap⟩ := by
      rw [aqueueInit, if_neg hcap]
    exact ⟨Aqueue.inv_start hinit, fun t => nofun, Nat.pos_of_ne_zero hcap, Nat.pos_of_ne_zero hcap⟩

theorem ordered_run {zero : α} (hcap : cap < sizeMax) {tr : Trace Thread α}
    (hr : (machine Thread zero cap).Run tr s) : Ordered cap s := by
  refine hr.always ?_ fun s l s' h hs => h.step hcap hs
  rintro s ⟨queue, hqueue, rfl⟩
  exact ordered_start hqueue

omit [DecidableEq Thread] in
/-- The slot that a producer writes is not the one that the consumer reads. -/
theorem Ordered.apart (h : Ordered cap s) {src : α} {dequeue : Bool}
    (hp : s.producer t = .copy src) (hc : s.consumer = .copy dequeue) :
    mpscqueueWrap s.queue s.queue.back ≠ mpscqueueWrap s.queue s.queue.front := by
  have hq : s.queue.cap = cap := h.aqueue.cap_eq
  have hproducer := h.producer (h.holder t (by simp [hp, Producer.Holding])) hp
  have hconsumer := h.consumer hc
  have hne := h.aqueue.behind_ne (c := 0) (j := 0) hproducer.room hconsumer.claimed_le
  rw [mpscqueueWrap, mpscqueueWrap, hq]
  intro heq
  exact hne (hconsumer.front.slot.symm.trans (heq.symm.trans hproducer.back.slot))

end Steps

section Calls

variable {cap : Nat} {s s' : State Thread α} {t u : Thread} {tr : Trace Thread α}

def Producer.pending : Producer α → Option α
  | .lock src => some src
  | .load src => some src
  | .copy src => some src
  | .back src => some src
  | .add src => some src
  | _ => none

theorem own_append (t : Thread) (enqueued enqueued' : List (Thread × α)) :
    own t (enqueued ++ enqueued') = own t enqueued ++ own t enqueued' := by
  simp [own]

/-- The producers add what their calls were given, in the order of their calls, and all but at
most one of the calls that have added something have returned. -/
structure Logged (tr : Trace Thread α) (s : State Thread α) : Prop where
  source : ∀ t src, (s.producer t).pending = some src → (sources t tr).getLast? = some src
  order : ∀ t, (own t s.enqueued ++ (s.producer t).pending.toList).Sublist (sources t tr)
  log : (∀ t, s.producer t ≠ .unlock) ∧ s.enqueued = succeeded tr ∨
    ∃ t src, s.producer t = .unlock ∧ (sources t tr).getLast? = some src ∧
      s.enqueued = succeeded tr ++ [(t, src)]

theorem forall_producer {P : Thread → Producer α → Prop} {p : Producer α}
    (hproducer : s'.producer = Function.update s.producer t p) (ht : P t p)
    (ho : ∀ u, u ≠ t → P u (s.producer u)) (u : Thread) : P u (s'.producer u) := by
  rw [hproducer]
  by_cases hu : u = t
  · subst hu
    rw [Function.update_self]
    exact ht
  · rw [Function.update_of_ne hu]
    exact ho u hu

theorem Logged.enqueue (h : Logged tr s) {ret : Nat} (hpc : s.producer t = .returned ret)
    (src : α) : Logged ((s, .enqueue t src) :: tr) (s.setProducer t (.lock src)) := by
  have hself : sources t ((s, .enqueue t src) :: tr) = sources t tr ++ [src] := if_pos rfl
  have hother {u : Thread} (hu : u ≠ t) : sources u ((s, .enqueue t src) :: tr) = sources u tr :=
    if_neg hu.symm
  have hnone : succeeded ((s, .enqueue t src) :: tr) = succeeded tr := List.append_nil _
  constructor
  · refine forall_producer (s := s) (p := .lock src) (P := fun u p => ∀ src',
      p.pending = some src' → (sources u ((s, .enqueue t src) :: tr)).getLast? = some src') rfl ?_
      fun u hu => ?_
    · rintro src' hsrc
      cases hsrc
      simp [hself]
    · rw [hother hu]
      exact h.source u
  · refine forall_producer (s := s) (p := .lock src) (P := fun u p =>
      (own u s.enqueued ++ p.pending.toList).Sublist (sources u ((s, .enqueue t src) :: tr))) rfl ?_
      fun u hu => ?_
    · have horder := h.order t
      rw [hpc] at horder
      rw [hself]
      exact List.Sublist.append (by simpa [Producer.pending] using horder) (List.Sublist.refl _)
    · rw [hother hu]
      exact h.order u
  · rw [hnone]
    rcases h.log with ⟨hno, hlog⟩ | ⟨u, src', hu, hsource, hlog⟩
    · exact .inl ⟨forall_producer (s := s) (p := .lock src) (P := fun _ p => p ≠ .unlock) rfl nofun
        fun u _ => hno u, hlog⟩
    · have hne : u ≠ t := by
        rintro rfl
        simp [hpc] at hu
      refine .inr ⟨u, src', ?_, ?_, hlog⟩
      · rw [setProducer_other _ _ hne, hu]
      · rw [hother hne, hsource]

theorem Logged.move (h : Logged tr s) {p : Producer α} (hpc : s.producer t ≠ .unlock)
    (hp : p ≠ .unlock) (hpending : p.pending = (s.producer t).pending ∨ p.pending = none)
    (hproducer : s'.producer = Function.update s.producer t p)
    (henqueued : s'.enqueued = s.enqueued) : Logged ((s, .produce t) :: tr) s' := by
  have hnone : succeeded ((s, .produce t) :: tr) = succeeded tr := by
    cases hcase : s.producer t <;> simp_all [succeeded, returns]
  constructor
  · refine forall_producer (P := fun u p => ∀ src', p.pending = some src' →
      (sources u tr).getLast? = some src') hproducer (fun src' hsrc => ?_) fun u _ => h.source u
    rcases hpending with hsame | hnil
    · exact h.source t src' (hsame ▸ hsrc)
    · rw [hnil] at hsrc
      cases hsrc
  · rw [henqueued]
    refine forall_producer (P := fun u p => (own u s.enqueued ++ p.pending.toList).Sublist
      (sources u tr)) hproducer ?_ fun u _ => h.order u
    rcases hpending with hsame | hnil
    · rw [hsame]
      exact h.order t
    · rw [hnil]
      exact (List.Sublist.append (List.Sublist.refl _) (List.nil_sublist _)).trans (h.order t)
  · rw [hnone, henqueued]
    rcases h.log with ⟨hno, hlog⟩ | ⟨u, src', hu, hsource, hlog⟩
    · exact .inl ⟨forall_producer (P := fun _ p => p ≠ .unlock) hproducer hp fun u _ => hno u, hlog⟩
    · have hne : u ≠ t := by
        rintro rfl
        exact hpc hu
      refine .inr ⟨u, src', ?_, hsource, hlog⟩
      rw [hproducer, Function.update_of_ne hne, hu]

theorem Logged.produce (h : Logged tr s) (ho : Ordered cap s) (hs : produce s t = some s') :
    Logged ((s, .produce t) :: tr) s' := by
  have halone {u : Thread} (hu : s.producer u = .unlock) (ht : (s.producer t).Holding) : u = t := by
    have hheld := ho.holder u (by simp [hu, Producer.Holding])
    exact Option.some.inj (hheld.symm.trans (ho.holder t ht))
  unfold Mpscqueue.produce at hs
  cases hpc : s.producer t with
  | returned ret => simp [hpc] at hs
  | lock src =>
    cases hm : s.producerMutex with
    | some u => simp [hpc, hm] at hs
    | none =>
      simp only [hpc, hm, Option.some.injEq] at hs
      subst hs
      exact h.move (by simp [hpc]) (by simp) (.inl (by simp [hpc, Producer.pending])) rfl rfl
  | load src =>
    simp only [hpc] at hs
    split at hs
    · cases hs
      exact h.move (by simp [hpc]) (by simp) (.inr rfl) rfl rfl
    · cases hs
      exact h.move (by simp [hpc]) (by simp) (.inl (by simp [hpc, Producer.pending])) rfl rfl
  | copy src =>
    simp only [hpc, Option.some.injEq] at hs
    subst hs
    exact h.move (by simp [hpc]) (by simp) (.inl (by simp [hpc, Producer.pending])) rfl rfl
  | back src =>
    simp only [hpc, Option.some.injEq] at hs
    subst hs
    exact h.move (by simp [hpc]) (by simp) (.inl (by simp [hpc, Producer.pending])) rfl rfl
  | add src =>
    simp only [hpc, Option.some.injEq] at hs
    subst hs
    have hin : (s.producer t).Holding := by simp [hpc, Producer.Holding]
    have hsource := h.source t src (by simp [hpc, Producer.pending])
    have hlog : s.enqueued = succeeded tr := by
      rcases h.log with ⟨-, hlog⟩ | ⟨u, src', hu, -⟩
      · exact hlog
      · rw [halone hu hin, hpc] at hu
        cases hu
    have hnone : succeeded ((s, .produce t) :: tr) = succeeded tr := by
      simp [succeeded, returns, hpc]
    constructor
    · exact forall_producer (s := s) (p := .unlock) (P := fun u p => ∀ src', p.pending = some src' →
        (sources u tr).getLast? = some src') rfl (by simp [Producer.pending]) fun u _ => h.source u
    · refine forall_producer (s := s) (p := .unlock) (P := fun u p =>
        (own u (s.enqueued ++ [(t, src)]) ++ p.pending.toList).Sublist (sources u tr)) rfl ?_
        fun u hu => ?_
      · have horder := h.order t
        rw [hpc] at horder
        simpa [own, Producer.pending] using horder
      · have horder := h.order u
        rw [own_append]
        simpa [own, Ne.symm hu] using horder
    · refine .inr ⟨t, src, setProducer_self .., hsource, ?_⟩
      rw [hnone, ← hlog]
      rfl
  | unlock =>
    simp only [hpc, Option.some.injEq] at hs
    subst hs
    have hin : (s.producer t).Holding := by simp [hpc, Producer.Holding]
    constructor
    · exact forall_producer (s := s) (p := .returned 0) (P := fun u p => ∀ src',
        p.pending = some src' → (sources u tr).getLast? = some src') rfl
        (by simp [Producer.pending]) fun u _ => h.source u
    · refine forall_producer (s := s) (p := .returned 0) (P := fun u p =>
        (own u s.enqueued ++ p.pending.toList).Sublist (sources u tr)) rfl ?_ fun u _ => h.order u
      have horder := h.order t
      rwa [hpc] at horder
    · rcases h.log with ⟨hno, -⟩ | ⟨u, src, hu, hsource, hlog⟩
      · exact absurd hpc (hno t)
      · have hut := halone hu hin
        subst hut
        refine .inl ⟨forall_producer (s := s) (p := .returned 0) (P := fun _ p => p ≠ .unlock) rfl
          (by simp) fun w hw hunlock => hw (halone hunlock hin), ?_⟩
        change s.enqueued = _
        rw [hlog]
        simp [succeeded, returns, hpc, hsource]

theorem Logged.keep {l : Label Thread α} (h : Logged tr s)
    (hsources : ∀ t, sources t ((s, l) :: tr) = sources t tr) (hreturns : returns s tr l = [])
    (hproducer : s'.producer = s.producer) (henqueued : s'.enqueued = s.enqueued) :
    Logged ((s, l) :: tr) s' := by
  have hnone : succeeded ((s, l) :: tr) = succeeded tr := by
    rw [succeeded, hreturns, List.append_nil]
  constructor
  · simp only [hsources, hproducer]
    exact h.source
  · simp only [hsources, hproducer, henqueued]
    exact h.order
  · simp only [hsources, hproducer, henqueued, hnone]
    exact h.log

end Calls

section Runs

variable {cap : Nat} {s s' : State Thread α} {tr : Trace Thread α}

omit [DecidableEq Thread] in
theorem consume_enqueued (hs : consume s = some s') : s'.enqueued = s.enqueued := by
  unfold consume at hs
  dsimp only at hs
  split at hs
  case h_3 => split at hs <;> cases hs <;> rfl
  case h_4 => split at hs <;> cases hs <;> rfl
  all_goals cases hs <;> rfl

omit [DecidableEq Thread] in
theorem callConsumer_enqueued {c : Consumer α} (hs : s.callConsumer c = some s') :
    s'.enqueued = s.enqueued := by
  unfold State.callConsumer at hs
  split at hs <;> cases hs <;> rfl

theorem logged_run {zero : α} (hcap : cap < sizeMax) (hr : (machine Thread zero cap).Run tr s) :
    Logged tr s := by
  induction hr with
  | start hi =>
    obtain ⟨queue, -, rfl⟩ := hi
    exact ⟨nofun, fun t => List.nil_sublist _, .inl ⟨nofun, rfl⟩⟩
  | @next tr s l s' hr hs h =>
    cases l with
    | enqueue t src =>
      cases hpc : s.producer t with
      | returned ret =>
        change step s (.enqueue t src) = some s' at hs
        simp only [step, hpc, Option.some.injEq] at hs
        subst hs
        exact h.enqueue hpc src
      | _ =>
        change step s (.enqueue t src) = some s' at hs
        simp [step, hpc] at hs
    | produce t => exact h.produce (ordered_run hcap hr) hs
    | front =>
      exact h.keep (fun _ => rfl) rfl (callConsumer_frame hs).2 (callConsumer_enqueued hs)
    | dequeue =>
      exact h.keep (fun _ => rfl) rfl (callConsumer_frame hs).2 (callConsumer_enqueued hs)
    | consume => exact h.keep (fun _ => rfl) rfl (consume_frame hs).2 (consume_enqueued hs)

/-- What was dequeued, and then what is queued, is what was enqueued in the order of the mutex:
by the calls that have returned zero, and at most one that is about to.  Each producer's
elements come in the order of its calls, and no slot is written while it is read. -/
theorem order_run {zero : α} (hcap : cap < sizeMax) (hr : (machine Thread zero cap).Run tr s) :
    s.enqueued.map Prod.snd = s.dequeued ++ s.queued ∧
    (s.enqueued = succeeded tr ∨
      ∃ t src, s.producer t = .unlock ∧ s.enqueued = succeeded tr ++ [(t, src)]) ∧
    (∀ t, (own t s.enqueued).Sublist (sources t tr)) ∧
    s.queue.len ≤ cap ∧
    (∀ dest, s.consumer = .peeked dest →
      (s.enqueued.map Prod.snd)[s.dequeued.length]? = some dest) ∧
    ∀ t src dequeue, s.producer t = .copy src → s.consumer = .copy dequeue →
      mpscqueueWrap s.queue s.queue.back ≠ mpscqueueWrap s.queue s.queue.front := by
  have h := ordered_run hcap hr
  have hl := logged_run hcap hr
  refine ⟨h.aqueue.split, ?_, fun t => ?_, h.aqueue.len_le, fun dest hpc => ?_,
    fun t src dequeue hp hc => h.apart hp hc⟩
  · rcases hl.log with ⟨-, hlog⟩ | ⟨t, src, hpc, -, hlog⟩
    · exact .inl hlog
    · exact .inr ⟨t, src, hpc, hlog⟩
  · exact (List.sublist_append_left _ _).trans (hl.order t)
  · exact h.aqueue.peeked dest (by rw [State.image, hpc]; rfl)

end Runs

theorem order_run_takingTurns :
    ∃ tr s, (machine Nat 0 1).Run tr s ∧ s.dequeued = [7] ∧
      s.enqueued.map Prod.snd = s.dequeued ++ s.queued := by
  obtain ⟨tr, s, hr, hs⟩ := (machine Nat 0 1).exists_run_of_exec
    (start ⟨fun _ => 0, 0, 0, 0, 1⟩) takingTurns (fun s => s.dequeued = [7]) ⟨_, rfl, rfl⟩ (by decide)
  simp only [decide_eq_true_eq] at hs
  exact ⟨tr, s, hr, hs, (order_run (by decide) hr).1⟩

/-- The consumer can take an element whose producer has yet to unlock the mutex and return. -/
theorem not_dequeued_prefix_succeeded :
    ¬ ∀ (cap : Nat) (tr : Trace Nat Nat) (s : State Nat Nat), cap < sizeMax →
      (machine Nat 0 cap).Run tr s → s.dequeued <+: (succeeded tr).map Prod.snd := by
  obtain ⟨tr, s, hr, hs⟩ := (machine Nat 0 1).exists_run_of_record
    (start ⟨fun _ => 0, 0, 0, 0, 1⟩)
    [.enqueue 0 7, .produce 0, .produce 0, .produce 0, .produce 0, .produce 0, .dequeue, .consume,
      .consume, .consume, .consume, .consume]
    (fun tr s => s.dequeued = [7] ∧ succeeded tr = []) ⟨_, rfl, rfl⟩ (by decide)
  simp only [decide_eq_true_eq] at hs
  obtain ⟨hdequeued, hnone⟩ := hs
  intro hlaw
  have hprefix := hlaw 1 tr s (by decide) hr
  rw [hdequeued, hnone] at hprefix
  cases hprefix.eq_of_length_le (by decide)

end Dert.Mpscqueue
