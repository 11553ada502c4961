import Dert.Queue.Mpscqueue

universe u v

namespace Dert.Mpscqueue

open Library

variable {α : Type u} {Thread : Type v} [DecidableEq Thread] {s s' : State Thread α} {t : Thread}

def Producer.Holding : Producer α → Prop
  | .load _ => True
  | .copy _ => True
  | .back _ => True
  | .add _ => True
  | .unlock => True
  | _ => False

@[simp] theorem setProducer_self (s : State Thread α) (t : Thread) (p : Producer α) :
    (s.setProducer t p).producer t = p := Function.update_self ..

theorem setProducer_other (s : State Thread α) (p : Producer α) {u : Thread} (h : u ≠ t) :
    (s.setProducer t p).producer u = s.producer u := Function.update_of_ne h ..

@[simp] theorem setProducer_mutex (s : State Thread α) (t : Thread) (p : Producer α) :
    (s.setProducer t p).producerMutex = s.producerMutex := rfl

@[simp] theorem setProducer_queue (s : State Thread α) (t : Thread) (p : Producer α) :
    (s.setProducer t p).queue = s.queue := rfl

def HolderInside (s : State Thread α) : Prop :=
  ∀ t, s.producerMutex = some t ↔ (s.producer t).Holding

omit [DecidableEq Thread] in
theorem HolderInside.lockDiscipline (h : HolderInside s) : LockDiscipline s := by
  intro t ret hpc hheld
  have hin := (h t).mp hheld
  rw [hpc] at hin
  exact hin

omit [DecidableEq Thread] in
theorem holderInside_start (queue : Mpscqueue α) :
    HolderInside (start queue : State Thread α) := by
  intro t
  simp [start, Producer.Holding]

theorem HolderInside.move (h : HolderInside s) {p : Producer α}
    (hp : p.Holding ↔ (s.producer t).Holding) (hmutex : s'.producerMutex = s.producerMutex)
    (hproducer : s'.producer = Function.update s.producer t p) : HolderInside s' := by
  intro u
  rw [hmutex, hproducer]
  by_cases hu : u = t
  · subst hu
    rw [Function.update_self, hp]
    exact h u
  · rw [Function.update_of_ne hu]
    exact h u

theorem holderInside_produce (h : HolderInside s) (hroom : ¬ FindsFull s (.produce t))
    (hs : produce s t = some s') : HolderInside s' := by
  unfold produce at hs
  cases hpc : s.producer t with
  | returned ret => simp [hpc] at hs
  | lock src =>
    cases hm : s.producerMutex with
    | some u => simp [hpc, hm] at hs
    | none =>
      simp only [hpc, hm, Option.some.injEq] at hs
      subst hs
      intro u
      by_cases hu : u = t
      · subst hu
        simp [Producer.Holding]
      · have hout : ¬ (s.producer u).Holding := by
          rw [← h u, hm]
          simp
        rw [setProducer_other _ _ hu]
        simp [hout, Ne.symm hu]
  | load src =>
    have hne : s.queue.len ≠ s.queue.cap := fun hfull => hroom ⟨t, src, rfl, hpc, hfull⟩
    simp only [hpc, hne, ite_false, Option.some.injEq] at hs
    subst hs
    exact h.move (by simp [hpc, Producer.Holding]) rfl rfl
  | copy src =>
    simp only [hpc, Option.some.injEq] at hs
    subst hs
    exact h.move (by simp [hpc, Producer.Holding]) rfl rfl
  | back src =>
    simp only [hpc, Option.some.injEq] at hs
    subst hs
    exact h.move (by simp [hpc, Producer.Holding]) rfl rfl
  | add src =>
    simp only [hpc, Option.some.injEq] at hs
    subst hs
    exact h.move (by simp [hpc, Producer.Holding]) rfl rfl
  | unlock =>
    simp only [hpc, Option.some.injEq] at hs
    subst hs
    have hheld : s.producerMutex = some t := (h t).mpr (by simp [hpc, Producer.Holding])
    intro u
    by_cases hu : u = t
    · subst hu
      simp [Producer.Holding]
    · rw [setProducer_other _ _ hu]
      have hout : ¬ (s.producer u).Holding := by
        rw [← h u, hheld, Option.some.injEq]
        exact Ne.symm hu
      simpa using hout

omit [DecidableEq Thread] in
theorem consume_frame (hs : consume s = some s') :
    s'.producerMutex = s.producerMutex ∧ s'.producer = s.producer := by
  unfold consume at hs
  dsimp only at hs
  split at hs
  case h_3 => split at hs <;> cases hs <;> exact ⟨rfl, rfl⟩
  case h_4 => split at hs <;> cases hs <;> exact ⟨rfl, rfl⟩
  all_goals cases hs <;> exact ⟨rfl, rfl⟩

omit [DecidableEq Thread] in
theorem callConsumer_frame {c : Consumer α} (hs : s.callConsumer c = some s') :
    s'.producerMutex = s.producerMutex ∧ s'.producer = s.producer := by
  unfold State.callConsumer at hs
  split at hs <;> cases hs <;> exact ⟨rfl, rfl⟩

theorem holderInside_step {l : Label Thread α} (h : HolderInside s) (hroom : ¬ FindsFull s l)
    (hs : step s l = some s') : HolderInside s' := by
  have hkeep (hframe : s'.producerMutex = s.producerMutex ∧ s'.producer = s.producer) :
      HolderInside s' := by
    intro t
    rw [hframe.1, hframe.2]
    exact h t
  cases l with
  | enqueue t src =>
    cases hpc : s.producer t with
    | returned ret =>
      simp only [step, hpc, Option.some.injEq] at hs
      subst hs
      exact h.move (by simp [hpc, Producer.Holding]) rfl rfl
    | _ => simp [step, hpc] at hs
  | produce t => exact holderInside_produce h hroom hs
  | front => exact hkeep (callConsumer_frame hs)
  | dequeue => exact hkeep (callConsumer_frame hs)
  | consume => exact hkeep (consume_frame hs)

/-- A producer that finds the queue full returns and keeps the mutex. -/
theorem not_lockDiscipline_of_findsFull {l : Label Thread α} (h : HolderInside s)
    (hfull : FindsFull s l) (hs : step s l = some s') : ¬ LockDiscipline s' := by
  obtain ⟨t, src, rfl, hpc, hlen⟩ := hfull
  have hheld : s.producerMutex = some t := (h t).mpr (by simp [hpc, Producer.Holding])
  simp only [step, produce, hpc, hlen, ite_true, Option.some.injEq] at hs
  subst hs
  exact fun hd => hd t 3 (by simp) hheld

section FailedUnchanged

def Producer.Clean : Producer α → Prop
  | .lock _ => True
  | .load _ => True
  | .returned ret => ret ≠ 0
  | _ => False

theorem lastCall_cons {tr : List (State Thread α × Label Thread α)} {l : Label Thread α} :
    lastCall t ((s, l) :: tr) =
      if l.startsCall t then [] else if l.ofProducer t then (s, l) :: lastCall t tr
      else lastCall t tr := by
  unfold lastCall
  cases hstart : l.startsCall t <;> cases hof : l.ofProducer t <;>
    simp [hstart, hof]

theorem clean_produce (hs : produce s t = some s') (hclean : (s'.producer t).Clean) :
    (s.producer t).Clean ∧ s'.queue = s.queue := by
  unfold produce at hs
  cases hpc : s.producer t with
  | returned ret => simp [hpc] at hs
  | lock src =>
    cases hm : s.producerMutex with
    | some u => simp [hpc, hm] at hs
    | none =>
      simp only [hpc, hm, Option.some.injEq] at hs
      subst hs
      exact ⟨trivial, rfl⟩
  | load src =>
    refine ⟨trivial, ?_⟩
    simp only [hpc] at hs
    split at hs <;> cases hs <;> rfl
  | _ =>
    simp only [hpc, Option.some.injEq] at hs
    subst hs
    simp [Producer.Clean] at hclean

theorem produce_other {u : Thread} (hu : u ≠ t) (hs : produce s t = some s') :
    s'.producer u = s.producer u := by
  unfold produce at hs
  cases hpc : s.producer t with
  | returned ret => simp [hpc] at hs
  | lock src =>
    cases hm : s.producerMutex with
    | some w => simp [hpc, hm] at hs
    | none =>
      simp only [hpc, hm, Option.some.injEq] at hs
      subst hs
      exact setProducer_other _ _ hu
  | load src =>
    simp only [hpc] at hs
    split at hs <;> cases hs <;> exact setProducer_other _ _ hu
  | _ =>
    simp only [hpc, Option.some.injEq] at hs
    subst hs
    exact setProducer_other _ _ hu

theorem clean_unchanged {zero : α} {cap : Nat} {tr : List (State Thread α × Label Thread α)}
    (hr : (machine Thread zero cap).Run tr s) (t : Thread) (hclean : (s.producer t).Clean) :
    ∀ p ∈ lastCall t tr, ∀ s', step p.1 p.2 = some s' → s'.queue = p.1.queue := by
  induction hr with
  | start hinit =>
    intro p hp
    cases hp
  | @next tr s l s' hr hs ih =>
    rw [lastCall_cons]
    cases l with
    | enqueue u src =>
      by_cases hu : u = t
      · simp [Label.startsCall, hu]
      · have hsame : s'.producer t = s.producer t := by
          cases hpc : s.producer u with
          | returned ret =>
            change step s (.enqueue u src) = some s' at hs
            simp only [step, hpc, Option.some.injEq] at hs
            subst hs
            exact setProducer_other _ _ (Ne.symm hu)
          | _ =>
            change step s (.enqueue u src) = some s' at hs
            simp [step, hpc] at hs
        rw [hsame] at hclean
        simpa [Label.startsCall, Label.ofProducer, hu] using ih hclean
    | produce u =>
      by_cases hu : u = t
      · subst hu
        obtain ⟨hbefore, hqueue⟩ := clean_produce hs hclean
        intro p hp
        simp only [Label.startsCall, Label.ofProducer, decide_true, Bool.false_eq_true, ite_false,
          ite_true] at hp
        rcases List.mem_cons.mp hp with rfl | hp
        · intro s'' hs''
          cases hs.symm.trans hs''
          exact hqueue
        · exact ih hbefore p hp
      · rw [produce_other (Ne.symm hu) hs] at hclean
        simpa [Label.startsCall, Label.ofProducer, hu] using ih hclean
    | front =>
      rw [(callConsumer_frame hs).2] at hclean
      simpa [Label.startsCall, Label.ofProducer] using ih hclean
    | dequeue =>
      rw [(callConsumer_frame hs).2] at hclean
      simpa [Label.startsCall, Label.ofProducer] using ih hclean
    | consume =>
      rw [(consume_frame hs).2] at hclean
      simpa [Label.startsCall, Label.ofProducer] using ih hclean

end FailedUnchanged

/-- No returned producer ever holds the mutex and no failed enqueue changes the queue,
exactly when no producer finds the queue full. -/
theorem lockDiscipline_iff {zero : α} {cap : Nat} {tr : List (State Thread α × Label Thread α)}
    (hr : (machine Thread zero cap).Run tr s) :
    ((∀ x, Machine.Visits tr s x → LockDiscipline x) ∧ FailedUnchanged tr s) ↔
      ∀ p ∈ tr, ¬ FindsFull p.1 p.2 := by
  have hunchanged : FailedUnchanged tr s := fun t ret hpc hret =>
    clean_unchanged hr t (by rw [hpc]; exact hret)
  rw [and_iff_left hunchanged]
  refine hr.visited_iff (I := HolderInside) ?_ (fun _ _ _ h hg hs => holderInside_step h hg hs)
    (fun _ h => h.lockDiscipline)
    fun _ _ _ h hg hs => not_lockDiscipline_of_findsFull h (not_not.mp hg) hs
  rintro s ⟨queue, -, rfl⟩
  exact holderInside_start queue

def takingTurns : List (Label Nat Nat) :=
  [.enqueue 0 7, .produce 0, .enqueue 1 8, .produce 0, .produce 0, .produce 0, .produce 0,
    .produce 0, .dequeue, .consume, .consume, .consume, .consume, .consume, .produce 1, .produce 1]

theorem lockDiscipline_iff_takingTurns :
    ∃ tr s, (machine Nat 0 1).Run tr s ∧ s.dequeued = [7] ∧ s.producerMutex = some 1 ∧
      (((∀ x, Machine.Visits tr s x → LockDiscipline x) ∧ FailedUnchanged tr s) ↔
        ∀ p ∈ tr, ¬ FindsFull p.1 p.2) := by
  obtain ⟨tr, s, hr, hs⟩ := (machine Nat 0 1).exists_run_of_exec
    (start ⟨fun _ => 0, 0, 0, 0, 1⟩) takingTurns
    (fun s => s.dequeued = [7] ∧ s.producerMutex = some 1) ⟨_, rfl, rfl⟩ (by decide)
  simp only [decide_eq_true_eq] at hs
  exact ⟨tr, s, hr, hs.1, hs.2, lockDiscipline_iff hr⟩

def enqueuedIntoFull : List (Label Nat Nat) :=
  [.enqueue 0 7, .produce 0, .produce 0, .produce 0, .produce 0, .produce 0, .produce 0,
    .enqueue 0 8, .produce 0, .produce 0]

def Producer.hasReturned : Producer α → Bool
  | .returned _ => true
  | _ => false

theorem not_lockDiscipline_enqueuedIntoFull :
    ¬ ∀ tr s, (machine Nat 0 1).Run tr s → LockDiscipline s := by
  obtain ⟨tr, s, hr, hs⟩ := (machine Nat 0 1).exists_run_of_exec
    (start ⟨fun _ => 0, 0, 0, 0, 1⟩) enqueuedIntoFull
    (fun s => (s.producer 0).hasReturned = true ∧ s.producerMutex = some 0)
    ⟨_, rfl, rfl⟩ (by decide)
  simp only [decide_eq_true_eq] at hs
  intro h
  cases hpc : s.producer 0 with
  | returned ret => exact h tr s hr 0 ret hpc hs.2
  | _ => simp [hpc, Producer.hasReturned] at hs

end Dert.Mpscqueue
