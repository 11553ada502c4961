import Dert.Pool.Tpoolrr

namespace Dert.Tpoolrr

open Library

variable {threadsTotal jobsPerThread : Nat}

@[simp] theorem set_threads_self (s : State threadsTotal jobsPerThread) (index : Fin threadsTotal)
    (t : Thread jobsPerThread) : (s.set index t).threads index = t :=
  Function.update_self ..

theorem set_threads_of_ne {s : State threadsTotal jobsPerThread} {index k : Fin threadsTotal}
    (h : k ≠ index) (t : Thread jobsPerThread) : (s.set index t).threads k = s.threads k :=
  Function.update_of_ne h ..

theorem set_forall {s : State threadsTotal jobsPerThread} {index : Fin threadsTotal}
    {P : Fin threadsTotal → Thread jobsPerThread → Prop} {t : Thread jobsPerThread} (h : P index t)
    (hs : ∀ k, k ≠ index → P k (s.threads k)) (k) :
    P k ((s.set index t).threads k) := by
  by_cases hk : k = index
  · subst hk
    rw [set_threads_self]
    exact h
  · rw [set_threads_of_ne hk]
    exact hs k hk

theorem set_congr {α : Type} (f : Thread jobsPerThread → α) {s : State threadsTotal jobsPerThread}
    {index : Fin threadsTotal} {t : Thread jobsPerThread} (h : f t = f (s.threads index)) (k) :
    f ((s.set index t).threads k) = f (s.threads k) :=
  set_forall (P := fun k t => f t = f (s.threads k)) h (fun _ _ => rfl) k

theorem set_keeps {P : Thread jobsPerThread → Prop} {s : State threadsTotal jobsPerThread}
    {index : Fin threadsTotal} {t : Thread jobsPerThread} (h : P (s.threads index) → P t) {k}
    (hk : P (s.threads k)) : P ((s.set index t).threads k) :=
  set_forall (P := fun k t => P (s.threads k) → P t) h (fun _ _ => id) k hk

/-- Everything that a step of a worker can do, a constructor for each branch. -/
inductive Works (index : Nat) (t : Thread jobsPerThread) : Thread jobsPerThread → Prop
  | locked : t.pc = .lock → t.conditionMutex = none →
      Works index t { t with conditionMutex := some .worker, pc := .evaluate }
  | active : t.pc = .evaluate → t.desiredState = .ACTIVE → t.submissionQueue.list ≠ [] →
      Works index t { t with currentState := .ACTIVE, pc := .unlock }
  | idle : t.pc = .evaluate → t.desiredState = .ACTIVE → t.submissionQueue.list = [] →
      Works index t { t with currentState := .PAUSED, pc := .condWait }
  | paused : t.pc = .evaluate → t.desiredState = .PAUSED →
      Works index t { t with currentState := .PAUSED, pc := .condWait }
  | joined : t.pc = .evaluate → t.desiredState = .JOINED → t.submissionQueue.list = [] →
      Works index t { t with currentState := .JOINED, pc := .unlockLeave }
  | draining : t.pc = .evaluate → t.desiredState = .JOINED → t.submissionQueue.list ≠ [] →
      Works index t { t with currentState := .ACTIVE, pc := .unlock }
  | ended (why) : t.pc = .evaluate → t.desiredState = why → why = .STOPPED ∨ why = .CANCELLED →
      Works index t { t with currentState := why, pc := .unlockLeave }
  | waited : t.pc = .condWait → Works index t { t with conditionMutex := none, pc := .waiting }
  | woken : t.pc = .wake → t.conditionMutex = none →
      Works index t { t with conditionMutex := some .worker, pc := .unlockAwake }
  | awake : t.pc = .unlockAwake → Works index t { t with conditionMutex := none, pc := .lock }
  | leaving : t.pc = .unlockLeave → Works index t { t with conditionMutex := none, pc := .left }
  | unlocked : t.pc = .unlock → Works index t { t with conditionMutex := none, pc := .dequeue }
  | dequeued (job submissionQueue) : t.pc = .dequeue →
      t.submissionQueue.list = job :: submissionQueue.list →
      Works index t { t with
        submissionQueue, job := { job with threadAssignedTo := index, flags := 0 }, pc := .run }
  | stale : t.pc = .dequeue → t.submissionQueue.list = [] →
      Works index t { t with
        job := { t.job with threadAssignedTo := index, flags := 0 }, pc := .run }
  | started : t.pc = .run → Works index t { t with pc := .inJob }
  | expired : t.pc = .run →
      Works index t { t with job := { t.job with ret := 0, flags := 1 }, pc := .enqueue }
  | completed (completionQueue) : t.pc = .enqueue →
      completionQueue.list = t.completionQueue.list ++ [t.job] →
      t.completionQueue.length < jobsPerThread →
      Works index t { t with completionQueue, pc := .lock }
  | dropped : t.pc = .enqueue → t.completionQueue.length = jobsPerThread →
      Works index t { t with dropped := t.dropped ++ [t.job], pc := .lock }

variable {index : Nat} {t t' : Thread jobsPerThread}

theorem lock_eq_some {owner : Owner} (h : t.lock owner = some t') :
    t.conditionMutex = none ∧ t' = { t with conditionMutex := some owner } := by
  rw [Thread.lock] at h
  split at h
  next hfree =>
    cases h
    exact ⟨hfree, rfl⟩
  next => cases h

theorem works_evaluate (h : t.pc = .evaluate) : Works index t (evaluate t) := by
  have hempty : t.submissionQueue.length = 0 ↔ t.submissionQueue.list = [] :=
    List.length_eq_zero_iff
  rw [evaluate]
  split
  next hdesired =>
    split_ifs with hlen
    · exact .active h hdesired (mt hempty.mpr hlen)
    · exact .idle h hdesired (hempty.mp (not_not.mp hlen))
  next hdesired => exact .paused h hdesired
  next hdesired =>
    split_ifs with hlen
    · exact .joined h hdesired (hempty.mp hlen)
    · exact .draining h hdesired (mt hempty.mpr hlen)
  next hdesired => exact .ended .STOPPED h hdesired (.inl rfl)
  next hdesired => exact .ended .CANCELLED h hdesired (.inr rfl)

theorem works_dequeue (h : t.pc = .dequeue) {now : UInt64}
    (hw : tpoolrrWorker index now t = some t') : Works index t t' := by
  simp only [tpoolrrWorker, h] at hw
  cases hpop : t.submissionQueue.pop with
  | none =>
    rw [hpop] at hw
    cases hw
    exact .stale h (Fifo.pop_eq_none.mp hpop)
  | some popped =>
    rw [hpop] at hw
    cases hw
    exact .dequeued popped.1 popped.2 h (Fifo.pop_eq_some hpop)

theorem works_enqueue (h : t.pc = .enqueue) {now : UInt64}
    (hw : tpoolrrWorker index now t = some t') : Works index t t' := by
  simp only [tpoolrrWorker, h] at hw
  split at hw
  next hfull =>
    cases hw
    exact .dropped h (Fifo.push_eq_none.mp hfull)
  next completionQueue hpush =>
    obtain ⟨hlist, hroom⟩ := Fifo.push_eq_some hpush
    cases hw
    exact .completed completionQueue h hlist hroom

theorem works {now : UInt64} (hw : tpoolrrWorker index now t = some t') : Works index t t' := by
  cases hpc : t.pc with
  | lock =>
    simp only [tpoolrrWorker, hpc, Option.map_eq_some_iff] at hw
    obtain ⟨u, hlock, rfl⟩ := hw
    obtain ⟨hfree, rfl⟩ := lock_eq_some hlock
    exact .locked hpc hfree
  | evaluate =>
    simp only [tpoolrrWorker, hpc, Option.some.injEq] at hw
    subst hw
    exact works_evaluate hpc
  | condWait =>
    simp only [tpoolrrWorker, hpc, Option.some.injEq] at hw
    subst hw
    exact .waited hpc
  | waiting => simp [tpoolrrWorker, hpc] at hw
  | wake =>
    simp only [tpoolrrWorker, hpc, Option.map_eq_some_iff] at hw
    obtain ⟨u, hlock, rfl⟩ := hw
    obtain ⟨hfree, rfl⟩ := lock_eq_some hlock
    exact .woken hpc hfree
  | unlockAwake =>
    simp only [tpoolrrWorker, hpc, Option.some.injEq] at hw
    subst hw
    exact .awake hpc
  | unlockLeave =>
    simp only [tpoolrrWorker, hpc, Option.some.injEq] at hw
    subst hw
    exact .leaving hpc
  | unlock =>
    simp only [tpoolrrWorker, hpc, Option.some.injEq] at hw
    subst hw
    exact .unlocked hpc
  | dequeue => exact works_dequeue hpc hw
  | run =>
    simp only [tpoolrrWorker, hpc] at hw
    split_ifs at hw
    · cases hw
      exact .started hpc
    · cases hw
      exact .expired hpc
  | inJob => simp [tpoolrrWorker, hpc] at hw
  | enqueue => exact works_enqueue hpc hw
  | left => simp [tpoolrrWorker, hpc] at hw

variable [NeZero threadsTotal]

inductive Controls (s : State threadsTotal jobsPerThread) : State threadsTotal jobsPerThread → Prop
  | scanFull (job i) : s.main = .jobsAddScan job i → i ≤ threadsTotal →
      (s.threads (s.index i)).submissionQueue.length = jobsPerThread →
      Controls s { s with main := .jobsAddScan job (i + 1) }
  | scanRoom (job i) : s.main = .jobsAddScan job i → i ≤ threadsTotal →
      (s.threads (s.index i)).submissionQueue.length ≠ jobsPerThread →
      Controls s { s with main := .jobsAddEnqueue job (s.index i) }
  | scanEnd (job i) : s.main = .jobsAddScan job i → ¬ i ≤ threadsTotal →
      Controls s { s with main := .returned .EBUSY }
  | enqueueFull (job index) : s.main = .jobsAddEnqueue job index →
      (s.threads index).submissionQueue.length = jobsPerThread →
      Controls s { s with main := .returned .EXFULL }
  | enqueued (job index submissionQueue) : s.main = .jobsAddEnqueue job index →
      submissionQueue.list = (s.threads index).submissionQueue.list ++ [job] →
      Controls s
        { s.set index { s.threads index with submissionQueue } with main := .jobsAddLock job index }
  | addLocked (job index) : s.main = .jobsAddLock job index →
      (s.threads index).conditionMutex = none →
      Controls s { s.set index { s.threads index with conditionMutex := some .main } with
        main := .jobsAddSignal job index }
  | addSignalled (job index) : s.main = .jobsAddSignal job index →
      Controls s { s.set index (s.threads index).signal with main := .jobsAddUnlock job index }
  | added (job index) : s.main = .jobsAddUnlock job index →
      Controls s { s.set index (s.threads index).unlock with
        rrIndex := sizeT (s.rrIndex + 1)
        main := .returned .ok
        accepted := s.accepted ++ [(index, job)] }
  | popped (i job completionQueue) : s.main = .completionsPopScan i → i < threadsTotal →
      (s.threads (s.index i)).completionQueue.list = job :: completionQueue.list →
      Controls s { s.set (s.index i) { s.threads (s.index i) with completionQueue } with
        rrIndex := sizeT (s.rrIndex + i) % threadsTotal
        main := .returned .ok
        popped := s.popped ++ [job] }
  | popNone (i) : s.main = .completionsPopScan i → i < threadsTotal →
      (s.threads (s.index i)).completionQueue.list = [] →
      Controls s { s with main := .completionsPopScan (i + 1) }
  | popEnd (i) : s.main = .completionsPopScan i → ¬ i < threadsTotal →
      Controls s { s with main := .returned .EBUSY }
  | setLocked (state i) : s.main = .setLock state i.val → (s.threads i).conditionMutex = none →
      Controls s { s.set i
        { s.threads i with conditionMutex := some .main, desiredState := state } with
        main := .setSignal state i }
  | setEnd (state i) : s.main = .setLock state i → ¬ i < threadsTotal →
      Controls s { s with main := .returned .ok }
  | setSignalled (state i) : s.main = .setSignal state i →
      Controls s { s.set i (s.threads i).signal with main := .setUnlock state i }
  | setUnlocked (state i) : s.main = .setUnlock state i →
      Controls s { s.set i (s.threads i).unlock with main := .setLock state (i + 1) }
  | endLocked (state i) : s.main = .endLock state i.val → (s.threads i).conditionMutex = none →
      Controls s { s.set i
        { s.threads i with conditionMutex := some .main, desiredState := state } with
        main := .endUnlock state i }
  | endEnd (state i) : s.main = .endLock state i → ¬ i < threadsTotal →
      Controls s { s with main := .returned .ok }
  | needed (state i) : s.main = .endUnlock state i →
      (s.threads i).currentState = .ACTIVE ∨ (s.threads i).currentState = .PAUSED →
      Controls s { s.set i (s.threads i).unlock with main := .endSignal state i }
  | unneeded (state i) : s.main = .endUnlock state i →
      ¬ ((s.threads i).currentState = .ACTIVE ∨ (s.threads i).currentState = .PAUSED) →
      Controls s { s.set i (s.threads i).unlock with main := .endLock state (i + 1) }
  | endSignalled (state i) : s.main = .endSignal state i →
      Controls s { s.set i (s.threads i).signal with main := .endJoin state i }
  | endJoined (state i) : s.main = .endJoin state i → (s.threads i).pc = .left →
      Controls s { s with main := .endLock state (i + 1) }

variable {s s' : State threadsTotal jobsPerThread} {l : Label threadsTotal}

theorem controls_jobsAdd {job : TpoolrrJob} {i : Nat} (h : s.main = .jobsAddScan job i) :
    Controls s (_tpoolrrJobsAdd s job i) := by
  simp only [_tpoolrrJobsAdd]
  split_ifs with hi hfull
  · exact .scanFull job i h hi hfull
  · exact .scanRoom job i h hi hfull
  · exact .scanEnd job i h hi

theorem controls_completionsPop {i : Nat} (h : s.main = .completionsPopScan i) :
    Controls s (tpoolrrCompletionsPop s i) := by
  simp only [tpoolrrCompletionsPop]
  split_ifs with hi
  · split
    next hpop => exact .popped i _ _ h hi (Fifo.pop_eq_some hpop)
    next hpop => exact .popNone i h hi (Fifo.pop_eq_none.mp hpop)
  · exact .popEnd i h hi

theorem need_iff (state : TpoolrrThreadState) :
    (state ≠ .JOINED ∧ state ≠ .STOPPED ∧ state ≠ .CANCELLED) ↔ state = .ACTIVE ∨ state = .PAUSED := by
  cases state <;> decide

theorem controls (hs : mainStep s = some s') : Controls s s' := by
  cases hmain : s.main with
  | returned res => simp [mainStep, hmain] at hs
  | jobsAddScan job i =>
    simp only [mainStep, hmain, Option.some.injEq] at hs
    subst hs
    exact controls_jobsAdd hmain
  | jobsAddEnqueue job index =>
    simp only [mainStep, hmain] at hs
    split at hs
    next hpush =>
      cases hs
      exact .enqueueFull job index hmain (Fifo.push_eq_none.mp hpush)
    next hpush =>
      cases hs
      exact .enqueued job index _ hmain (Fifo.push_eq_some hpush).1
  | jobsAddLock job index =>
    simp only [mainStep, hmain, Option.map_eq_some_iff] at hs
    obtain ⟨t, hlock, rfl⟩ := hs
    obtain ⟨hfree, rfl⟩ := lock_eq_some hlock
    exact .addLocked job index hmain hfree
  | jobsAddSignal job index =>
    simp only [mainStep, hmain, Option.some.injEq] at hs
    subst hs
    exact .addSignalled job index hmain
  | jobsAddUnlock job index =>
    simp only [mainStep, hmain, Option.some.injEq] at hs
    subst hs
    exact .added job index hmain
  | completionsPopScan i =>
    simp only [mainStep, hmain, Option.some.injEq] at hs
    subst hs
    exact controls_completionsPop hmain
  | setLock state i =>
    simp only [mainStep, hmain] at hs
    split_ifs at hs with hi
    · obtain ⟨t, hlock, rfl⟩ := Option.map_eq_some_iff.mp hs
      obtain ⟨hfree, rfl⟩ := lock_eq_some hlock
      exact .setLocked state ⟨i, hi⟩ hmain hfree
    · cases hs
      exact .setEnd state i hmain hi
  | setSignal state i =>
    simp only [mainStep, hmain, Option.some.injEq] at hs
    subst hs
    exact .setSignalled state i hmain
  | setUnlock state i =>
    simp only [mainStep, hmain, Option.some.injEq] at hs
    subst hs
    exact .setUnlocked state i hmain
  | endLock state i =>
    simp only [mainStep, hmain] at hs
    split_ifs at hs with hi
    · obtain ⟨t, hlock, rfl⟩ := Option.map_eq_some_iff.mp hs
      obtain ⟨hfree, rfl⟩ := lock_eq_some hlock
      exact .endLocked state ⟨i, hi⟩ hmain hfree
    · cases hs
      exact .endEnd state i hmain hi
  | endUnlock state i =>
    simp only [mainStep, hmain, need_iff, Option.some.injEq] at hs
    split_ifs at hs with hneed
    · subst hs
      exact .needed state i hmain hneed
    · subst hs
      exact .unneeded state i hmain hneed
  | endSignal state i =>
    simp only [mainStep, hmain, Option.some.injEq] at hs
    subst hs
    exact .endSignalled state i hmain
  | endJoin state i =>
    simp only [mainStep, hmain] at hs
    split at hs
    next hleft =>
      cases hs
      exact .endJoined state i hmain hleft
    next => cases hs

inductive Step (s : State threadsTotal jobsPerThread) :
    Label threadsTotal → State threadsTotal jobsPerThread → Prop
  | work (index : Fin threadsTotal) (now) (t : Thread jobsPerThread) :
      Works index.val (s.threads index) t → Step s (.work index now) (s.set index t)
  | finish (index : Fin threadsTotal) (ret) : (s.threads index).pc = .inJob →
      Step s (.finish index ret) (s.set index
        { s.threads index with job := { (s.threads index).job with ret }, pc := .enqueue })
  | spurious (index : Fin threadsTotal) : (s.threads index).pc = .waiting →
      Step s (.spurious index) (s.set index { s.threads index with pc := .wake })
  | call (call res) : s.main = .returned res → Step s (.call call) { s with main := enter call }
  | main (next) : Controls s next → Step s .main next

theorem step_cases (hs : step s l = some s') : Step s l s' := by
  cases l with
  | work index now =>
    obtain ⟨t, ht, rfl⟩ := Option.map_eq_some_iff.mp hs
    exact .work index now t (works ht)
  | finish index ret =>
    simp only [step] at hs
    split at hs
    next hpc =>
      cases hs
      exact .finish index ret hpc
    next => cases hs
  | spurious index =>
    simp only [step] at hs
    split at hs
    next hpc =>
      cases hs
      exact .spurious index hpc
    next => cases hs
  | call call =>
    simp only [step] at hs
    split at hs
    next hmain =>
      cases hs
      exact .call call _ hmain
    next => cases hs
  | main => exact .main s' (controls hs)

end Dert.Tpoolrr
