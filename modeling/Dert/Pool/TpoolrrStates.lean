import Dert.Pool.TpoolrrHistory

namespace Dert.Tpoolrr

open Library

variable {threadsTotal jobsPerThread : Nat}

def Call.sets : Call → Option TpoolrrThreadState
  | .pause => some .PAUSED
  | .resume => some .ACTIVE
  | .stopSafe => some .STOPPED
  | .join => some .JOINED
  | _ => none

def Over (state : TpoolrrThreadState) : Prop :=
  ¬ (state = .ACTIVE ∨ state = .PAUSED)

def Pc.inside : Pc → Bool
  | .evaluate => true
  | .condWait => true
  | .unlockAwake => true
  | .unlockLeave => true
  | .unlock => true
  | _ => false

def Thread.Leaves (t : Thread jobsPerThread) : Prop := t.pc = .unlockLeave ∨ t.pc = .left

namespace Main

@[simp] def holds : Main threadsTotal → Option (Fin threadsTotal)
  | .jobsAddSignal _ i => some i
  | .jobsAddUnlock _ i => some i
  | .setSignal _ i => some i
  | .setUnlock _ i => some i
  | .endUnlock _ i => some i
  | _ => none

variable (last : Option TpoolrrThreadState) (main : Main threadsTotal) (k : Fin threadsTotal)

/-- The main thread is in a call that sets `last`, or outside calls. -/
@[simp] def In : Prop :=
  match main with
  | .returned _ => True
  | .setLock state _ => last = some state ∧ ¬ Over state
  | .setSignal state _ => last = some state ∧ ¬ Over state
  | .setUnlock state _ => last = some state ∧ ¬ Over state
  | .endLock state _ => last = some state ∧ Over state
  | .endUnlock state _ => last = some state ∧ Over state
  | .endSignal state _ => last = some state ∧ Over state
  | .endJoin state _ => last = some state ∧ Over state
  | _ => last = none

@[simp] def HasSet (state : TpoolrrThreadState) : Prop :=
  match main with
  | .returned _ => last = some state
  | .setLock _ i => last = some state ∧ k.val < i
  | .setSignal _ i => last = some state ∧ k ≤ i
  | .setUnlock _ i => last = some state ∧ k ≤ i
  | .endLock _ i => last = some state ∧ k.val < i
  | .endUnlock _ i => last = some state ∧ k ≤ i
  | .endSignal _ i => last = some state ∧ k ≤ i
  | .endJoin _ i => last = some state ∧ k ≤ i
  | _ => False

@[simp] def HasEnded : Prop :=
  match main with
  | .returned _ => ∃ state, last = some state ∧ Over state
  | .endLock _ i => k.val < i
  | .endUnlock _ i => k < i
  | .endSignal _ i => k < i
  | .endJoin _ i => k < i
  | _ => False

end Main

structure Thread.Fits (holds : Prop) (set : TpoolrrThreadState → Prop) (ended : Prop)
    (t : Thread jobsPerThread) : Prop where
  worker : t.pc.inside = true → t.conditionMutex = some .worker
  main : holds → t.conditionMutex = some .main
  halted : Over t.currentState → t.Leaves
  set : ∀ state, set state → t.desiredState = state
  ended : ended → t.pc = .left

structure States (last : Option TpoolrrThreadState)
    (threads : Fin threadsTotal → Thread jobsPerThread) (main : Main threadsTotal) : Prop where
  within : main.In last
  threads : ∀ k, (threads k).Fits (main.holds = some k) (main.HasSet last k) (main.HasEnded last k)

section Threads

variable {holds holds' ended ended' : Prop} {set set' : TpoolrrThreadState → Prop}
  {t t' : Thread jobsPerThread} {index : Nat}

theorem Thread.Fits.mono (h : t.Fits holds set ended) (hh : holds' → holds)
    (hs : ∀ state, set' state → set state) (he : ended' → ended) : t.Fits holds' set' ended' where
  worker := h.worker
  main := h.main ∘ hh
  halted := h.halted
  set state := h.set state ∘ hs state
  ended := h.ended ∘ he

theorem Thread.Fits.not_inside (h : t.Fits holds set ended) (hm : t.conditionMutex ≠ some .worker) :
    t.pc.inside = false :=
  Bool.eq_false_iff.mpr fun hin => hm (h.worker hin)

theorem Works.worker (hw : Works index t t')
    (h : t.pc.inside = true → t.conditionMutex = some .worker) :
    t'.pc.inside = true → t'.conditionMutex = some .worker := by
  cases hw <;> simp_all [Pc.inside]

theorem Works.main (hw : Works index t t')
    (hin : t.pc.inside = true → t.conditionMutex = some .worker)
    (h : t.conditionMutex = some .main) : t'.conditionMutex = some .main := by
  cases hw <;> simp_all [Pc.inside]

theorem Works.halted (hw : Works index t t') (h : Over t.currentState → t.Leaves) :
    Over t'.currentState → t'.Leaves := by
  cases hw <;> simp_all [Over, Thread.Leaves]

theorem Works.desiredState (hw : Works index t t') : t'.desiredState = t.desiredState := by
  cases hw <;> rfl

theorem Works.left (hw : Works index t t') : t.pc ≠ .left := by
  cases hw <;> simp_all

theorem Works.fits (hw : Works index t t') (h : t.Fits holds set ended) :
    t'.Fits holds set ended where
  worker := hw.worker h.worker
  main hh := hw.main h.worker (h.main hh)
  halted := hw.halted h.halted
  set state hs := hw.desiredState.trans (h.set state hs)
  ended he := absurd (h.ended he) hw.left

theorem Thread.Fits.lock (h : t.Fits holds set ended) (hfree : t.conditionMutex = none)
    {state : TpoolrrThreadState} (hs : ∀ state', set' state' → state = state')
    (he : ended' → ended) :
    Thread.Fits holds' set' ended'
      { t with conditionMutex := some .main, desiredState := state } where
  worker hin := absurd hin (by simp [h.not_inside (by simp [hfree])])
  main _ := rfl
  halted := h.halted
  set := hs
  ended := h.ended ∘ he

theorem Thread.Fits.left (h : t.Fits holds set ended) (ho : Over t.currentState) (hh : holds) :
    t.pc = .left := by
  rcases h.halted ho with hpc | hpc
  · have hmutex := (h.worker (by simp [hpc, Pc.inside])).symm.trans (h.main hh)
    cases hmutex
  · exact hpc

theorem Thread.Fits.unlock (h : t.Fits holds set ended) (hh : holds) :
    t.unlock.Fits False set ended where
  worker hin := absurd hin (by simp [Thread.unlock, h.not_inside (by simp [h.main hh])])
  main := False.elim
  halted := h.halted
  set := h.set
  ended := h.ended

theorem Thread.Fits.goOn (h : t.Fits holds set ended) (hstays : ¬ t.Leaves) (job : TpoolrrJob)
    {pc : Pc} (hpc : pc.inside = false) : Thread.Fits holds set ended { t with job, pc } where
  worker hin := absurd hin (by simp [hpc])
  main := h.main
  halted ho := absurd (h.halted ho) hstays
  set := h.set
  ended he := absurd (.inr (h.ended he)) hstays

theorem Thread.Fits.signal (h : t.Fits holds set ended) : t.signal.Fits holds set ended := by
  rw [Thread.signal]
  split
  next hpc => exact h.goOn (by simp [Thread.Leaves, hpc]) t.job rfl
  next => exact h

theorem Thread.Fits.push (h : t.Fits holds set ended) (submissionQueue) :
    Thread.Fits holds set ended { t with submissionQueue } :=
  ⟨h.worker, h.main, h.halted, h.set, h.ended⟩

theorem Thread.Fits.pop (h : t.Fits holds set ended) (completionQueue) :
    Thread.Fits holds set ended { t with completionQueue } :=
  ⟨h.worker, h.main, h.halted, h.set, h.ended⟩

end Threads

section Pool

variable {s s' : State threadsTotal jobsPerThread} {l : Label threadsTotal}
  {last : Option TpoolrrThreadState} {main next : Main threadsTotal}

structure Main.Keeps (last : Option TpoolrrThreadState) (main next : Main threadsTotal)
    (k : Fin threadsTotal) : Prop where
  holds : next.holds = some k → main.holds = some k
  set : ∀ state, next.HasSet last k state → main.HasSet last k state
  ended : next.HasEnded last k → main.HasEnded last k

theorem Thread.Fits.keep {k : Fin threadsTotal} {t : Thread jobsPerThread}
    (h : t.Fits (main.holds = some k) (main.HasSet last k) (main.HasEnded last k))
    (hk : main.Keeps last next k) :
    t.Fits (next.holds = some k) (next.HasSet last k) (next.HasEnded last k) :=
  h.mono hk.holds hk.set hk.ended

theorem States.move (h : States last s.threads s.main) (hin : next.In last)
    (hk : ∀ k, s.main.Keeps last next k) : States last s.threads next :=
  ⟨hin, fun k => (h.threads k).keep (hk k)⟩

theorem States.set (h : States last s.threads s.main) {index : Fin threadsTotal}
    {t : Thread jobsPerThread} (hin : next.In last)
    (ht : t.Fits (next.holds = some index) (next.HasSet last index) (next.HasEnded last index))
    (hk : ∀ k, k ≠ index → s.main.Keeps last next k) :
    States last (s.set index t).threads next :=
  ⟨hin, set_forall
    (P := fun k t => t.Fits (next.holds = some k) (next.HasSet last k) (next.HasEnded last k)) ht
    fun k hne => (h.threads k).keep (hk k hne)⟩

def lastSets (calls : List Call) : Option TpoolrrThreadState := calls.head?.bind Call.sets

theorem enter_in (call : Call) : (enter call : Main threadsTotal).In call.sets := by
  cases call with
  | jobsAdd =>
    rw [enter]
    split_ifs <;> simp [Call.sets]
  | _ => simp [enter, Call.sets, Over]

theorem enter_nothing (call : Call) (k : Fin threadsTotal) :
    (enter call).holds ≠ some k ∧ (∀ state, ¬ (enter call).HasSet call.sets k state) ∧
      ¬ (enter call).HasEnded call.sets k := by
  cases call with
  | jobsAdd =>
    rw [enter]
    split_ifs <;> simp [Call.sets]
  | _ => simp [enter]

variable [NeZero threadsTotal]

theorem Controls.states (hc : Controls s s') (h : States last s.threads s.main) :
    States last s'.threads s'.main := by
  have hin := h.within
  cases hc with
  | scanFull job i hmain =>
    exact h.move (by simpa [hmain] using hin) fun k => by constructor <;> simp
  | scanRoom job i hmain =>
    exact h.move (by simpa [hmain] using hin) fun k => by constructor <;> simp
  | scanEnd job i hmain =>
    exact h.move trivial fun k => by constructor <;> simp_all
  | enqueueFull job index hmain =>
    exact h.move trivial fun k => by constructor <;> simp_all
  | enqueued job index submissionQueue hmain hlist =>
    refine h.set (by simpa [hmain] using hin) ?_ fun k hk => by constructor <;> simp
    exact ((h.threads index).keep (by constructor <;> simp)).push submissionQueue
  | addLocked job index hmain hfree =>
    refine h.set (by simpa [hmain] using hin) ?_ fun k hk => by constructor <;> simp [Ne.symm hk]
    exact (h.threads index).lock hfree (by simp) (by simp)
  | addSignalled job index hmain =>
    refine h.set (by simpa [hmain] using hin) ?_ fun k hk => by constructor <;> simp [hmain]
    exact ((h.threads index).keep (by constructor <;> simp [hmain])).signal
  | added job index hmain =>
    refine h.set trivial ?_ fun k hk => by constructor <;> simp_all
    exact ((h.threads index).unlock (by simp [hmain])).mono (by simp) (by simp_all) (by simp_all)
  | popped i job completionQueue hmain _ hlist =>
    refine h.set trivial ?_ fun k hk => by constructor <;> simp_all
    exact ((h.threads _).keep (by constructor <;> simp_all)).pop completionQueue
  | popNone i hmain =>
    exact h.move (by simpa [hmain] using hin) fun k => by constructor <;> simp
  | popEnd i hmain =>
    exact h.move trivial fun k => by constructor <;> simp_all
  | setLocked state i hmain hfree =>
    refine h.set (by simpa [hmain] using hin) ?_ fun k hk => ?_
    · exact (h.threads i).lock hfree (by simp_all) (by simp)
    · have hlt : k ≤ i → k.val < i.val := fun hle =>
        lt_of_le_of_ne hle (Fin.val_ne_of_ne hk)
      constructor <;> simp_all [Ne.symm hk]
  | setEnd state i hmain hi =>
    refine h.move trivial fun k => ?_
    have hlt : k.val < i := by omega
    constructor <;> simp_all
  | setSignalled state i hmain =>
    refine h.set (by simpa [hmain] using hin) ?_ fun k hk => by constructor <;> simp [hmain]
    exact ((h.threads i).keep (by constructor <;> simp [hmain])).signal
  | setUnlocked state i hmain =>
    refine h.set (by simpa [hmain] using hin) ?_ fun k hk => ?_
    · exact ((h.threads i).unlock (by simp [hmain])).mono (by simp) (by simp [hmain]) (by simp)
    · have hlt : k.val < i.val + 1 ↔ k.val ≤ i.val := Nat.lt_succ_iff
      constructor <;> simp_all
  | endLocked state i hmain hfree =>
    refine h.set (by simpa [hmain] using hin) ?_ fun k hk => ?_
    · exact (h.threads i).lock hfree (by simp_all) (by simp_all)
    · have hlt : k ≤ i → k.val < i.val := fun hle =>
        lt_of_le_of_ne hle (Fin.val_ne_of_ne hk)
      constructor <;> simp_all [Ne.symm hk]
  | endEnd state i hmain hi =>
    refine h.move trivial fun k => ?_
    have hlt : k.val < i := by omega
    constructor <;> simp_all
  | needed state i hmain =>
    refine h.set (by simpa [hmain] using hin) ?_ fun k hk => by constructor <;> simp [hmain]
    exact ((h.threads i).unlock (by simp [hmain])).mono (by simp) (by simp [hmain]) (by simp)
  | unneeded state i hmain hover =>
    have hi := h.threads i
    have hleft : (s.threads i).pc = .left := hi.left hover (by simp [hmain])
    refine h.set (by simpa [hmain] using hin) ?_ fun k hk => ?_
    · exact { hi.unlock (by simp [hmain]) with
        main := by simp
        set := by simpa [hmain, Thread.unlock] using hi.set
        ended := fun _ => hleft }
    · have hsucc : k.val < i.val + 1 ↔ k.val ≤ i.val := Nat.lt_succ_iff
      have hlt : k ≤ i → k < i := fun hle => lt_of_le_of_ne hle hk
      constructor <;> simp_all
  | endSignalled state i hmain =>
    refine h.set (by simpa [hmain] using hin) ?_ fun k hk => by constructor <;> simp [hmain]
    exact ((h.threads i).keep (by constructor <;> simp [hmain])).signal
  | endJoined state i hmain hleft =>
    refine ⟨by simpa [hmain] using hin, fun k => ?_⟩
    have hk := h.threads k
    refine { hk with main := by simp, set := ?_, ended := fun hend => ?_ }
    · simpa [hmain, Nat.lt_succ_iff] using hk.set
    · by_cases hki : k = i
      · rwa [hki]
      · have hlt : k < i := lt_of_le_of_ne (Nat.lt_succ_iff.mp hend) hki
        exact hk.ended (by simpa [hmain] using hlt)

@[simp] theorem signal_desiredState (t : Thread jobsPerThread) :
    t.signal.desiredState = t.desiredState := by
  rw [Thread.signal]
  split <;> rfl

theorem Controls.desiredState (hc : Controls s s') (hin : s.main.In last) (k : Fin threadsTotal) :
    (s'.threads k).desiredState = (s.threads k).desiredState ∨
      last = some (s'.threads k).desiredState := by
  have hset {state : TpoolrrThreadState} {index : Fin threadsTotal} {t : Thread jobsPerThread}
      (hlast : last = some state) (ht : t.desiredState = state) :
      ((s.set index t).threads k).desiredState = (s.threads k).desiredState ∨
        last = some ((s.set index t).threads k).desiredState := by
    by_cases hk : k = index
    · subst hk
      exact .inr (by rw [set_threads_self, hlast, ht])
    · exact .inl (by rw [set_threads_of_ne hk])
  cases hc with
  | setLocked state i hmain =>
    rw [hmain] at hin
    exact hset hin.1 rfl
  | endLocked state i hmain =>
    rw [hmain] at hin
    exact hset hin.1 rfl
  | addSignalled => exact .inl (set_congr Thread.desiredState (signal_desiredState _) k)
  | setSignalled => exact .inl (set_congr Thread.desiredState (signal_desiredState _) k)
  | endSignalled => exact .inl (set_congr Thread.desiredState (signal_desiredState _) k)
  | _ => first | exact .inl rfl | exact .inl (set_congr Thread.desiredState (by rfl) k)

theorem Step.states {calls : List Call} (hs : Step s l s')
    (h : States (lastSets calls) s.threads s.main) :
    States (lastSets (made l ++ calls)) s'.threads s'.main := by
  cases hs with
  | work index now t hw =>
    exact h.set h.within (hw.fits (h.threads index)) fun k _ => ⟨id, fun _ => id, id⟩
  | finish index ret hpc =>
    refine h.set h.within ?_ fun k _ => ⟨id, fun _ => id, id⟩
    exact (h.threads index).goOn (by simp [Thread.Leaves, hpc]) _ rfl
  | spurious index hpc =>
    refine h.set h.within ?_ fun k _ => ⟨id, fun _ => id, id⟩
    exact (h.threads index).goOn (by simp [Thread.Leaves, hpc]) _ rfl
  | call call res hmain =>
    refine ⟨enter_in call, fun k => ?_⟩
    obtain ⟨hholds, hset, hended⟩ := enter_nothing call k
    exact (h.threads k).mono (fun hh => absurd hh hholds) (fun state hs => absurd hs (hset state))
      fun he => absurd he hended
  | main _ hc => exact hc.states h

variable {tr : Trace threadsTotal jobsPerThread}

theorem states_run (hr : (machine threadsTotal jobsPerThread).Run tr s) :
    States (lastSets (calls tr)) s.threads s.main := by
  induction hr with
  | start hi =>
    obtain ⟨-, garbage, rfl⟩ := hi
    refine ⟨trivial, fun k => ⟨?_, ?_, ?_, ?_, ?_⟩⟩ <;>
      simp [start, Pc.inside, Over, calls, lastSets]
  | next _ hs ih => exact (step_cases hs).states ih

omit [NeZero threadsTotal] in
theorem Returned.lastSets {call : Call} (h : Returned call tr s) :
    lastSets (calls tr) = call.sets := by
  rw [Tpoolrr.lastSets, h.1]
  rfl

theorem desiredState_of_returned (hr : (machine threadsTotal jobsPerThread).Run tr s) {call : Call}
    {state : TpoolrrThreadState} (h : Returned call tr s) (hcall : call.sets = some state)
    (k : Fin threadsTotal) : (s.threads k).desiredState = state := by
  apply ((states_run hr).threads k).set state
  rw [h.2, h.lastSets]
  exact hcall

theorem left_of_returned (hr : (machine threadsTotal jobsPerThread).Run tr s) {call : Call}
    {state : TpoolrrThreadState} (h : Returned call tr s) (hcall : call.sets = some state)
    (hover : Over state) (k : Fin threadsTotal) : (s.threads k).pc = .left := by
  apply ((states_run hr).threads k).ended
  rw [h.2, h.lastSets]
  exact ⟨state, hcall, hover⟩

end Pool

end Dert.Tpoolrr
