import Dert.Library.Scan
import Dert.Library.Tally
import Dert.Pool.TpoolrrCompletions

namespace Dert

open Library

def Ret.errno : Ret → Int
  | .ok => 0
  | .EINVAL => 22
  | .ENOMEM => 12
  | .ENOTRECOVERABLE => 131
  | .EXFULL => 54
  | .ENODATA => 61
  | .EBUSY => 16

namespace Tpoolrr

/-- What the calls of an add return, zero when they succeed.  `mutexUnlockError` is the
unlock under the label. -/
structure PthreadResults where
  mutexLock : Int
  condSignal : Int
  mutexUnlock : Int
  mutexUnlockError : Int

inductive PthreadCall
  | mutexLock (index : Nat) (res : Int)
  | condSignal (index : Nat) (res : Int)
  | mutexUnlock (index : Nat) (res : Int)
  deriving DecidableEq

structure AddPool (threadsTotal jobsPerThread : Nat) where
  jobSubmissionQueues : Fin threadsTotal → Fifo TpoolrrJob jobsPerThread
  rrIndex : Nat

structure AddResult (threadsTotal jobsPerThread : Nat) where
  pool : AddPool threadsTotal jobsPerThread
  calls : List PthreadCall
  ret : Int

variable {threadsTotal jobsPerThread : Nat}

def AddPool.put (pool : AddPool threadsTotal jobsPerThread) (index : Fin threadsTotal)
    (queue : Fifo TpoolrrJob jobsPerThread) : AddPool threadsTotal jobsPerThread :=
  { pool with jobSubmissionQueues := Function.update pool.jobSubmissionQueues index queue }

/-- What stands under the label `_tpoolrr_jobs_add_error`. -/
def _tpoolrrJobsAddError (pthread : PthreadResults) (pool : AddPool threadsTotal jobsPerThread)
    (calls : List PthreadCall) (i : Nat) (lockedMutexFromHere : Bool) (res : Int) :
    AddResult threadsTotal jobsPerThread where
  pool := pool
  calls :=
    if lockedMutexFromHere then calls ++ [.mutexUnlock i pthread.mutexUnlockError] else calls
  ret := res

def _tpoolrrJobsAddNotify (pthread : PthreadResults) (pool : AddPool threadsTotal jobsPerThread)
    (i : Nat) (index : Fin threadsTotal) : AddResult threadsTotal jobsPerThread :=
  let calls := [.mutexLock index pthread.mutexLock]
  if pthread.mutexLock ≠ 0 then
    _tpoolrrJobsAddError pthread pool calls i false pthread.mutexLock
  else
    let calls := calls ++ [.condSignal index pthread.condSignal]
    if pthread.condSignal ≠ 0 then
      _tpoolrrJobsAddError pthread pool calls i true pthread.condSignal
    else
      let calls := calls ++ [.mutexUnlock index pthread.mutexUnlock]
      if pthread.mutexUnlock ≠ 0 then
        _tpoolrrJobsAddError pthread pool calls i true pthread.mutexUnlock
      else { pool := { pool with rrIndex := sizeT (pool.rrIndex + 1) }, calls, ret := 0 }

section Definitions

variable [NeZero threadsTotal]

def AddPool.index (pool : AddPool threadsTotal jobsPerThread) (i : Nat) : Fin threadsTotal :=
  Fin.ofNat threadsTotal (sizeT (i + pool.rrIndex))

def _tpoolrrJobsAddLoop (pthread : PthreadResults) (pool : AddPool threadsTotal jobsPerThread)
    (job : TpoolrrJob) (i : Nat) : Nat → AddResult threadsTotal jobsPerThread
  | 0 => _tpoolrrJobsAddError pthread pool [] i false Ret.EBUSY.errno
  | left + 1 =>
    let index := pool.index i
    if (pool.jobSubmissionQueues index).length = jobsPerThread then
      _tpoolrrJobsAddLoop pthread pool job (i + 1) left
    else
      match (pool.jobSubmissionQueues index).push job with
      | none => _tpoolrrJobsAddError pthread pool [] i false Ret.EXFULL.errno
      | some queue => _tpoolrrJobsAddNotify pthread (pool.put index queue) i index

/-- `_tpoolrr_jobs_add` of a pool whose workers are idle and whose pthread calls may fail. -/
def _tpoolrrJobsAddAlone (pthread : PthreadResults) (pool : AddPool threadsTotal jobsPerThread)
    (job : TpoolrrJob) : AddResult threadsTotal jobsPerThread :=
  if job.function = 0 ∨ job.arg = 0 then { pool, calls := [], ret := Ret.EINVAL.errno }
  else _tpoolrrJobsAddLoop pthread pool job 0 (threadsTotal + 1)

/-- The tries of `tpoolrr_jobs_addall` for one job, where `res` is of the last one.  It sleeps
only after `EBUSY`, but goes on after any error. -/
def tpoolrrJobsAddallTries (job : TpoolrrJob) :
    List PthreadResults → AddPool threadsTotal jobsPerThread → Int →
      AddPool threadsTotal jobsPerThread × Int
  | [], pool, res => (pool, res)
  | pthread :: pthreads, pool, _ =>
    let added := _tpoolrrJobsAddAlone pthread pool job
    if added.ret = 0 then (added.pool, 0)
    else tpoolrrJobsAddallTries job pthreads added.pool added.ret

end Definitions

structure Unlocks (calls : List PthreadCall) : Prop where
  own : ∀ index, .mutexUnlock index 0 ∈ calls → .mutexLock index 0 ∈ calls
  all : ∀ index, .mutexLock index 0 ∈ calls → ∃ res, .mutexUnlock index res ∈ calls

/-- An add that fails puts the job on no queue, and no add leaves a mutex locked or unlocks one
that it has not locked. -/
structure Clean (pool : AddPool threadsTotal jobsPerThread)
    (added : AddResult threadsTotal jobsPerThread) : Prop where
  unchanged : added.ret ≠ 0 → added.pool.jobSubmissionQueues = pool.jobSubmissionQueues
  unlocks : Unlocks added.calls

section Errors

variable {pthread : PthreadResults} {pool : AddPool threadsTotal jobsPerThread} {job : TpoolrrJob}
  {index : Fin threadsTotal} {i left : Nat}

def PthreadResults.Succeed (pthread : PthreadResults) : Prop :=
  pthread.mutexLock = 0 ∧ pthread.condSignal = 0 ∧ pthread.mutexUnlock = 0

instance (pthread : PthreadResults) : Decidable pthread.Succeed :=
  inferInstanceAs (Decidable (_ ∧ _))

theorem notify_queues : (_tpoolrrJobsAddNotify pthread pool i index).pool.jobSubmissionQueues =
    pool.jobSubmissionQueues := by
  simp only [_tpoolrrJobsAddNotify]
  split_ifs <;> rfl

theorem notify_ret :
    (_tpoolrrJobsAddNotify pthread pool i index).ret = 0 ↔ pthread.Succeed := by
  simp only [_tpoolrrJobsAddNotify, PthreadResults.Succeed]
  split_ifs with hlock hsignal hunlock
  · simp [_tpoolrrJobsAddError, hlock]
  · simp [_tpoolrrJobsAddError, hsignal]
  · simp [_tpoolrrJobsAddError, hunlock]
  · simp_all

theorem unlocks_signalled {k : Nat} {res error : Int} :
    Unlocks [.mutexLock k 0, .condSignal k res, .mutexUnlock i error] ↔ i = k := by
  constructor
  · intro h
    obtain ⟨res, hres⟩ := h.all k (by simp)
    have hk : k = i ∧ res = error := by simpa using hres
    exact hk.1.symm
  · rintro rfl
    exact ⟨by simp, by simp⟩

theorem unlocks_unlocked {k : Nat} {res resUnlock error : Int} (hunlock : resUnlock ≠ 0) :
    Unlocks [.mutexLock k 0, .condSignal k res, .mutexUnlock k resUnlock, .mutexUnlock i error] ↔
      i = k ∨ error ≠ 0 := by
  constructor
  · intro h
    refine or_iff_not_imp_right.mpr fun herror => ?_
    have hown := h.own i (by simp [not_not.mp herror])
    simpa using hown
  · intro h
    refine ⟨fun j hj => ?_, by simp⟩
    have hj : j = i ∧ 0 = error := by simpa [Ne.symm hunlock] using hj
    have hi : i = k := h.resolve_right (not_not.mpr hj.2.symm)
    simp [hj.1, hi]

theorem notify_pool (hsucceed : pthread.Succeed) :
    (_tpoolrrJobsAddNotify pthread pool i index).pool =
      ⟨pool.jobSubmissionQueues, sizeT (pool.rrIndex + 1)⟩ := by
  obtain ⟨hlock, hsignal, hunlock⟩ := hsucceed
  simp [_tpoolrrJobsAddNotify, hlock, hsignal, hunlock]

theorem notify_pool_fails (hfails : ¬ pthread.Succeed) :
    (_tpoolrrJobsAddNotify pthread pool i index).pool = pool := by
  simp only [_tpoolrrJobsAddNotify]
  split_ifs with hlock hsignal hunlock
  · rfl
  · rfl
  · rfl
  · exact absurd ⟨not_not.mp hlock, not_not.mp hsignal, not_not.mp hunlock⟩ hfails

/-- The label unlocks by the count of the rounds. -/
theorem notify_unlocks : Unlocks (_tpoolrrJobsAddNotify pthread pool i index).calls ↔
    pthread.mutexLock ≠ 0 ∨ pthread.Succeed ∨ i = index ∨
      pthread.condSignal = 0 ∧ pthread.mutexUnlockError ≠ 0 := by
  simp only [_tpoolrrJobsAddNotify, PthreadResults.Succeed]
  split_ifs with hlock hsignal hunlock
  · refine iff_of_true ⟨by simp [_tpoolrrJobsAddError], ?_⟩ (.inl hlock)
    simp [_tpoolrrJobsAddError, Ne.symm hlock]
  · simp only [not_not] at hlock
    simp [_tpoolrrJobsAddError, hlock, hsignal, unlocks_signalled]
  · simp only [not_not] at hlock hsignal
    simp [_tpoolrrJobsAddError, hlock, hsignal, hunlock, unlocks_unlocked]
  · simp only [not_not] at hlock hsignal hunlock
    refine iff_of_true ⟨?_, ?_⟩ (.inr (.inl ⟨hlock, hsignal, hunlock⟩))
    · simp [hlock, hunlock]
    · simp [hlock, hunlock]

theorem clean_notify {queue : Fifo TpoolrrJob jobsPerThread}
    (hqueue : queue.list = (pool.jobSubmissionQueues index).list ++ [job]) :
    Clean pool (_tpoolrrJobsAddNotify pthread (pool.put index queue) i index) ↔
      pthread.Succeed := by
  constructor
  · intro h
    by_contra hfails
    have hsame := h.unchanged (mt notify_ret.mp hfails)
    rw [notify_queues] at hsame
    have hlist := congrArg Fifo.list (congrFun hsame index)
    simp [AddPool.put, hqueue] at hlist
  · intro hsucceed
    exact ⟨fun hret => absurd (notify_ret.mpr hsucceed) hret,
      notify_unlocks.mpr (.inr (.inl hsucceed))⟩

variable [NeZero threadsTotal]

def AddPool.hasRoom (pool : AddPool threadsTotal jobsPerThread) (i : Nat) : Bool :=
  (pool.jobSubmissionQueues (pool.index i)).length ≠ jobsPerThread

theorem loop_full (hfull : (pool.jobSubmissionQueues (pool.index i)).length = jobsPerThread) :
    _tpoolrrJobsAddLoop pthread pool job i (left + 1) =
      _tpoolrrJobsAddLoop pthread pool job (i + 1) left := if_pos hfull

theorem loop_room (hroom : (pool.jobSubmissionQueues (pool.index i)).length ≠ jobsPerThread) :
    ∃ queue, (pool.jobSubmissionQueues (pool.index i)).push job = some queue ∧
      _tpoolrrJobsAddLoop pthread pool job i (left + 1) =
        _tpoolrrJobsAddNotify pthread (pool.put (pool.index i) queue) i (pool.index i) := by
  have hlt := Nat.lt_of_le_of_ne (pool.jobSubmissionQueues (pool.index i)).bounded hroom
  refine ⟨_, Fifo.push_of_lt hlt job, ?_⟩
  rw [_tpoolrrJobsAddLoop]
  simp only [Fifo.push_of_lt hlt]
  exact if_neg hroom

theorem loop_cases (pthread : PthreadResults) (pool : AddPool threadsTotal jobsPerThread)
    (job : TpoolrrJob) (i left : Nat) :
    (List.range' i left).find? pool.hasRoom = none ∧ _tpoolrrJobsAddLoop pthread pool job i left =
        { pool, calls := [], ret := Ret.EBUSY.errno } ∨
      ∃ n queue, (List.range' i left).find? pool.hasRoom = some n ∧
        queue.list = (pool.jobSubmissionQueues (pool.index n)).list ++ [job] ∧
        _tpoolrrJobsAddLoop pthread pool job i left =
          _tpoolrrJobsAddNotify pthread (pool.put (pool.index n) queue) n (pool.index n) := by
  induction left generalizing i with
  | zero => exact .inl ⟨rfl, rfl⟩
  | succ left ih =>
    rw [List.range'_succ]
    by_cases hfull : (pool.jobSubmissionQueues (pool.index i)).length = jobsPerThread
    · rw [List.find?_cons_of_neg (by simpa [AddPool.hasRoom] using hfull), loop_full hfull]
      exact ih (i + 1)
    · obtain ⟨queue, hpush, hloop⟩ := loop_room hfull
      rw [List.find?_cons_of_pos (by simpa [AddPool.hasRoom] using hfull)]
      exact .inr ⟨i, queue, rfl, (Fifo.push_eq_some hpush).1, hloop⟩

theorem firstRoom_eq_none : (List.range' 0 (threadsTotal + 1)).find? pool.hasRoom = none ↔
    ∀ i ≤ threadsTotal,
      (pool.jobSubmissionQueues (pool.index i)).length = jobsPerThread := by
  rw [List.find?_eq_none]
  constructor
  · intro hnone i hi
    have hmem : i ∈ List.range' 0 (threadsTotal + 1) := List.mem_range'_1.mpr (by omega)
    simpa [AddPool.hasRoom] using hnone i hmem
  · intro hfull i hmem
    have hi := List.mem_range'_1.mp hmem
    simpa [AddPool.hasRoom] using hfull i (by omega)

/-- An add is clean on errors exactly when it is refused before it puts the job on a queue, or
when no call fails. -/
theorem clean_iff (pthread : PthreadResults) (pool : AddPool threadsTotal jobsPerThread)
    (job : TpoolrrJob) :
    Clean pool (_tpoolrrJobsAddAlone pthread pool job) ↔
      (job.function = 0 ∨ job.arg = 0) ∨
      (∀ i ≤ threadsTotal, (pool.jobSubmissionQueues (pool.index i)).length = jobsPerThread) ∨
      pthread.Succeed := by
  rw [_tpoolrrJobsAddAlone]
  split_ifs with hnull
  · exact iff_of_true ⟨fun _ => rfl, by simp, by simp⟩ (.inl hnull)
  · rw [← firstRoom_eq_none]
    rcases loop_cases pthread pool job 0 (threadsTotal + 1) with
      ⟨hnone, hloop⟩ | ⟨n, queue, hsome, hqueue, hloop⟩
    · rw [hloop]
      exact iff_of_true ⟨fun _ => rfl, by simp, by simp⟩ (.inr (.inl hnone))
    · rw [hloop, clean_notify hqueue, hsome]
      simp [hnull]

def secondNext : AddPool 2 1 := ⟨fun _ => .empty, 1⟩

theorem clean_iff_succeed : Clean secondNext
    (_tpoolrrJobsAddAlone ⟨0, 0, 0, 0⟩ secondNext ⟨7, 1, 1, 0, 0, 0, 0⟩) :=
  (clean_iff _ _ _).mpr (.inr (.inr ⟨rfl, rfl, rfl⟩))

/-- The signal fails: the job stays, and the mutex of the other thread is unlocked. -/
theorem not_clean_signal : ¬ Clean secondNext
    (_tpoolrrJobsAddAlone ⟨0, 22, 0, 0⟩ secondNext ⟨7, 1, 1, 0, 0, 0, 0⟩) := by
  intro h
  have hown := h.unlocks.own 0 (by decide)
  exact absurd hown (by decide)

def AddPool.queued (pool : AddPool threadsTotal jobsPerThread) : Nat :=
  tally Fifo.length pool.jobSubmissionQueues

def AddPool.free (pool : AddPool threadsTotal jobsPerThread) : Nat :=
  tally Fifo.room pool.jobSubmissionQueues

omit [NeZero threadsTotal] in
theorem put_counts {queue : Fifo TpoolrrJob jobsPerThread}
    (hqueue : queue.list = (pool.jobSubmissionQueues index).list ++ [job]) :
    (pool.put index queue).queued = 1 + pool.queued ∧
      pool.free = 1 + (pool.put index queue).free := by
  have hlength : queue.length = 1 + (pool.jobSubmissionQueues index).length := by
    rw [Fifo.length, hqueue, List.length_append, Nat.add_comm]
    rfl
  have hroom : (pool.jobSubmissionQueues index).room = 1 + queue.room := by
    have hbound : queue.length ≤ jobsPerThread := queue.bounded
    rw [Fifo.room, Fifo.room]
    omega
  exact ⟨tally_give hlength, tally_take hroom⟩

theorem firstRoom_of_free (hword : threadsTotal + pool.rrIndex < sizeMax) (hfree : pool.free ≠ 0) :
    (List.range' 0 (threadsTotal + 1)).find? pool.hasRoom ≠ none := by
  intro hnone
  refine hfree (tally_zero fun k => ?_)
  obtain ⟨i, hi, rfl⟩ := exists_turn pool.rrIndex k
  have hfull := firstRoom_eq_none.mp hnone i hi.le
  rw [AddPool.index, sizeT_of_lt (by omega), Nat.add_comm] at hfull
  rw [Fifo.room, hfull, Nat.sub_self]

/-- A try that fails after it has put the job on a queue does not take it back, and the next
one puts it there again. -/
theorem tries_queued {pthreads : List PthreadResults} (hjob : ¬ (job.function = 0 ∨ job.arg = 0))
    (hword : threadsTotal + pool.rrIndex < sizeMax) (hfails : ∀ p ∈ pthreads, ¬ p.Succeed)
    (hfree : pthreads.length ≤ pool.free) (res : Int) :
    (tpoolrrJobsAddallTries job pthreads pool res).1.queued = pool.queued + pthreads.length ∧
      (pthreads ≠ [] → (tpoolrrJobsAddallTries job pthreads pool res).2 ≠ 0) := by
  induction pthreads generalizing pool res with
  | nil => exact ⟨rfl, fun h => absurd rfl h⟩
  | cons pthread pthreads ih =>
    obtain ⟨hfail, hfails⟩ := List.forall_mem_cons.mp hfails
    rw [List.length_cons] at hfree ⊢
    have hadd : _tpoolrrJobsAddAlone pthread pool job =
        _tpoolrrJobsAddLoop pthread pool job 0 (threadsTotal + 1) := if_neg hjob
    rcases loop_cases pthread pool job 0 (threadsTotal + 1) with
      ⟨hnone, -⟩ | ⟨n, queue, -, hqueue, hloop⟩
    · exact absurd hnone (firstRoom_of_free hword (by omega))
    · have hret : (_tpoolrrJobsAddAlone pthread pool job).ret ≠ 0 := by
        rw [hadd, hloop]
        exact mt notify_ret.mp hfail
      have hpool : (_tpoolrrJobsAddAlone pthread pool job).pool =
          pool.put (pool.index n) queue := by
        rw [hadd, hloop, notify_pool_fails hfail]
      obtain ⟨hqueued, hput⟩ := put_counts hqueue
      have htries : tpoolrrJobsAddallTries job (pthread :: pthreads) pool res =
          tpoolrrJobsAddallTries job pthreads (pool.put (pool.index n) queue)
            (_tpoolrrJobsAddAlone pthread pool job).ret := by
        rw [tpoolrrJobsAddallTries, ← hpool]
        exact if_neg hret
      have hword' : threadsTotal + (pool.put (pool.index n) queue).rrIndex < sizeMax := hword
      obtain ⟨hih, hihret⟩ :=
        ih hword' hfails (by omega) (_tpoolrrJobsAddAlone pthread pool job).ret
      rw [htries]
      refine ⟨by rw [hih, hqueued]; omega, fun _ => ?_⟩
      cases pthreads with
      | nil => exact hret
      | cons => exact hihret (by simp)

end Errors

theorem tries_queued_twice :
    (tpoolrrJobsAddallTries ⟨7, 1, 1, 0, 0, 0, 0⟩ [⟨0, 22, 0, 0⟩, ⟨16, 0, 0, 0⟩] secondNext
      0).1.queued = 2 :=
  (tries_queued (by decide) (by decide) (by decide) (by decide) 0).1

section Machine

variable {s s' t : State threadsTotal jobsPerThread} {job : TpoolrrJob} {i left n : Nat}
  {index : Fin threadsTotal} {pthread : PthreadResults}

def State.addPool (s : State threadsTotal jobsPerThread) : AddPool threadsTotal jobsPerThread :=
  ⟨fun k => (s.threads k).submissionQueue, s.rrIndex⟩

theorem addPool_set (s : State threadsTotal jobsPerThread) (index : Fin threadsTotal)
    (t : Thread jobsPerThread) :
    (s.set index t).addPool = s.addPool.put index t.submissionQueue := by
  refine congrArg (AddPool.mk · s.rrIndex) (funext fun k => ?_)
  by_cases hk : k = index
  · subst hk
    rw [set_threads_self, Function.update_self]
  · rw [set_threads_of_ne hk, Function.update_of_ne hk]
    rfl

theorem addPool_set_same {t : Thread jobsPerThread}
    (ht : t.submissionQueue = (s.threads index).submissionQueue) :
    (s.set index t).addPool = s.addPool := by
  rw [addPool_set, ht]
  exact congrArg (AddPool.mk · s.rrIndex) (Function.update_eq_self index _)

variable [NeZero threadsTotal]

theorem exec_main (hs : mainStep s = some s')
    (he : (machine threadsTotal jobsPerThread).exec s' (List.replicate n .main) = some t) :
    (machine threadsTotal jobsPerThread).exec s (List.replicate (n + 1) .main) = some t := by
  rw [List.replicate_succ]
  exact Machine.exec_cons hs he

theorem exec_notify (hmain : s.main = .jobsAddLock job index)
    (hfree : (s.threads index).conditionMutex = none) :
    ∃ s', (machine threadsTotal jobsPerThread).exec s (List.replicate 3 .main) = some s' ∧
      s'.main = .returned .ok ∧
      s'.addPool = ⟨s.addPool.jobSubmissionQueues, sizeT (s.rrIndex + 1)⟩ := by
  let locked : State threadsTotal jobsPerThread :=
    { s.set index { s.threads index with conditionMutex := some .main } with
      main := .jobsAddSignal job index }
  let signalled : State threadsTotal jobsPerThread :=
    { locked.set index (locked.threads index).signal with main := .jobsAddUnlock job index }
  have hlock : mainStep s = some locked := by
    simp only [mainStep, hmain, Thread.lock, hfree, Option.map_some]
    rfl
  have hsignal : mainStep locked = some signalled := rfl
  refine ⟨_, exec_main hlock (exec_main hsignal (exec_main rfl rfl)), rfl, ?_⟩
  · have hlocked : locked.addPool = s.addPool := addPool_set_same rfl
    have hsignalled : signalled.addPool = locked.addPool :=
      addPool_set_same (like_signal _).submissionQueue
    have hunlocked : (signalled.set index (signalled.threads index).unlock).addPool =
        signalled.addPool := addPool_set_same rfl
    have hqueues := congrArg AddPool.jobSubmissionQueues
      (hunlocked.trans (hsignalled.trans hlocked))
    exact congrArg (AddPool.mk · (sizeT (s.rrIndex + 1))) hqueues

theorem exec_round (hmain : s.main = .jobsAddEnqueue job index)
    (hfree : (s.threads index).conditionMutex = none) {queue : Fifo TpoolrrJob jobsPerThread}
    (hpush : (s.threads index).submissionQueue.push job = some queue) :
    ∃ s', (machine threadsTotal jobsPerThread).exec s (List.replicate 4 .main) = some s' ∧
      s'.main = .returned .ok ∧ s'.addPool =
        ⟨(s.addPool.put index queue).jobSubmissionQueues, sizeT (s.rrIndex + 1)⟩ := by
  let put : State threadsTotal jobsPerThread :=
    { s.set index { s.threads index with submissionQueue := queue } with
      main := .jobsAddLock job index }
  have hput : put.addPool = s.addPool.put index queue := addPool_set ..
  have henqueue : mainStep s = some put := by
    simp only [mainStep, hmain, hpush]
    rfl
  have hmutex : (put.threads index).conditionMutex = none := by
    simpa [put] using hfree
  obtain ⟨s', hexec, hreturned, hpool⟩ := exec_notify rfl hmutex
  exact ⟨s', exec_main henqueue hexec, hreturned, by rw [hpool, hput]; rfl⟩

theorem exec_jobsAdd (hmain : s.main = .jobsAddScan job i) (hleft : i + left = threadsTotal + 1)
    (hfree : ∀ k, (s.threads k).conditionMutex = none) (hsucceed : pthread.Succeed) :
    ∃ n s' res, (machine threadsTotal jobsPerThread).exec s (List.replicate n .main) = some s' ∧
      s'.main = .returned res ∧
      res.errno = (_tpoolrrJobsAddLoop pthread s.addPool job i left).ret ∧
      s'.addPool = (_tpoolrrJobsAddLoop pthread s.addPool job i left).pool := by
  have hstep : mainStep s = some (_tpoolrrJobsAdd s job i) := by rw [mainStep, hmain]
  induction left generalizing s i with
  | zero =>
    have hend : ¬ i ≤ threadsTotal := by omega
    rw [_tpoolrrJobsAdd, if_neg hend] at hstep
    exact ⟨1, _, .EBUSY, exec_main hstep rfl, rfl, rfl, rfl⟩
  | succ left ih =>
    have hi : i ≤ threadsTotal := by omega
    rw [_tpoolrrJobsAdd, if_pos hi] at hstep
    by_cases hfull : (s.threads (s.index i)).submissionQueue.length = jobsPerThread
    · simp only [hfull, if_true] at hstep
      let next : State threadsTotal jobsPerThread := { s with main := .jobsAddScan job (i + 1) }
      have hnext : next.main = .jobsAddScan job (i + 1) := rfl
      obtain ⟨n, s', res, hexec, hrest⟩ := ih hnext (by omega) hfree rfl
      rw [loop_full hfull]
      exact ⟨n + 1, s', res, exec_main hstep hexec, hrest⟩
    · simp only [hfull, if_false] at hstep
      have hroom : (s.addPool.jobSubmissionQueues (s.addPool.index i)).length ≠ jobsPerThread :=
        hfull
      obtain ⟨queue, hpush, hloop⟩ := loop_room hroom
      let found : State threadsTotal jobsPerThread :=
        { s with main := .jobsAddEnqueue job (s.index i) }
      have hfound : found.main = .jobsAddEnqueue job (s.index i) := rfl
      obtain ⟨s', hexec, hreturned, hpool⟩ := exec_round hfound (hfree (s.index i)) hpush
      refine ⟨5, s', .ok, exec_main hstep hexec, hreturned, ?_, ?_⟩
      · rw [hloop]
        exact (notify_ret.mpr hsucceed).symm
      · rw [hloop, notify_pool hsucceed, hpool]
        rfl

/-- A call of `tpoolrr_jobs_add` in the pool, where no call fails and no worker takes a step, does
what the function does. -/
theorem jobsAdd_alone {res : Ret} (hmain : s.main = .returned res)
    (hfree : ∀ k, (s.threads k).conditionMutex = none) (hsucceed : pthread.Succeed)
    (uninit : TpoolrrJob) (userTag function arg expiration now : UInt64) :
    ∃ n s' res', (machine threadsTotal jobsPerThread).exec s
        (.call (.jobsAdd uninit userTag function arg expiration now) :: List.replicate n .main) =
          some s' ∧ s'.main = .returned res' ∧
      let added := _tpoolrrJobsAddAlone pthread s.addPool (tpoolrrJobConstruct uninit userTag
        function arg (if expiration = 0 then 0 else now + expiration))
      res'.errno = added.ret ∧ s'.addPool = added.pool := by
  let job := tpoolrrJobConstruct uninit userTag function arg
    (if expiration = 0 then 0 else now + expiration)
  let called : State threadsTotal jobsPerThread :=
    { s with main := enter (.jobsAdd uninit userTag function arg expiration now) }
  have hcall : (machine threadsTotal jobsPerThread).step s
      (.call (.jobsAdd uninit userTag function arg expiration now)) = some called := by
    simp only [machine, step, hmain]
    rfl
  by_cases hnull : function = 0 ∨ arg = 0
  · refine ⟨0, called, .EINVAL, Machine.exec_cons hcall rfl, if_pos hnull, ?_⟩
    have halone : _tpoolrrJobsAddAlone pthread s.addPool job =
        { pool := s.addPool, calls := [], ret := Ret.EINVAL.errno } := if_pos hnull
    exact ⟨by rw [halone], by rw [halone]; rfl⟩
  · have hscan : called.main = .jobsAddScan job 0 := if_neg hnull
    have halone : _tpoolrrJobsAddAlone pthread s.addPool job =
        _tpoolrrJobsAddLoop pthread s.addPool job 0 (threadsTotal + 1) := if_neg hnull
    obtain ⟨n, s', res', hexec, hres, hret, hpool⟩ :=
      exec_jobsAdd hscan (Nat.zero_add (threadsTotal + 1)) hfree hsucceed
    exact ⟨n, s', res', Machine.exec_cons hcall hexec, hres, by rw [halone]; exact hret,
      by rw [halone]; exact hpool⟩

theorem jobsAdd_alone_first : ∃ n s', (machine 2 1).exec (start fun _ => zeroJob : State 2 1)
      (.call (.jobsAdd zeroJob 7 1 1 5 100) :: List.replicate n .main) = some s' ∧
    (s'.addPool.jobSubmissionQueues 0).list = [⟨7, 1, 1, 105, 0, 0, 0⟩] ∧
      s'.addPool.rrIndex = 1 := by
  have hmain : (start fun _ => zeroJob : State 2 1).main = .returned .ok := rfl
  have hsucceed : PthreadResults.Succeed ⟨0, 0, 0, 0⟩ := ⟨rfl, rfl, rfl⟩
  obtain ⟨n, s', res', hexec, -, -, hpool⟩ :=
    jobsAdd_alone hmain (fun _ => rfl) hsucceed zeroJob 7 1 1 5 100
  exact ⟨n, s', hexec, by rw [hpool]; rfl, by rw [hpool]; rfl⟩

end Machine

end Tpoolrr

end Dert
