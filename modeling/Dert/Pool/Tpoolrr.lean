import Dert.Base.Prelude
import Dert.Library.Fifo
import Dert.Library.Machine
import Dert.Library.Tally
import Mathlib.Algebra.Order.Group.Multiset

namespace Dert

open Library

inductive TpoolrrThreadState
  | ACTIVE
  | PAUSED
  | JOINED
  | STOPPED
  | CANCELLED
  deriving DecidableEq

/-- `struct tpoolrr_job`.  A pointer is its address, and `NULL` is zero. -/
structure TpoolrrJob where
  userTag : UInt64
  function : UInt64
  arg : UInt64
  expiration : UInt64
  threadAssignedTo : Nat
  ret : UInt64
  flags : UInt64
  deriving DecidableEq

def tpoolrrJobConstruct (uninit : TpoolrrJob) (userTag function arg expiration : UInt64) :
    TpoolrrJob :=
  { uninit with userTag, function, arg, expiration }

abbrev Submission := UInt64 × UInt64 × UInt64 × UInt64

def TpoolrrJob.submitted (job : TpoolrrJob) : Submission :=
  (job.userTag, job.function, job.arg, job.expiration)

namespace Tpoolrr

inductive Owner
  | main
  | worker
  deriving DecidableEq

/-- Where a worker is: before a step of its loop, blocked in `pthread_cond_wait`, in the
function of a job, or out of the loop. -/
inductive Pc
  | lock
  | evaluate
  | condWait
  | waiting
  | wake
  | unlockAwake
  | unlockLeave
  | unlock
  | dequeue
  | run
  | inJob
  | enqueue
  | left
  deriving DecidableEq

/-- What the arrays of the pool hold at one index, with the worker of that index and
its local `job`.  `dropped` records the completions it could not enqueue. -/
structure Thread (jobsPerThread : Nat) where
  submissionQueue : Fifo TpoolrrJob jobsPerThread
  completionQueue : Fifo TpoolrrJob jobsPerThread
  desiredState : TpoolrrThreadState
  currentState : TpoolrrThreadState
  conditionMutex : Option Owner
  pc : Pc
  job : TpoolrrJob
  dropped : List TpoolrrJob

/-- Where the main thread is: outside a call, or before a step of one.  `tpoolrr_pause`
and `tpoolrr_resume` set a state, `tpoolrr_stop_safe` and `tpoolrr_join` end the threads
in one. -/
inductive Main (threadsTotal : Nat)
  | returned (res : Ret)
  | jobsAddScan (job : TpoolrrJob) (i : Nat)
  | jobsAddEnqueue (job : TpoolrrJob) (index : Fin threadsTotal)
  | jobsAddLock (job : TpoolrrJob) (index : Fin threadsTotal)
  | jobsAddSignal (job : TpoolrrJob) (index : Fin threadsTotal)
  | jobsAddUnlock (job : TpoolrrJob) (index : Fin threadsTotal)
  | completionsPopScan (i : Nat)
  | setLock (state : TpoolrrThreadState) (i : Nat)
  | setSignal (state : TpoolrrThreadState) (i : Fin threadsTotal)
  | setUnlock (state : TpoolrrThreadState) (i : Fin threadsTotal)
  | endLock (state : TpoolrrThreadState) (i : Nat)
  | endUnlock (state : TpoolrrThreadState) (i : Fin threadsTotal)
  | endSignal (state : TpoolrrThreadState) (i : Fin threadsTotal)
  | endJoin (state : TpoolrrThreadState) (i : Fin threadsTotal)
  deriving DecidableEq

/-- `accepted` records the jobs whose add returned zero, each with the index of its
queue, and `popped` the completions that were popped, oldest first. -/
structure State (threadsTotal jobsPerThread : Nat) where
  threads : Fin threadsTotal → Thread jobsPerThread
  rrIndex : Nat
  main : Main threadsTotal
  accepted : List (Fin threadsTotal × TpoolrrJob)
  popped : List TpoolrrJob

/-- The calls of the main thread.  `tpoolrr_stop_unsafe` and `tpoolrr_completions_popall` are not
among them. -/
inductive Call
  | jobsAdd (uninit : TpoolrrJob) (userTag function arg expiration now : UInt64)
  | completionsPop
  | pause
  | resume
  | stopSafe
  | join
  deriving DecidableEq

/-- A worker takes its next step, the function of its job returns, or it wakes up though
nobody signalled; the main thread starts a call or takes the next step of one. -/
inductive Label (threadsTotal : Nat)
  | work (index : Fin threadsTotal) (now : UInt64)
  | finish (index : Fin threadsTotal) (ret : UInt64)
  | spurious (index : Fin threadsTotal)
  | call (call : Call)
  | main

variable {threadsTotal jobsPerThread : Nat}

def Thread.lock (t : Thread jobsPerThread) (owner : Owner) : Option (Thread jobsPerThread) :=
  match t.conditionMutex with
  | none => some { t with conditionMutex := some owner }
  | some _ => none

def Thread.unlock (t : Thread jobsPerThread) : Thread jobsPerThread :=
  { t with conditionMutex := none }

/-- `pthread_cond_signal`: only the worker ever waits for its condition. -/
def Thread.signal (t : Thread jobsPerThread) : Thread jobsPerThread :=
  match t.pc with
  | .waiting => { t with pc := .wake }
  | _ => t

def evaluate (t : Thread jobsPerThread) : Thread jobsPerThread :=
  match t.desiredState with
  | .ACTIVE =>
    if t.submissionQueue.length ≠ 0 then { t with currentState := .ACTIVE, pc := .unlock }
    else { t with currentState := .PAUSED, pc := .condWait }
  | .PAUSED => { t with currentState := .PAUSED, pc := .condWait }
  | .JOINED =>
    if t.submissionQueue.length = 0 then { t with currentState := .JOINED, pc := .unlockLeave }
    else { t with currentState := .ACTIVE, pc := .unlock }
  | .STOPPED => { t with currentState := .STOPPED, pc := .unlockLeave }
  | .CANCELLED => { t with currentState := .CANCELLED, pc := .unlockLeave }

def tpoolrrWorker (index : Nat) (now : UInt64) (t : Thread jobsPerThread) :
    Option (Thread jobsPerThread) :=
  match t.pc with
  | .lock => (t.lock .worker).map fun t => { t with pc := .evaluate }
  | .evaluate => some (evaluate t)
  | .condWait => some { t.unlock with pc := .waiting }
  | .waiting => none
  | .wake => (t.lock .worker).map fun t => { t with pc := .unlockAwake }
  | .unlockAwake => some { t.unlock with pc := .lock }
  | .unlockLeave => some { t.unlock with pc := .left }
  | .unlock => some { t.unlock with pc := .dequeue }
  | .dequeue =>
    -- when it fails, `job` is still what it was
    let (job, submissionQueue) := t.submissionQueue.pop.getD (t.job, t.submissionQueue)
    some { t with
      submissionQueue, job := { job with threadAssignedTo := index, flags := 0 }, pc := .run }
  | .run =>
    if t.job.expiration = 0 ∨ now < t.job.expiration then some { t with pc := .inJob }
    else some { t with job := { t.job with ret := 0, flags := 1 }, pc := .enqueue }
  | .inJob => none
  | .enqueue =>
    match t.completionQueue.push t.job with
    | none => some { t with dropped := t.dropped ++ [t.job], pc := .lock }
    | some completionQueue => some { t with completionQueue, pc := .lock }
  | .left => none

def State.set (s : State threadsTotal jobsPerThread) (index : Fin threadsTotal)
    (t : Thread jobsPerThread) : State threadsTotal jobsPerThread :=
  { s with threads := Function.update s.threads index t }

def enter : Call → Main threadsTotal
  | .jobsAdd uninit userTag function arg expiration now =>
    if function = 0 ∨ arg = 0 then .returned .EINVAL
    else
      let expirationAsMonotonicTime := if expiration = 0 then 0 else now + expiration
      .jobsAddScan (tpoolrrJobConstruct uninit userTag function arg expirationAsMonotonicTime) 0
  | .completionsPop => .completionsPopScan 0
  | .pause => .setLock .PAUSED 0
  | .resume => .setLock .ACTIVE 0
  | .stopSafe => .endLock .STOPPED 0
  | .join => .endLock .JOINED 0

variable [NeZero threadsTotal]

def State.index (s : State threadsTotal jobsPerThread) (i : Nat) : Fin threadsTotal :=
  Fin.ofNat threadsTotal (sizeT (i + s.rrIndex))

def _tpoolrrJobsAdd (s : State threadsTotal jobsPerThread) (job : TpoolrrJob) (i : Nat) :
    State threadsTotal jobsPerThread :=
  if i ≤ threadsTotal then
    let index := s.index i
    if (s.threads index).submissionQueue.length = jobsPerThread then
      { s with main := .jobsAddScan job (i + 1) }
    else { s with main := .jobsAddEnqueue job index }
  else { s with main := .returned .EBUSY }

def tpoolrrCompletionsPop (s : State threadsTotal jobsPerThread) (i : Nat) :
    State threadsTotal jobsPerThread :=
  if i < threadsTotal then
    let index := s.index i
    match (s.threads index).completionQueue.pop with
    | some (job, completionQueue) =>
      { s.set index { s.threads index with completionQueue } with
        rrIndex := sizeT (s.rrIndex + i) % threadsTotal
        main := .returned .ok
        popped := s.popped ++ [job] }
    | none => { s with main := .completionsPopScan (i + 1) }
  else { s with main := .returned .EBUSY }

def mainStep (s : State threadsTotal jobsPerThread) : Option (State threadsTotal jobsPerThread) :=
  match s.main with
  | .returned _ => none
  | .jobsAddScan job i => some (_tpoolrrJobsAdd s job i)
  | .jobsAddEnqueue job index =>
    match (s.threads index).submissionQueue.push job with
    | none => some { s with main := .returned .EXFULL }
    | some submissionQueue =>
      some { s.set index { s.threads index with submissionQueue } with main := .jobsAddLock job index }
  | .jobsAddLock job index =>
    ((s.threads index).lock .main).map fun t => { s.set index t with main := .jobsAddSignal job index }
  | .jobsAddSignal job index =>
    some { s.set index (s.threads index).signal with main := .jobsAddUnlock job index }
  | .jobsAddUnlock job index =>
    some { s.set index (s.threads index).unlock with
      rrIndex := sizeT (s.rrIndex + 1)
      main := .returned .ok
      accepted := s.accepted ++ [(index, job)] }
  | .completionsPopScan i => some (tpoolrrCompletionsPop s i)
  | .setLock state i =>
    if h : i < threadsTotal then
      ((s.threads ⟨i, h⟩).lock .main).map fun t =>
        { s.set ⟨i, h⟩ { t with desiredState := state } with main := .setSignal state ⟨i, h⟩ }
    else some { s with main := .returned .ok }
  | .setSignal state i =>
    some { s.set i (s.threads i).signal with main := .setUnlock state i }
  | .setUnlock state i =>
    some { s.set i (s.threads i).unlock with main := .setLock state (i + 1) }
  | .endLock state i =>
    if h : i < threadsTotal then
      ((s.threads ⟨i, h⟩).lock .main).map fun t =>
        { s.set ⟨i, h⟩ { t with desiredState := state } with main := .endUnlock state ⟨i, h⟩ }
    else some { s with main := .returned .ok }
  | .endUnlock state i =>
    let t := s.threads i
    let needToEndThisThread :=
      t.currentState ≠ .JOINED ∧ t.currentState ≠ .STOPPED ∧ t.currentState ≠ .CANCELLED
    some { s.set i t.unlock with
      main := if needToEndThisThread then .endSignal state i else .endLock state (i + 1) }
  | .endSignal state i =>
    some { s.set i (s.threads i).signal with main := .endJoin state i }
  | .endJoin state i =>
    -- `pthread_join`
    match (s.threads i).pc with
    | .left => some { s with main := .endLock state (i + 1) }
    | _ => none

def step (s : State threadsTotal jobsPerThread) :
    Label threadsTotal → Option (State threadsTotal jobsPerThread)
  | .work index now => (tpoolrrWorker index now (s.threads index)).map (s.set index)
  | .finish index ret =>
    let t := s.threads index
    match t.pc with
    | .inJob => some (s.set index { t with job := { t.job with ret }, pc := .enqueue })
    | _ => none
  | .spurious index =>
    let t := s.threads index
    match t.pc with
    | .waiting => some (s.set index { t with pc := .wake })
    | _ => none
  | .call call =>
    match s.main with
    | .returned _ => some { s with main := enter call }
    | _ => none
  | .main => mainStep s

/-- What `tpoolrr_init` leaves; `garbage` is in the workers' uninitialised locals. -/
def start (garbage : Fin threadsTotal → TpoolrrJob) : State threadsTotal jobsPerThread where
  threads index :=
    { submissionQueue := .empty
      completionQueue := .empty
      desiredState := .ACTIVE
      currentState := .ACTIVE
      conditionMutex := none
      pc := .lock
      job := garbage index
      dropped := [] }
  rrIndex := 0
  main := .returned .ok
  accepted := []
  popped := []

/-- The pool of `tpoolrr_create`, which refuses a count of zero.  The queues are apart from each
other, as they are in a block whose size does not wrap. -/
def machine (threadsTotal jobsPerThread : Nat) [NeZero threadsTotal] :
    Machine (State threadsTotal jobsPerThread) (Label threadsTotal) where
  init s := 0 < jobsPerThread ∧ ∃ garbage, s = start garbage
  step := step

omit [NeZero threadsTotal]

def Thread.held (t : Thread jobsPerThread) : List TpoolrrJob :=
  match t.pc with
  | .run => [t.job]
  | .inJob => [t.job]
  | .enqueue => [t.job]
  | _ => []

/-- The job of an add that has enqueued it and is about to return zero. -/
def Main.published : Main threadsTotal → List TpoolrrJob
  | .jobsAddLock job _ => [job]
  | .jobsAddSignal job _ => [job]
  | .jobsAddUnlock job _ => [job]
  | _ => []

def submissions (jobs : List TpoolrrJob) : Multiset Submission :=
  jobs.map TpoolrrJob.submitted

def State.Drained (s : State threadsTotal jobsPerThread) : Prop :=
  ∀ index, (s.threads index).submissionQueue.list = [] ∧ (s.threads index).held = []

instance (s : State threadsTotal jobsPerThread) : Decidable s.Drained :=
  inferInstanceAs (Decidable (∀ _, _ ∧ _))

/-- The jobs whose add returned zero, or is about to, are those that were popped with
those in the completion queues. -/
def State.NoneLost (s : State threadsTotal jobsPerThread) : Prop :=
  submissions (s.accepted.map Prod.snd) + submissions s.main.published =
    submissions s.popped + tally (fun t => submissions t.completionQueue.list) s.threads

instance (s : State threadsTotal jobsPerThread) : Decidable s.NoneLost :=
  inferInstanceAs (Decidable (_ = _))

def Overfull (s : State threadsTotal jobsPerThread) (l : Label threadsTotal) : Prop :=
  ∃ index now, l = .work index now ∧ (s.threads index).pc = .enqueue ∧
    (s.threads index).completionQueue.length = jobsPerThread

end Tpoolrr

end Dert
