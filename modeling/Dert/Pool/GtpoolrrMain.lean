import Dert.Pool.Gtpoolrr
import Dert.Pool.GtpoolrrPush

namespace Dert.Gtpoolrr

open Library

inductive Popper
  | pop
  | popsome (atMost : Nat)
  | popall (waitFor : Nat)
  deriving DecidableEq

/-- What a push reads of a `struct gtpoolrr_job`. -/
structure SbsJob where
  function : UInt64
  arg : UInt64
  expiration : UInt64
  deriving DecidableEq

/-- Where the main thread is: outside a call, or before a step of one.  A push is that of the
jobs that are left, which the pool numbers as it takes them.  `gtpoolrr_pause` and
`gtpoolrr_resume` set a state, `gtpoolrr_stop_safe` and `gtpoolrr_join` end the threads in one. -/
inductive Main (threadsTotal : Nat)
  | returned (res : Ret)
  | pushRr (jobs : List SbsJob) (i : Nat)
  | pushDirect (index : Fin threadsTotal) (jobs : List SbsJob)
  | cpsPop (popper : Popper) (i : Nat)
  | set (state : GtpoolrrThreadState) (i : Nat)
  | endSet (state : GtpoolrrThreadState) (i : Nat)
  | endTest (state : GtpoolrrThreadState) (i : Fin threadsTotal)
  deriving DecidableEq

/-- The workers of the pool, and its main thread.  `pushed` and `dest` are what the last push and
the last pop have done so far, with the worker of each job, and `delivered` records all pops. -/
structure Pool (threadsTotal jobsPerThread : Nat) where
  workers : Fin threadsTotal → State jobsPerThread
  rrIndex : UInt64
  stopped : Bool
  main : Main threadsTotal
  pushed : List (Fin threadsTotal × GtpoolrrJob)
  dest : List (Fin threadsTotal × GtpoolrrJob)
  delivered : List (Fin threadsTotal × GtpoolrrJob)

/-- What the main thread calls.  `gtpoolrr_stop_unsafe`, which cancels the threads, is not
among it. -/
inductive Call (threadsTotal : Nat)
  | sbsPushRr (job : SbsJob)
  | sbsPushallRr (jobs : List SbsJob)
  | sbsPushDirect (index : Fin threadsTotal) (job : SbsJob)
  | sbsPushallDirect (index : Fin threadsTotal) (jobs : List SbsJob)
  | cpsPop
  | cpsPopsome (atMost : Nat)
  | cpsPopall (waitFor : Nat)
  | pause
  | resume
  | stopSafe
  | join
  deriving DecidableEq

/-- A worker, its job or the kernel takes a step; the main thread acknowledges a job of a worker,
starts a call or takes the next step of one. -/
inductive PoolLabel (threadsTotal : Nat)
  | work (index : Fin threadsTotal) (now : UInt64)
  | noKey (index : Fin threadsTotal)
  | yield (index : Fin threadsTotal) (op : GreentDo)
  | finish (index : Fin threadsTotal)
  | post (index : Fin threadsTotal) (i : Nat)
  | ack (index : Fin threadsTotal)
  | call (call : Call threadsTotal)
  | main
  deriving DecidableEq

variable {threadsTotal jobsPerThread : Nat}

def Pool.set (s : Pool threadsTotal jobsPerThread) (index : Fin threadsTotal)
    (worker : State jobsPerThread) : Pool threadsTotal jobsPerThread :=
  { s with workers := Function.update s.workers index worker }

def Pool.stepWorker (s : Pool threadsTotal jobsPerThread) (index : Fin threadsTotal) (l : Label) :
    Option (Pool threadsTotal jobsPerThread) :=
  (step (s.workers index) l).map (s.set index)

def Pool.queues (s : Pool threadsTotal jobsPerThread) :
    GtpoolrrPool GtpoolrrJob threadsTotal jobsPerThread where
  rrIndex := s.rrIndex
  jobSubmissionQueues index := (s.workers index).submissionQueue

def Pool.pointer (s : Pool threadsTotal jobsPerThread) (index : Fin threadsTotal) (job : SbsJob) :
    GtpoolrrJobPtr GtpoolrrJob :=
  ⟨⟨(s.workers index).accepted.length, job.expiration⟩, job.function, job.arg⟩

def sbsPushDirect (s : Pool threadsTotal jobsPerThread) (index : Fin threadsTotal) (job : SbsJob) :
    Pool threadsTotal jobsPerThread × Ret :=
  let worker := s.workers index
  let pointer := s.pointer index job
  match gtpoolrrSbsPushDirect s.queues index pointer with
  | (queues, res) =>
    if res ≠ .ok then (s, res)
    else
      ({ s.set index { worker with
          submissionQueue := queues.jobSubmissionQueues index
          accepted := worker.accepted ++ [pointer.job] } with
        pushed := s.pushed ++ [(index, pointer.job)] }, .ok)

def threadAlreadyDone : GtpoolrrThreadState → Bool
  | .STOPPED => true
  | .CANCELLED => true
  | .JOINED => true
  | .ACTIVE => false
  | .PAUSED => false

def enter : Call threadsTotal → Main threadsTotal
  | .sbsPushRr job => .pushRr [job] 0
  | .sbsPushallRr jobs => .pushRr jobs 0
  | .sbsPushDirect index job => .pushDirect index [job]
  | .sbsPushallDirect index jobs => .pushDirect index jobs
  | .cpsPop => .cpsPop .pop 0
  | .cpsPopsome atMost => if atMost = 0 then .returned .EINVAL else .cpsPop (.popsome atMost) 0
  | .cpsPopall waitFor => if waitFor = 0 then .returned .EINVAL else .cpsPop (.popall waitFor) 0
  | .pause => .set .PAUSED 0
  | .resume => .set .ACTIVE 0
  | .stopSafe => .endSet .STOPPED 0
  | .join => .endSet .JOINED 0

def Popper.popped (popper : Popper) (n : Nat) : Main threadsTotal :=
  match popper with
  | .pop => .returned .ok
  | .popsome atMost => if n < atMost then .cpsPop popper 0 else .returned .ok
  | .popall waitFor => if n < waitFor then .cpsPop popper 0 else .returned .ok

def Popper.busy : Popper → Main threadsTotal
  | .pop => .returned .EBUSY
  | .popsome _ => .returned .EBUSY
  | .popall waitFor => .cpsPop (.popall waitFor) 0

variable [NeZero threadsTotal]

def Pool.index (s : Pool threadsTotal jobsPerThread) (i : Nat) : Fin threadsTotal :=
  Fin.ofNat threadsTotal (UInt64.ofNat i + s.rrIndex).toNat

def sbsPushRr (s : Pool threadsTotal jobsPerThread) (job : SbsJob) (jobs : List SbsJob) (i : Nat) :
    Pool threadsTotal jobsPerThread :=
  if i = 0 ∧ (job.function = 0 ∨ job.arg = 0) then { s with main := .returned .EINVAL }
  else if i ≤ threadsTotal then
    match sbsPushDirect s (s.index i) job with
    | (s, res) =>
      if res ≠ .ok then { s with main := .returned res }
      else if res = .EXFULL then { s with main := .pushRr (job :: jobs) (i + 1) }
      else { s with rrIndex := s.rrIndex + 1, main := .pushRr jobs 0 }
  else { s with main := .returned .EBUSY }

def cpsPop (s : Pool threadsTotal jobsPerThread) (popper : Popper) (i : Nat) :
    Pool threadsTotal jobsPerThread :=
  if i < threadsTotal then
    let index := s.index i
    let worker := s.workers index
    match worker.completionQueue.pop with
    | some (job, completionQueue) =>
      { s.set index { worker with completionQueue, popped := worker.popped + 1 } with
        rrIndex := UInt64.ofNat ((s.rrIndex + UInt64.ofNat i).toNat % threadsTotal)
        main := popper.popped (s.dest.length + 1)
        dest := s.dest ++ [(index, job)]
        delivered := s.delivered ++ [(index, job)] }
    | none => { s with main := .cpsPop popper (i + 1) }
  else { s with main := popper.busy }

def mainStep (s : Pool threadsTotal jobsPerThread) : Option (Pool threadsTotal jobsPerThread) :=
  match s.main with
  | .returned _ => none
  | .pushRr [] _ => some { s with main := .returned .ok }
  | .pushRr (job :: jobs) i => some (sbsPushRr s job jobs i)
  | .pushDirect _ [] => some { s with main := .returned .ok }
  | .pushDirect index (job :: jobs) =>
    match sbsPushDirect s index job with
    | (s, res) =>
      if res ≠ .ok then some { s with main := .returned res }
      else some { s with main := .pushDirect index jobs }
  | .cpsPop popper i => some (cpsPop s popper i)
  | .set state i =>
    if h : i < threadsTotal then
      some { s.set ⟨i, h⟩ { s.workers ⟨i, h⟩ with desiredState := state } with
        main := .set state (i + 1) }
    else some { s with main := .returned .ok }
  | .endSet state i =>
    if h : i < threadsTotal then
      some { s.set ⟨i, h⟩ { s.workers ⟨i, h⟩ with desiredState := state } with
        main := .endTest state ⟨i, h⟩ }
    else some { s with stopped := true, main := .returned .ok }
  | .endTest state i =>
    if threadAlreadyDone (s.workers i).currentState then
      some { s with main := .endSet state (i + 1) }
    else some { s with main := .endSet state i }

def poolStep (s : Pool threadsTotal jobsPerThread) :
    PoolLabel threadsTotal → Option (Pool threadsTotal jobsPerThread)
  | .work index now => s.stepWorker index (.work now)
  | .noKey index => s.stepWorker index .noKey
  | .yield index op => s.stepWorker index (.yield op)
  | .finish index => s.stepWorker index .finish
  | .post index i => s.stepWorker index (.post i)
  | .ack index => s.stepWorker index .ack
  | .call call =>
    match s.main with
    | .returned _ => some { s with main := enter call, pushed := [], dest := [] }
    | _ => none
  | .main => mainStep s

def startPool (ring : Fin threadsTotal → Bool) (memory : Fin threadsTotal → VpoolMemory)
    (greenThreads : Fin threadsTotal → Nat) : Pool threadsTotal jobsPerThread where
  workers index := start (ring index) (memory index) (greenThreads index)
  rrIndex := 0
  stopped := false
  main := .returned .ok
  pushed := []
  dest := []
  delivered := []

/-- The pool of `gtpoolrr_create`, which refuses a count of zero. -/
def poolMachine (threadsTotal jobsPerThread : Nat) [NeZero threadsTotal] :
    Machine (Pool threadsTotal jobsPerThread) (PoolLabel threadsTotal) where
  init s := 0 < jobsPerThread ∧ ∃ ring memory greenThreads, s = startPool ring memory greenThreads
  step := poolStep

end Dert.Gtpoolrr
