import Dert.Base.Prelude
import Dert.Library.Fifo
import Dert.Library.Machine
import Dert.Store.Vpool

namespace Dert

open Library

inductive GtpoolrrThreadState
  | ACTIVE
  | PAUSED
  | JOINED
  | STOPPED
  | CANCELLED
  deriving DecidableEq

structure GtpoolrrJob where
  handle : Nat
  expiration : UInt64
  deriving DecidableEq

def GTPOOLRR_CPS_FLAG_TIMEOUT : UInt64 := 1

structure Timespec where
  tvSec : Nat
  tvNsec : Nat
  tvNsec_lt : tvNsec < 1000000000

def gtMonotonicTimeNow (spec : Timespec) : UInt64 :=
  let seconds := UInt64.ofNat spec.tvSec
  let milliseconds := UInt64.ofNat (spec.tvNsec / 1000000)
  seconds * 1000 + milliseconds

def gtpoolrrSbsSetExpiration (job : GtpoolrrJob) (nanosecondsFromNow : UInt64) (spec : Timespec) :
    GtpoolrrJob :=
  { job with expiration := gtMonotonicTimeNow spec + nanosecondsFromNow }

/-- The clock is read for each of the jobs. -/
def gtpoolrrSbsSetExpirations (jobs : List GtpoolrrJob) (nanosecondsFromNow : UInt64)
    (spec : Nat → Timespec) : List GtpoolrrJob :=
  jobs.mapIdx fun i job => gtpoolrrSbsSetExpiration job nanosecondsFromNow (spec i)

inductive GreentDo
  | NOP
  | IOURING_READ
  | IOURING_WRITE
  | IOURING_OPEN
  | IOURING_CLOSE
  | IOURING_READT
  | IOURING_WRITET
  deriving DecidableEq

/-- `greent_do_submit`: the operations it submits to the ring, each with whether it is
the timeout of the one before. -/
def greentDoSubmit : GreentDo → List Bool
  | .NOP => []
  | .IOURING_READT => [false, true]
  | .IOURING_WRITET => [false, true]
  | _ => [false]

def greentAdvise : Nat := 1240

namespace Gtpoolrr

/-- Where the worker is: before a step of its loop, in the function of a job, out of the
loop, or in an assertion that failed.  At `noRing` it has returned at once, without a state set,
because `io_uring_queue_init` failed, or `pthread_create` has not created it. -/
inductive Pc
  | noRing
  | forEachCqe
  | switch
  | joinTest
  | resume
  | take
  | inJob
  | complete
  | left (why : GtpoolrrThreadState)
  | readyFull
  | noGreenThread
  | completionFull
  deriving DecidableEq

/-- How a worker that is out of its loop has returned: not yet, with the destructor that sets its
state, or without one, because `pthread_key_create` or `pthread_setspecific` failed. -/
inductive Exit
  | pending
  | destructed
  | noKey
  deriving DecidableEq

/-- One worker.  A green thread is the address of its `Greent`.  The ring holds the
operations the kernel works on and the completions it has posted, each with its green
thread and whether it is a timeout.  `job` is a local of the worker's own frame, which
is not part of the stack that a green thread saves.  The flags of the jobs are in memory, by
handle.  The last fields record the past. -/
structure State (jobsPerThread : Nat) where
  pc : Pc
  desiredState : GtpoolrrThreadState
  currentState : GtpoolrrThreadState
  exit : Exit
  submissionQueue : Fifo GtpoolrrJob jobsPerThread
  completionQueue : Fifo GtpoolrrJob jobsPerThread
  readyThreads : Fifo Nat jobsPerThread
  memory : VpoolMemory
  greenThreads : Nat
  runningThread : Option Nat
  job : Option GtpoolrrJob
  flags : Nat → UInt64
  outstanding : List (Nat × Bool)
  posted : List (Nat × Bool)
  accepted : List GtpoolrrJob
  dequeued : List GtpoolrrJob
  completed : List GtpoolrrJob
  started : Nat
  finished : Nat
  expired : Nat
  popped : Nat
  acknowledged : Nat

/-- The worker takes its next step, or returns without a destructor; the job it runs yields or
returns; the kernel posts a completion; the main thread submits a job, pops or acknowledges a
completed one, or sets the desired state. -/
inductive Label
  | work (now : UInt64)
  | noKey
  | yield (op : GreentDo)
  | finish
  | post (i : Nat)
  | push (expiration : UInt64)
  | pop
  | ack
  | desire (state : GtpoolrrThreadState)

variable {jobsPerThread : Nat}

def take (s : State jobsPerThread) (now : UInt64) : State jobsPerThread :=
  match s.submissionQueue.pop with
  | none => { s with pc := .forEachCqe }
  | some (job, submissionQueue) =>
    let s := { s with submissionQueue, job := some job, dequeued := s.dequeued ++ [job] }
    if job.expiration = 0 ∨ job.expiration > now then
      let s := { s with flags := Function.update s.flags job.handle 0 }
      match vpoolAlloc none 2 s.memory s.greenThreads with
      | (memory, none) => { s with memory, pc := .noGreenThread }
      | (memory, some thread) =>
        { s with memory, runningThread := some thread, started := s.started + 1, pc := .inJob }
    else
      let flags := Function.update s.flags job.handle (0 ||| GTPOOLRR_CPS_FLAG_TIMEOUT)
      { s with flags, expired := s.expired + 1, pc := .complete }

def gtpoolrrWorker (s : State jobsPerThread) (now : UInt64) : Option (State jobsPerThread) :=
  match s.pc with
  | .noRing => none
  | .forEachCqe =>
    match s.posted with
    | [] => some { s with pc := .switch }
    | (_, true) :: posted => some { s with posted }
    | (waitingThread, false) :: posted =>
      match s.readyThreads.push waitingThread with
      | none => some { s with pc := .readyFull }
      | some readyThreads => some { s with posted, readyThreads }
  | .switch =>
    match s.desiredState with
    | .ACTIVE => some { s with currentState := .ACTIVE, pc := .resume }
    | .PAUSED => some { s with currentState := .PAUSED, pc := .forEachCqe }
    | .JOINED => some { s with pc := .joinTest }
    | .STOPPED => some { s with pc := .left .STOPPED }
    | .CANCELLED => some { s with pc := .left .CANCELLED }
  | .joinTest =>
    if s.runningThread = none ∧ s.submissionQueue.length = 0 ∧ s.readyThreads.length = 0 then
      some { s with pc := .left .JOINED }
    else some { s with pc := .resume }
  | .resume =>
    match s.runningThread with
    | some _ => some { s with pc := .inJob }
    | none =>
      match s.readyThreads.pop with
      | some (thread, readyThreads) =>
        some { s with readyThreads, runningThread := some thread, pc := .inJob }
      | none => some { s with pc := .take }
  | .take => some (take s now)
  | .inJob => none
  | .complete =>
    match s.job with
    | none => none
    | some job =>
      match s.completionQueue.push job with
      | none => some { s with pc := .completionFull }
      | some completionQueue =>
        some { s with completionQueue, completed := s.completed ++ [job], pc := .forEachCqe }
  -- the destructor of the thread, which runs once
  | .left _ =>
    match s.exit with
    | .pending => some { s with currentState := s.desiredState, exit := .destructed }
    | .destructed => none
    | .noKey => none
  | .readyFull => none
  | .noGreenThread => none
  | .completionFull => none

def greentYield (s : State jobsPerThread) (op : GreentDo) : Option (State jobsPerThread) :=
  match s.pc, s.runningThread with
  | .inJob, some thread =>
    match greentDoSubmit op with
    | [] => some { s with pc := .forEachCqe }
    | submissions =>
      some { s with
        outstanding := s.outstanding ++ submissions.map fun timeout => (thread, timeout)
        runningThread := none
        pc := .forEachCqe }
  | _, _ => none

def step (s : State jobsPerThread) : Label → Option (State jobsPerThread)
  | .work now => gtpoolrrWorker s now
  | .noKey =>
    match s.pc, s.exit with
    | .left _, .pending => some { s with exit := .noKey }
    | _, _ => none
  | .yield op => greentYield s op
  | .finish =>
    match s.pc with
    | .inJob => some { s with runningThread := none, finished := s.finished + 1, pc := .complete }
    | _ => none
  | .post i =>
    match s.outstanding[i]? with
    | none => none
    | some cqe => some { s with outstanding := s.outstanding.eraseIdx i, posted := s.posted ++ [cqe] }
  | .push expiration =>
    let job := ⟨s.accepted.length, expiration⟩
    match s.submissionQueue.push job with
    | none => some s
    | some submissionQueue => some { s with submissionQueue, accepted := s.accepted ++ [job] }
  | .pop =>
    match s.completionQueue.pop with
    | none => some s
    | some (_, completionQueue) => some { s with completionQueue, popped := s.popped + 1 }
  | .ack => if s.acknowledged < s.popped then some { s with acknowledged := s.acknowledged + 1 } else none
  | .desire state => some { s with desiredState := state }

def start (ring : Bool) (memory : VpoolMemory) (greenThreads : Nat) : State jobsPerThread where
  pc := if ring then .forEachCqe else .noRing
  desiredState := .ACTIVE
  currentState := .ACTIVE
  exit := .pending
  submissionQueue := .empty
  completionQueue := .empty
  readyThreads := .empty
  memory := (vpoolInit memory greenThreads jobsPerThread greentAdvise .VPOOL_KIND_STATIC).1
  greenThreads
  runningThread := none
  job := none
  flags := fun _ => 0
  outstanding := []
  posted := []
  accepted := []
  dequeued := []
  completed := []
  started := 0
  finished := 0
  expired := 0
  popped := 0
  acknowledged := 0

def machine (jobsPerThread : Nat) : Machine (State jobsPerThread) Label where
  init s := 0 < jobsPerThread ∧ ∃ ring memory greenThreads, s = start ring memory greenThreads
  step := step

/-- The green threads whose operation the kernel has not completed, or whose completion
the worker has not seen. -/
def State.parked (s : State jobsPerThread) : List Nat :=
  ((s.outstanding ++ s.posted).filter fun cqe => cqe.2 = false).map Prod.fst

/-- The jobs that were accepted and not yet completed and acknowledged. -/
def State.pending (s : State jobsPerThread) : Nat := s.accepted.length - s.acknowledged

end Gtpoolrr

end Dert
