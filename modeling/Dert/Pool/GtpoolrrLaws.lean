import Dert.Pool.Gtpoolrr
import Mathlib.Data.List.Nodup
import Mathlib.Data.List.Perm.Basic

namespace Dert.Gtpoolrr

open Library

variable {jobsPerThread : Nat}

/-- Everything that one step can do, a constructor for each branch. -/
inductive Step (s : State jobsPerThread) : Label → State jobsPerThread → Prop
  | seen (now) : s.pc = .forEachCqe → s.posted = [] → Step s (.work now) { s with pc := .switch }
  | timeout (now thread posted) : s.pc = .forEachCqe → s.posted = (thread, true) :: posted →
      Step s (.work now) { s with posted }
  | readied (now thread posted readyThreads) : s.pc = .forEachCqe →
      s.posted = (thread, false) :: posted → readyThreads.list = s.readyThreads.list ++ [thread] →
      Step s (.work now) { s with posted, readyThreads }
  | readyFull (now) : s.pc = .forEachCqe → Step s (.work now) { s with pc := .readyFull }
  | active (now) : s.pc = .switch → s.desiredState = .ACTIVE →
      Step s (.work now) { s with currentState := .ACTIVE, pc := .resume }
  | paused (now) : s.pc = .switch → s.desiredState = .PAUSED →
      Step s (.work now) { s with currentState := .PAUSED, pc := .forEachCqe }
  | joining (now) : s.pc = .switch → s.desiredState = .JOINED →
      Step s (.work now) { s with pc := .joinTest }
  | stopped (now why) : s.pc = .switch → s.desiredState = why → why = .STOPPED ∨ why = .CANCELLED →
      Step s (.work now) { s with pc := .left why }
  | joined (now) : s.pc = .joinTest → s.runningThread = none → s.submissionQueue.list = [] →
      s.readyThreads.list = [] → Step s (.work now) { s with pc := .left .JOINED }
  | unjoined (now) : s.pc = .joinTest → ¬ (s.runningThread = none ∧
      s.submissionQueue.length = 0 ∧ s.readyThreads.length = 0) →
      Step s (.work now) { s with pc := .resume }
  | resumed (now thread) : s.pc = .resume → s.runningThread = some thread →
      Step s (.work now) { s with pc := .inJob }
  | chosen (now thread readyThreads) : s.pc = .resume → s.runningThread = none →
      s.readyThreads.list = thread :: readyThreads.list →
      Step s (.work now) { s with readyThreads, runningThread := some thread, pc := .inJob }
  | idle (now) : s.pc = .resume → s.runningThread = none → s.readyThreads.list = [] →
      Step s (.work now) { s with pc := .take }
  | empty (now) : s.pc = .take → s.submissionQueue.list = [] →
      Step s (.work now) { s with pc := .forEachCqe }
  | started (now job submissionQueue memory thread) : s.pc = .take →
      s.submissionQueue.list = job :: submissionQueue.list →
      vpoolAlloc none 2 s.memory s.greenThreads = (memory, some thread) →
      Step s (.work now) { s with
        submissionQueue, job := some job, dequeued := s.dequeued ++ [job]
        flags := Function.update s.flags job.handle 0
        memory, runningThread := some thread, started := s.started + 1, pc := .inJob }
  | noGreenThread (now job submissionQueue memory) : s.pc = .take →
      s.submissionQueue.list = job :: submissionQueue.list →
      vpoolAlloc none 2 s.memory s.greenThreads = (memory, none) →
      Step s (.work now) { s with
        submissionQueue, job := some job, dequeued := s.dequeued ++ [job]
        flags := Function.update s.flags job.handle 0
        memory, pc := .noGreenThread }
  | expired (now job submissionQueue) : s.pc = .take →
      s.submissionQueue.list = job :: submissionQueue.list →
      Step s (.work now) { s with
        submissionQueue, job := some job, dequeued := s.dequeued ++ [job]
        flags := Function.update s.flags job.handle (0 ||| GTPOOLRR_CPS_FLAG_TIMEOUT)
        expired := s.expired + 1, pc := .complete }
  | completed (now job completionQueue) : s.pc = .complete → s.job = some job →
      completionQueue.list = s.completionQueue.list ++ [job] →
      Step s (.work now) { s with
        completionQueue, completed := s.completed ++ [job], pc := .forEachCqe }
  | completionFull (now) : s.pc = .complete → Step s (.work now) { s with pc := .completionFull }
  | destructed (now why) : s.pc = .left why → s.exit = .pending →
      Step s (.work now) { s with currentState := s.desiredState, exit := .destructed }
  | unkeyed (why) : s.pc = .left why → s.exit = .pending → Step s .noKey { s with exit := .noKey }
  | yielded (op thread) : s.pc = .inJob → s.runningThread = some thread → greentDoSubmit op = [] →
      Step s (.yield op) { s with pc := .forEachCqe }
  | submitted (op thread) : s.pc = .inJob → s.runningThread = some thread → greentDoSubmit op ≠ [] →
      Step s (.yield op) { s with
        outstanding := s.outstanding ++ (greentDoSubmit op).map fun timeout => (thread, timeout)
        runningThread := none, pc := .forEachCqe }
  | finished : s.pc = .inJob →
      Step s .finish { s with runningThread := none, finished := s.finished + 1, pc := .complete }
  | posted (i cqe) : s.outstanding[i]? = some cqe → Step s (.post i) { s with
      outstanding := s.outstanding.eraseIdx i, posted := s.posted ++ [cqe] }
  | pushed (expiration submissionQueue) :
      submissionQueue.list = s.submissionQueue.list ++ [⟨s.accepted.length, expiration⟩] →
      Step s (.push expiration) { s with
        submissionQueue, accepted := s.accepted ++ [⟨s.accepted.length, expiration⟩] }
  | submissionFull (expiration) : Step s (.push expiration) s
  | popped (job completionQueue) : s.completionQueue.list = job :: completionQueue.list →
      Step s .pop { s with completionQueue, popped := s.popped + 1 }
  | nonePopped : Step s .pop s
  | acked : s.acknowledged < s.popped → Step s .ack { s with acknowledged := s.acknowledged + 1 }
  | desired (state) : Step s (.desire state) { s with desiredState := state }

variable {s s' : State jobsPerThread} {l : Label}

theorem step_take (h : s.pc = .take) (now : UInt64) : Step s (.work now) (take s now) := by
  rw [take]
  cases hpop : s.submissionQueue.pop with
  | none => exact .empty now h (Fifo.pop_eq_none.mp hpop)
  | some popped =>
    obtain ⟨job, submissionQueue⟩ := popped
    have hlist := Fifo.pop_eq_some hpop
    dsimp only
    split_ifs
    · rcases halloc : vpoolAlloc none 2 s.memory s.greenThreads with ⟨memory, _ | thread⟩
      · exact .noGreenThread now job submissionQueue memory h hlist halloc
      · exact .started now job submissionQueue memory thread h hlist halloc
    · exact .expired now job submissionQueue h hlist

theorem step_work {now : UInt64} (hs : gtpoolrrWorker s now = some s') : Step s (.work now) s' := by
  rw [gtpoolrrWorker] at hs
  split at hs
  next => cases hs
  next hpc =>
    split at hs
    next hposted =>
      cases hs
      exact .seen now hpc hposted
    next hposted =>
      cases hs
      exact .timeout now _ _ hpc hposted
    next hposted =>
      split at hs
      next =>
        cases hs
        exact .readyFull now hpc
      next hready =>
        cases hs
        exact .readied now _ _ _ hpc hposted (Fifo.push_eq_some hready).1
  next hpc =>
    split at hs
    next hdesired =>
      cases hs
      exact .active now hpc hdesired
    next hdesired =>
      cases hs
      exact .paused now hpc hdesired
    next hdesired =>
      cases hs
      exact .joining now hpc hdesired
    next hdesired =>
      cases hs
      exact .stopped now .STOPPED hpc hdesired (.inl rfl)
    next hdesired =>
      cases hs
      exact .stopped now .CANCELLED hpc hdesired (.inr rfl)
  next hpc =>
    split_ifs at hs with htest
    · obtain ⟨hrun, hsub, hready⟩ := htest
      cases hs
      exact .joined now hpc hrun (List.length_eq_zero_iff.mp hsub) (List.length_eq_zero_iff.mp hready)
    · cases hs
      exact .unjoined now hpc htest
  next hpc =>
    split at hs
    next hrun =>
      cases hs
      exact .resumed now _ hpc hrun
    next hrun =>
      split at hs
      next hpop =>
        cases hs
        exact .chosen now _ _ hpc hrun (Fifo.pop_eq_some hpop)
      next hpop =>
        cases hs
        exact .idle now hpc hrun (Fifo.pop_eq_none.mp hpop)
  next hpc =>
    cases hs
    exact step_take hpc now
  next => cases hs
  next hpc =>
    split at hs
    next => cases hs
    next hjob =>
      split at hs
      next =>
        cases hs
        exact .completionFull now hpc
      next hpush =>
        cases hs
        exact .completed now _ _ hpc hjob (Fifo.push_eq_some hpush).1
  next hpc =>
    split at hs
    next hexit =>
      cases hs
      exact .destructed now _ hpc hexit
    next => cases hs
    next => cases hs
  next => cases hs
  next => cases hs
  next => cases hs

theorem step_cases (hs : step s l = some s') : Step s l s' := by
  cases l with
  | work now => exact step_work hs
  | noKey =>
    rw [step] at hs
    split at hs
    next hpc hexit =>
      cases hs
      exact .unkeyed _ hpc hexit
    next => cases hs
  | yield op =>
    rw [step, greentYield] at hs
    split at hs
    next hpc hrun =>
      split at hs
      next hnone =>
        cases hs
        exact .yielded op _ hpc hrun hnone
      next hsome =>
        cases hs
        exact .submitted op _ hpc hrun hsome
    next => cases hs
  | finish =>
    rw [step] at hs
    split at hs
    next hpc =>
      cases hs
      exact .finished hpc
    next => cases hs
  | post i =>
    rw [step] at hs
    split at hs
    next => cases hs
    next hcqe =>
      cases hs
      exact .posted i _ hcqe
  | push expiration =>
    rw [step] at hs
    split at hs
    next =>
      cases hs
      exact .submissionFull expiration
    next hpush =>
      cases hs
      exact .pushed expiration _ (Fifo.push_eq_some hpush).1
  | pop =>
    rw [step] at hs
    split at hs
    next =>
      cases hs
      exact .nonePopped
    next hpop =>
      cases hs
      exact .popped _ _ (Fifo.pop_eq_some hpop)
  | ack =>
    rw [step] at hs
    split_ifs at hs with hlt
    cases hs
    exact .acked hlt
  | desire state =>
    cases hs
    exact .desired state

structure Inv (s : State jobsPerThread) : Prop where
  handles : s.accepted.map GtpoolrrJob.handle = List.range s.accepted.length
  split : s.accepted = s.dequeued ++ s.submissionQueue.list
  running : s.pc = .take ∨ s.pc = .complete → s.runningThread = none
  ready : s.pc = .take → s.readyThreads.list = []
  inJob : s.pc = .inJob → s.runningThread.isSome

theorem start_pc (ring : Bool) (memory : VpoolMemory) (greenThreads : Nat) :
    (start ring memory greenThreads : State jobsPerThread).pc = .forEachCqe ∨
      (start ring memory greenThreads : State jobsPerThread).pc = .noRing := by
  cases ring
  · exact .inr rfl
  · exact .inl rfl

theorem inv_start (ring : Bool) (memory : VpoolMemory) (greenThreads : Nat) :
    Inv (start ring memory greenThreads : State jobsPerThread) := by
  refine ⟨rfl, rfl, fun _ => rfl, fun _ => rfl, fun h => ?_⟩
  rcases start_pc ring memory greenThreads with hpc | hpc <;> cases hpc.symm.trans h

theorem Inv.nodup (h : Inv s) : s.accepted.Nodup := by
  apply List.Nodup.of_map GtpoolrrJob.handle
  rw [h.handles]
  exact List.nodup_range

theorem Inv.step (h : Inv s) (hs : Step s l s') : Inv s' := by
  obtain ⟨hhandles, hsplit, hrunning, hready, hinJob⟩ := h
  cases hs
  case pushed expiration submissionQueue hlist =>
    refine ⟨?_, ?_, hrunning, hready, hinJob⟩
    · rw [List.map_append, List.length_append, hhandles, List.length_singleton, List.range_succ]
      rfl
    · simp only [hlist, ← List.append_assoc, ← hsplit]
  case started hlist _ =>
    refine ⟨hhandles, ?_, by simp, by simp, by simp⟩
    rw [hsplit, hlist, List.append_assoc, List.singleton_append]
  case noGreenThread hlist _ =>
    refine ⟨hhandles, ?_, by simp, by simp, by simp⟩
    rw [hsplit, hlist, List.append_assoc, List.singleton_append]
  case expired hpc hlist =>
    refine ⟨hhandles, ?_, fun _ => hrunning (.inl hpc), by simp, by simp⟩
    rw [hsplit, hlist, List.append_assoc, List.singleton_append]
  all_goals exact ⟨hhandles, hsplit, by simp_all, by simp_all, by simp_all⟩

theorem Inv.fresh (h : Inv s) {job : GtpoolrrJob} {rest : List GtpoolrrJob}
    (hlist : s.submissionQueue.list = job :: rest) : job ∉ s.dequeued := by
  have hnd := h.nodup
  rw [h.split, hlist] at hnd
  intro hmem
  exact (List.nodup_append.mp hnd).2.2 job hmem job List.mem_cons_self rfl

theorem Inv.dequeued_nodup (h : Inv s) : s.dequeued.Nodup := by
  have hnd := h.nodup
  rw [h.split] at hnd
  exact (List.nodup_append.mp hnd).1

def noPools : VpoolMemory :=
  ⟨fun _ => ⟨0, 0, 0, 0, 0, .VPOOL_KIND_STATIC, 0⟩, fun _ => 0⟩

end Dert.Gtpoolrr
