import Dert.Library.Settling
import Dert.Pool.GtpoolrrPops

namespace Dert.Gtpoolrr

open Library

variable {threadsTotal jobsPerThread : Nat}

inductive Pusher (threadsTotal : Nat)
  | rr
  | direct (index : Fin threadsTotal)

variable {pusher : Pusher threadsTotal} {s s' t : Pool threadsTotal jobsPerThread}
  {jobs jobs' : List SbsJob}

def Pusher.main : Pusher threadsTotal → List SbsJob → Main threadsTotal
  | .rr, jobs => .pushRr jobs 0
  | .direct index, jobs => .pushDirect index jobs

def Pusher.next : Pusher threadsTotal → UInt64 → UInt64
  | .rr, rrIndex => rrIndex + 1
  | .direct _, rrIndex => rrIndex

def Pusher.index [NeZero threadsTotal] (pusher : Pusher threadsTotal)
    (s : Pool threadsTotal jobsPerThread) (i : Nat) : Fin threadsTotal :=
  match pusher with
  | .rr => s.index i
  | .direct index => index

theorem Step.accepted {w w' : State jobsPerThread} {l : Label} (hs : Step w l w')
    (hown : l.own = true) : w'.accepted = w.accepted := by
  cases hs <;> first | rfl | cases hown

def Main.res : Main threadsTotal → Ret
  | .returned res => res
  | _ => .ok

theorem Pusher.res_main (pusher : Pusher threadsTotal) (jobs : List SbsJob) :
    (pusher.main jobs).res = .ok := by
  cases pusher <;> rfl

theorem queues_set (s : Pool threadsTotal jobsPerThread) (index : Fin threadsTotal)
    (worker : State jobsPerThread) :
    (s.set index worker).queues.jobSubmissionQueues =
      Function.update s.queues.jobSubmissionQueues index worker.submissionQueue := by
  funext k
  by_cases hk : k = index
  · subst hk
    simp [Pool.queues, Pool.set]
  · simp [Pool.queues, Pool.set, hk]

def stepsLeft (jobs : List SbsJob) (t : Pool threadsTotal jobsPerThread) : Nat :=
  match t.main with
  | .returned _ => 0
  | _ => jobs.length - t.pushed.length + 1

theorem stepsLeft_main (hmain : t.main = pusher.main jobs') :
    stepsLeft jobs t = jobs.length - t.pushed.length + 1 := by
  cases pusher <;> simp [stepsLeft, hmain, Pusher.main]

theorem stepsLeft_returned {res : Ret} (hmain : t.main = .returned res) : stepsLeft jobs t = 0 := by
  simp [stepsLeft, hmain]

variable [NeZero threadsTotal]

/-- The function that pushes one job, on the queues of the pool. -/
def Pusher.push (pusher : Pusher threadsTotal) (s : Pool threadsTotal jobsPerThread)
    (job : SbsJob) : GtpoolrrPool GtpoolrrJob threadsTotal jobsPerThread × Ret :=
  match pusher with
  | .rr => gtpoolrrSbsPushRr s.queues (s.pointer (s.index 0) job)
  | .direct index => gtpoolrrSbsPushDirect s.queues index (s.pointer index job)

inductive PushStep (s : Pool threadsTotal jobsPerThread) (pusher : Pusher threadsTotal) :
    List SbsJob → Pool threadsTotal jobsPerThread → Prop
  | done : PushStep s pusher [] { s with main := .returned .ok }
  | null (job : SbsJob) (jobs : List SbsJob) : job.Null →
      PushStep s pusher (job :: jobs) { s with main := .returned .EINVAL }
  | full (job : SbsJob) (jobs : List SbsJob) : ¬ job.Null →
      (s.workers (pusher.index s 0)).submissionQueue.length = jobsPerThread →
      PushStep s pusher (job :: jobs) { s with main := .returned .EXFULL }
  | pushed (job : SbsJob) (jobs : List SbsJob) (submissionQueue) : ¬ job.Null →
      (s.workers (pusher.index s 0)).submissionQueue.push
        ⟨(s.workers (pusher.index s 0)).accepted.length, job.expiration⟩ = some submissionQueue →
      PushStep s pusher (job :: jobs) {
        s.set (pusher.index s 0)
          ((s.workers (pusher.index s 0)).pushed job.expiration submissionQueue) with
        pushed := s.pushed ++
          [(pusher.index s 0, ⟨(s.workers (pusher.index s 0)).accepted.length, job.expiration⟩)]
        rrIndex := pusher.next s.rrIndex
        main := pusher.main jobs }

theorem pushStep_cases (hmain : s.main = pusher.main jobs) (hs : mainStep s = some s') :
    PushStep s pusher jobs s' := by
  cases pusher with
  | rr =>
    rw [Pusher.main] at hmain
    cases jobs with
    | nil =>
      simp only [mainStep, hmain, Option.some.injEq] at hs
      subst hs
      exact .done
    | cons job jobs =>
      simp only [mainStep, hmain, Option.some.injEq] at hs
      subst hs
      rw [sbsPushRr]
      split_ifs with hnull hi
      · exact .null job jobs hnull.2
      · have hpush := sbsPushDirect_cases s (s.index 0) job
        generalize sbsPushDirect s (s.index 0) job = pushed at hpush
        cases hpush with
        | null hnull => exact .null job jobs hnull
        | full hnull hfull => exact .full job jobs hnull hfull
        | pushed submissionQueue hnull hpush => exact .pushed job jobs submissionQueue hnull hpush
      · exact absurd (Nat.zero_le _) hi
  | direct index =>
    rw [Pusher.main] at hmain
    cases jobs with
    | nil =>
      simp only [mainStep, hmain, Option.some.injEq] at hs
      subst hs
      exact .done
    | cons job jobs =>
      have hpush := sbsPushDirect_cases s index job
      simp only [mainStep, hmain] at hs
      generalize sbsPushDirect s index job = pushed at hs hpush
      cases hpush with
      | null hnull =>
        cases hs
        exact .null job jobs hnull
      | full hnull hfull =>
        cases hs
        exact .full job jobs hnull hfull
      | pushed submissionQueue hnull hpush =>
        cases hs
        exact .pushed job jobs submissionQueue hnull hpush

theorem exists_pushStep (hmain : s.main = pusher.main jobs) : ∃ s', mainStep s = some s' := by
  cases pusher with
  | rr => cases jobs <;> simp [mainStep, hmain, Pusher.main]
  | direct index =>
    cases jobs with
    | nil => simp [mainStep, hmain, Pusher.main]
    | cons job jobs =>
      simp only [mainStep, hmain, Pusher.main]
      split <;> exact ⟨_, rfl⟩

theorem Pusher.push_of_null {job : SbsJob} (hnull : job.Null) :
    pusher.push s job = (s.queues, .EINVAL) := by
  cases pusher with
  | rr => exact if_pos hnull
  | direct index => exact gtpoolrrSbsPushDirect_of_null hnull

theorem index_zero (s : Pool threadsTotal jobsPerThread) :
    Fin.ofNat threadsTotal s.queues.rrIndex.toNat = s.index 0 := by
  rw [Pool.index, show UInt64.ofNat 0 + s.rrIndex = s.rrIndex from UInt64.zero_add _]
  rfl

theorem Pusher.push_of_full {job : SbsJob} (hnull : ¬ job.Null)
    (hfull : (s.workers (pusher.index s 0)).submissionQueue.length = jobsPerThread) :
    pusher.push s job = (s.queues, .EXFULL) := by
  cases pusher with
  | rr =>
    have hpush : (s.queues.jobSubmissionQueues (s.index 0)).push (s.pointer (s.index 0) job).job =
        none := Fifo.push_of_full hfull _
    rw [Pusher.push, pushRr_eq (not_or.mp hnull).1 (not_or.mp hnull).2, index_zero, hpush]
  | direct index => exact gtpoolrrSbsPushDirect_of_none hnull (Fifo.push_of_full hfull _)

theorem Pusher.push_of_some {job : SbsJob} {submissionQueue : Fifo GtpoolrrJob jobsPerThread}
    (hnull : ¬ job.Null) (hpush : (s.workers (pusher.index s 0)).submissionQueue.push
      ⟨(s.workers (pusher.index s 0)).accepted.length, job.expiration⟩ = some submissionQueue) :
    pusher.push s job = (⟨pusher.next s.rrIndex,
      Function.update s.queues.jobSubmissionQueues (pusher.index s 0) submissionQueue⟩, .ok) := by
  cases pusher with
  | rr =>
    have hpush : (s.queues.jobSubmissionQueues (s.index 0)).push (s.pointer (s.index 0) job).job =
        some submissionQueue := hpush
    rw [Pusher.push, pushRr_eq (not_or.mp hnull).1 (not_or.mp hnull).2, index_zero, hpush]
    rfl
  | direct index => exact gtpoolrrSbsPushDirect_of_some hnull hpush

theorem PushStep.refines {job : SbsJob} (hs : PushStep s pusher jobs s')
    (hjob : jobs.head? = some job) : pusher.push s job = (s'.queues, s'.main.res) := by
  cases hs with
  | done => cases hjob
  | null _ _ hnull =>
    cases hjob
    exact Pusher.push_of_null hnull
  | full _ _ hnull hfull =>
    cases hjob
    exact Pusher.push_of_full hnull hfull
  | pushed _ rest submissionQueue hnull hpush =>
    cases hjob
    rw [Pusher.push_of_some hnull hpush, Pusher.res_main]
    have hqueues := queues_set s (pusher.index s 0)
      ((s.workers (pusher.index s 0)).pushed job.expiration submissionQueue)
    exact congrArg (fun queues => (GtpoolrrPool.mk (pusher.next s.rrIndex) queues, Ret.ok))
      hqueues.symm

theorem PushStep.returns {res : Ret} (hs : PushStep s pusher jobs s')
    (hres : s'.main = .returned res) : res = .ok ∧ jobs = [] ∨
      ∃ job rest, jobs = job :: rest ∧ (res = .EINVAL ∧ job.Null ∨ res = .EXFULL ∧ ¬ job.Null ∧
        (s.workers (pusher.index s 0)).submissionQueue.length = jobsPerThread) := by
  cases hs with
  | done =>
    cases hres
    exact .inl ⟨rfl, rfl⟩
  | null job rest hnull =>
    cases hres
    exact .inr ⟨job, rest, rfl, .inl ⟨rfl, hnull⟩⟩
  | full job rest hnull hfull =>
    cases hres
    exact .inr ⟨job, rest, rfl, .inr ⟨rfl, hnull, hfull⟩⟩
  | pushed => cases pusher <;> cases hres

theorem Pusher.index_next (pusher : Pusher threadsTotal) (i : Nat)
    (hrr : s'.rrIndex = pusher.next s.rrIndex) : pusher.index s' i = pusher.index s (i + 1) := by
  cases pusher with
  | rr =>
    have hturn : UInt64.ofNat i + (s.rrIndex + 1) = UInt64.ofNat (i + 1) + s.rrIndex := by
      rw [UInt64.ofNat_add, show UInt64.ofNat 1 = 1 from rfl]
      ac_rfl
    rw [Pusher.index, Pusher.index, Pool.index, Pool.index, hrr, Pusher.next, hturn]
  | direct index => rfl

/-- What a push of `jobs` that began in `s` has done so far. -/
structure Pushing (pusher : Pusher threadsTotal) (jobs : List SbsJob)
    (s t : Pool threadsTotal jobsPerThread) : Prop where
  expirations : t.pushed.map (fun p => p.2.expiration) =
    (jobs.take t.pushed.length).map SbsJob.expiration
  valid : ∀ job ∈ jobs.take t.pushed.length, ¬ job.Null
  workers : t.pushed.map Prod.fst = (List.range t.pushed.length).map (pusher.index s)
  accepted : ∀ k, (t.workers k).accepted = (s.workers k).accepted ++ jobsOf k t.pushed
  turn : ∀ i, pusher.index t i = pusher.index s (i + t.pushed.length)
  main : t.main = pusher.main (jobs.drop t.pushed.length) ∧ t.pushed.length ≤ jobs.length ∨
    t.main = .returned .ok ∧ t.pushed.length = jobs.length ∨
      ∃ job, jobs[t.pushed.length]? = some job ∧
        (t.main = .returned .EINVAL ∧ job.Null ∨ t.main = .returned .EXFULL ∧ ¬ job.Null)

theorem Pushing.worker (h : Pushing pusher jobs s t) {index : Fin threadsTotal}
    {worker : State jobsPerThread} (hw : worker.accepted = (t.workers index).accepted) :
    Pushing pusher jobs s (t.set index worker) := by
  refine ⟨h.expirations, h.valid, h.workers, fun k => ?_, fun i => ?_, h.main⟩
  · by_cases hk : k = index
    · subst hk
      rw [set_workers_self, hw]
      exact h.accepted k
    · rw [set_workers_of_ne worker hk]
      exact h.accepted k
  · refine Eq.trans ?_ (h.turn i)
    cases pusher <;> rfl

theorem Pushing.fails (h : Pushing pusher jobs s t) {main : Main threadsTotal}
    (hmain : main = .returned .ok ∧ t.pushed.length = jobs.length ∨
      ∃ job, jobs[t.pushed.length]? = some job ∧
        (main = .returned .EINVAL ∧ job.Null ∨ main = .returned .EXFULL ∧ ¬ job.Null)) :
    Pushing pusher jobs s { t with main } := by
  refine ⟨h.expirations, h.valid, h.workers, h.accepted, fun i => ?_, .inr hmain⟩
  refine Eq.trans ?_ (h.turn i)
  cases pusher <;> rfl

theorem Pushing.pushed (h : Pushing pusher jobs s t) {job : SbsJob} {rest : List SbsJob}
    (hrest : jobs.drop t.pushed.length = job :: rest) (hnull : ¬ job.Null)
    (submissionQueue : Fifo GtpoolrrJob jobsPerThread) :
    Pushing pusher jobs s
      { t.set (pusher.index t 0)
          ((t.workers (pusher.index t 0)).pushed job.expiration submissionQueue) with
        pushed := t.pushed ++
          [(pusher.index t 0, ⟨(t.workers (pusher.index t 0)).accepted.length, job.expiration⟩)]
        rrIndex := pusher.next t.rrIndex
        main := pusher.main rest } := by
  have hlt : t.pushed.length < jobs.length :=
    List.length_lt_of_drop_ne_nil (hrest ▸ List.cons_ne_nil _ _)
  have hrest' : jobs[t.pushed.length] = job ∧ jobs.drop (t.pushed.length + 1) = rest := by
    rw [List.drop_eq_getElem_cons hlt, List.cons.injEq] at hrest
    exact hrest
  have htake : jobs.take (t.pushed.length + 1) = jobs.take t.pushed.length ++ [job] := by
    rw [List.take_succ_eq_append_getElem hlt, hrest'.1]
  have hindex : pusher.index t 0 = pusher.index s t.pushed.length := by
    rw [h.turn 0, Nat.zero_add]
  refine ⟨?_, ?_, ?_, fun k => ?_, fun i => ?_, .inl ⟨?_, ?_⟩⟩
  · simp only [List.map_append, List.length_append, List.length_singleton, h.expirations, htake]
    rfl
  · simp only [List.length_append, List.length_singleton, htake, List.mem_append,
      List.mem_singleton]
    rintro other (hmem | rfl)
    · exact h.valid other hmem
    · exact hnull
  · simp only [List.map_append, List.length_append, List.length_singleton, h.workers,
      List.range_succ, hindex]
    rfl
  · simp only [jobsOf_append, ← List.append_assoc, ← h.accepted k]
    by_cases hk : k = pusher.index t 0
    · subst hk
      rw [set_workers_self, jobsOf_self]
      rfl
    · rw [set_workers_of_ne _ hk, jobsOf_of_ne hk, List.append_nil]
  · rw [pusher.index_next i rfl, h.turn (i + 1), List.length_append, List.length_singleton]
    congr 1
    omega
  · rw [List.length_append, List.length_singleton, hrest'.2]
  · rw [List.length_append, List.length_singleton]
    exact hlt

theorem Pushing.round (h : Pushing pusher jobs s t) {rest : List SbsJob}
    (hrest : jobs.drop t.pushed.length = rest) (hmain : t.main = pusher.main rest)
    (hlength : t.pushed.length ≤ jobs.length) {t' : Pool threadsTotal jobsPerThread}
    (hs : PushStep t pusher rest t') :
    Pushing pusher jobs s t' ∧ stepsLeft jobs t' + 1 ≤ stepsLeft jobs t := by
  have hleft : stepsLeft jobs t = jobs.length - t.pushed.length + 1 := stepsLeft_main hmain
  cases hs with
  | done =>
    have hall : t.pushed.length = jobs.length :=
      Nat.le_antisymm hlength (List.drop_eq_nil_iff.mp hrest)
    refine ⟨h.fails (.inl ⟨rfl, hall⟩), ?_⟩
    rw [stepsLeft_returned rfl, hleft]
    omega
  | null job rest hnull =>
    refine ⟨h.fails (.inr ⟨job, ?_, .inl ⟨rfl, hnull⟩⟩), ?_⟩
    · rw [← List.head?_drop, hrest, List.head?_cons]
    · rw [stepsLeft_returned rfl, hleft]
      omega
  | full job rest hnull =>
    refine ⟨h.fails (.inr ⟨job, ?_, .inr ⟨rfl, hnull⟩⟩), ?_⟩
    · rw [← List.head?_drop, hrest, List.head?_cons]
    · rw [stepsLeft_returned rfl, hleft]
      omega
  | pushed job rest submissionQueue hnull =>
    have hpushed := h.pushed hrest hnull submissionQueue
    refine ⟨hpushed, ?_⟩
    have hlt : t.pushed.length < jobs.length :=
      List.length_lt_of_drop_ne_nil (hrest ▸ List.cons_ne_nil _ _)
    rw [stepsLeft_main rfl, hleft, List.length_append, List.length_singleton]
    omega

theorem Pushing.step (h : Pushing pusher jobs s t) {l : PoolLabel threadsTotal}
    {t' : Pool threadsTotal jobsPerThread} (hs : PoolStep t l t') (hl : l.within = true) :
    Pushing pusher jobs s t' ∧
      stepsLeft jobs t' + (decide (l = .main)).toNat ≤ stepsLeft jobs t := by
  cases hs with
  | worker _ index own worker hpart hw =>
    refine ⟨h.worker ((step_cases hw).accepted (part_own hpart)), ?_⟩
    rw [decide_eq_false (part_ne_main hpart)]
    exact Nat.le_refl _
  | called => cases hl
  | main _ hs =>
    rw [decide_eq_true rfl, Bool.toNat_true]
    rcases h.main with ⟨hmain, hlength⟩ | ⟨hmain, -⟩ | ⟨_, -, ⟨hmain, -⟩ | ⟨hmain, -⟩⟩
    · exact h.round rfl hmain hlength (pushStep_cases hmain hs)
    · simp [mainStep_returned hmain] at hs
    · simp [mainStep_returned hmain] at hs
    · simp [mainStep_returned hmain] at hs

/-- The push of some jobs, round robin or to one worker, whatever the workers do meanwhile: the
first so many of the jobs are accepted, each by the worker whose turn it is, behind all that this
worker had accepted before.  It returns zero when these are all, and else `EINVAL`, when the next
one has no function or no argument, or `EXFULL`, when the queue for it is full, and never waits.
Each step does what the function that pushes one job does. -/
theorem pushes_run {call : Call threadsTotal} {r : Pool threadsTotal jobsPerThread}
    {later : List (Pool threadsTotal jobsPerThread × PoolLabel threadsTotal)}
    (hcall : poolStep r (.call call) = some s) (hpusher : enter call = pusher.main jobs)
    (hl : ((poolMachine threadsTotal jobsPerThread).after s).Run later t)
    (hwithin : ∀ p ∈ later, p.2.within = true) :
    t.pushed.map (fun p => p.2.expiration) = (jobs.take t.pushed.length).map SbsJob.expiration ∧
      (∀ job ∈ jobs.take t.pushed.length, ¬ job.Null) ∧
      t.pushed.map Prod.fst = (List.range t.pushed.length).map (pusher.index s) ∧
      (∀ k, (t.workers k).accepted = (s.workers k).accepted ++ jobsOf k t.pushed) ∧
      later.countP (fun p => p.2 = .main) ≤ jobs.length + 1 ∧
      (t.main = .returned .ok ∧ t.pushed.length = jobs.length ∨
        (∃ job, jobs[t.pushed.length]? = some job ∧
          (t.main = .returned .EINVAL ∧ job.Null ∨ t.main = .returned .EXFULL ∧ ¬ job.Null)) ∨
        ∃ t', mainStep t = some t' ∧
          (∀ res, t'.main = .returned res → res = .ok ∧ t.pushed.length = jobs.length ∨
            ∃ job, jobs[t.pushed.length]? = some job ∧ (res = .EINVAL ∧ job.Null ∨
              res = .EXFULL ∧ ¬ job.Null ∧
                (t.workers (pusher.index s t.pushed.length)).submissionQueue.length =
                  jobsPerThread)) ∧
          ∀ job, jobs[t.pushed.length]? = some job →
            pusher.push t job = (t'.queues, t'.main.res)) := by
  have hstart : Pushing pusher jobs s s ∧ stepsLeft jobs s = jobs.length + 1 := by
    obtain ⟨-, rfl⟩ := poolStep_call hcall
    refine ⟨⟨rfl, by simp, rfl, fun k => (List.append_nil _).symm, fun i => rfl,
      .inl ⟨hpusher, Nat.zero_le _⟩⟩, ?_⟩
    rw [stepsLeft_main hpusher]
    rfl
  have hspends : (poolMachine threadsTotal jobsPerThread).Spends (Pushing pusher jobs s)
      (fun _ l => l.within = true) (stepsLeft jobs) fun _ l => decide (l = .main) :=
    fun t l t' h hl hs => h.step (poolStep_cases hs) hl
  obtain ⟨hend, hcount⟩ := hspends.count_le hstart.1 hl hwithin
  refine ⟨hend.expirations, hend.valid, hend.workers, hend.accepted, by omega, ?_⟩
  rcases hend.main with ⟨hmain, hlength⟩ | hok | hfails
  · obtain ⟨t', ht'⟩ := exists_pushStep hmain
    have hpush := pushStep_cases hmain ht'
    refine .inr (.inr ⟨t', ht', fun res hres => ?_, fun job hjob => ?_⟩)
    · have hturn := hend.turn 0
      rw [Nat.zero_add] at hturn
      rcases hpush.returns hres with ⟨hok, hnil⟩ | ⟨job, rest, hrest, hwhy⟩
      · exact .inl ⟨hok, Nat.le_antisymm hlength (List.drop_eq_nil_iff.mp hnil)⟩
      · refine .inr ⟨job, ?_, ?_⟩
        · rw [← List.head?_drop, hrest, List.head?_cons]
        · rwa [← hturn]
    · exact hpush.refines (by rw [List.head?_drop, hjob])
  · exact .inl hok
  · exact .inr (.inl hfails)

def threeJobs : List SbsJob := [⟨1, 1, 5⟩, ⟨1, 1, 6⟩, ⟨1, 1, 7⟩]

theorem pushes_run_third :
    ∃ (later : List (Pool 2 1 × PoolLabel 2)) (s t : Pool 2 1),
      poolStep (startPool (fun _ => true) (fun _ => noPools) fun _ => 4096)
        (.call (.sbsPushallRr threeJobs)) = some s ∧
        ((poolMachine 2 1).after s).Run later t ∧ t.main = .returned .EXFULL ∧
          t.pushed.map Prod.fst = (List.range 2).map s.index := by
  obtain ⟨s, hcall, hgoes⟩ : ∃ s : Pool 2 1,
      poolStep (startPool (fun _ => true) (fun _ => noPools) fun _ => 4096)
        (.call (.sbsPushallRr threeJobs)) = some s ∧
        (((poolMachine 2 1).after s).record [] s [.main, .work 1 0, .main, .main]).any
          (fun r => decide (r.2.main = .returned .EXFULL ∧ r.2.pushed.length = 2 ∧
            ∀ p ∈ r.1, p.2.within = true)) = true := ⟨_, rfl, by decide⟩
  obtain ⟨later, t, hl, hend⟩ := ((poolMachine 2 1).after s).exists_run_of_record s
    [.main, .work 1 0, .main, .main]
    (fun later t => t.main = .returned .EXFULL ∧ t.pushed.length = 2 ∧
      ∀ p ∈ later, p.2.within = true) rfl hgoes
  simp only [decide_eq_true_eq] at hend
  obtain ⟨hfull, hpushed, hwithin⟩ := hend
  have hpusher : enter (.sbsPushallRr threeJobs) = (Pusher.main .rr threeJobs : Main 2) := rfl
  obtain ⟨-, -, hworkers, -⟩ := pushes_run hcall hpusher hl hwithin
  rw [hpushed] at hworkers
  exact ⟨later, s, t, hcall, hl, hfull, hworkers⟩

end Dert.Gtpoolrr
