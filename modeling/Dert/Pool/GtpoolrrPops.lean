import Dert.Library.Projection
import Dert.Pool.GtpoolrrMain
import Dert.Pool.GtpoolrrThreads

namespace Dert.Gtpoolrr

open Library

variable {threadsTotal jobsPerThread : Nat}

def Label.own : Label → Bool
  | .work _ => true
  | .noKey => true
  | .yield _ => true
  | .finish => true
  | .post _ => true
  | .ack => true
  | .push _ => false
  | .pop => false
  | .desire _ => false

def PoolLabel.part : PoolLabel threadsTotal → Option (Fin threadsTotal × Label)
  | .work index now => some (index, .work now)
  | .noKey index => some (index, .noKey)
  | .yield index op => some (index, .yield op)
  | .finish index => some (index, .finish)
  | .post index i => some (index, .post i)
  | .ack index => some (index, .ack)
  | .call _ => none
  | .main => none

def PoolLabel.within : PoolLabel threadsTotal → Bool
  | .work _ _ => true
  | .noKey _ => true
  | .yield _ _ => true
  | .finish _ => true
  | .post _ _ => true
  | .ack _ => true
  | .call _ => false
  | .main => true

theorem part_own {l : PoolLabel threadsTotal} {index : Fin threadsTotal} {own : Label}
    (h : l.part = some (index, own)) : own.own = true := by
  cases l <;> cases h <;> rfl

theorem part_ne_main {l : PoolLabel threadsTotal} {part : Fin threadsTotal × Label}
    (h : l.part = some part) : l ≠ .main := by
  rintro rfl
  cases h

def State.pushed (worker : State jobsPerThread) (expiration : UInt64)
    (submissionQueue : Fifo GtpoolrrJob jobsPerThread) : State jobsPerThread :=
  { worker with
    submissionQueue, accepted := worker.accepted ++ [⟨worker.accepted.length, expiration⟩] }

def SbsJob.Null (job : SbsJob) : Prop := job.function = 0 ∨ job.arg = 0

inductive PushDirect (s : Pool threadsTotal jobsPerThread) (index : Fin threadsTotal)
    (job : SbsJob) : Pool threadsTotal jobsPerThread × Ret → Prop
  | null : job.Null → PushDirect s index job (s, .EINVAL)
  | full : ¬ job.Null → (s.workers index).submissionQueue.length = jobsPerThread →
      PushDirect s index job (s, .EXFULL)
  | pushed (submissionQueue) : ¬ job.Null →
      (s.workers index).submissionQueue.push
        ⟨(s.workers index).accepted.length, job.expiration⟩ = some submissionQueue →
      PushDirect s index job
        ({ s.set index ((s.workers index).pushed job.expiration submissionQueue) with
          pushed := s.pushed ++
            [(index, ⟨(s.workers index).accepted.length, job.expiration⟩)] }, .ok)

theorem sbsPushDirect_cases (s : Pool threadsTotal jobsPerThread) (index : Fin threadsTotal)
    (job : SbsJob) : PushDirect s index job (sbsPushDirect s index job) := by
  by_cases hnull : job.function = 0 ∨ job.arg = 0
  · have hdirect : gtpoolrrSbsPushDirect s.queues index (s.pointer index job) =
        (s.queues, .EINVAL) := gtpoolrrSbsPushDirect_of_null hnull
    simp only [sbsPushDirect, hdirect]
    exact .null hnull
  · cases hpush : (s.workers index).submissionQueue.push
      ⟨(s.workers index).accepted.length, job.expiration⟩ with
    | none =>
      have hdirect : gtpoolrrSbsPushDirect s.queues index (s.pointer index job) =
          (s.queues, .EXFULL) := gtpoolrrSbsPushDirect_of_none hnull hpush
      simp only [sbsPushDirect, hdirect]
      exact .full hnull (Fifo.push_eq_none.mp hpush)
    | some submissionQueue =>
      have hdirect : gtpoolrrSbsPushDirect s.queues index (s.pointer index job) =
          (⟨s.rrIndex, Function.update s.queues.jobSubmissionQueues index submissionQueue⟩, .ok) :=
        gtpoolrrSbsPushDirect_of_some hnull hpush
      simp only [sbsPushDirect, hdirect, Function.update_self]
      exact .pushed submissionQueue hnull hpush

section Steps

variable [NeZero threadsTotal] {s s' : Pool threadsTotal jobsPerThread}
  {l : PoolLabel threadsTotal} {index : Fin threadsTotal}

inductive PopStep (s : Pool threadsTotal jobsPerThread) (popper : Popper) (i : Nat) :
    Pool threadsTotal jobsPerThread → Prop
  | popped (job completionQueue) : i < threadsTotal →
      (s.workers (s.index i)).completionQueue.pop = some (job, completionQueue) →
      PopStep s popper i { s.set (s.index i) { s.workers (s.index i) with
          completionQueue, popped := (s.workers (s.index i)).popped + 1 } with
        rrIndex := UInt64.ofNat ((s.rrIndex + UInt64.ofNat i).toNat % threadsTotal)
        main := popper.popped (s.dest.length + 1)
        dest := s.dest ++ [(s.index i, job)]
        delivered := s.delivered ++ [(s.index i, job)] }
  | none : i < threadsTotal → (s.workers (s.index i)).completionQueue.list = [] →
      PopStep s popper i { s with main := .cpsPop popper (i + 1) }
  | busy : threadsTotal ≤ i → PopStep s popper i { s with main := popper.busy }

inductive MainStep (s : Pool threadsTotal jobsPerThread) : Pool threadsTotal jobsPerThread → Prop
  | pushRr (job jobs i submissionQueue) : s.main = .pushRr (job :: jobs) i →
      (s.workers (s.index i)).submissionQueue.push
        ⟨(s.workers (s.index i)).accepted.length, job.expiration⟩ = some submissionQueue →
      MainStep s {
        s.set (s.index i) ((s.workers (s.index i)).pushed job.expiration submissionQueue) with
        pushed := s.pushed ++
          [(s.index i, ⟨(s.workers (s.index i)).accepted.length, job.expiration⟩)]
        rrIndex := s.rrIndex + 1
        main := .pushRr jobs 0 }
  | pushDirect (job jobs index submissionQueue) : s.main = .pushDirect index (job :: jobs) →
      (s.workers index).submissionQueue.push
        ⟨(s.workers index).accepted.length, job.expiration⟩ = some submissionQueue →
      MainStep s { s.set index ((s.workers index).pushed job.expiration submissionQueue) with
        pushed := s.pushed ++ [(index, ⟨(s.workers index).accepted.length, job.expiration⟩)]
        main := .pushDirect index jobs }
  | pushEnd : (∃ i, s.main = .pushRr [] i) ∨ (∃ index, s.main = .pushDirect index []) →
      MainStep s { s with main := .returned .ok }
  | pushFails (res) : (∃ jobs i, s.main = .pushRr jobs i ∧ jobs ≠ []) ∨
        (∃ index jobs, s.main = .pushDirect index jobs ∧ jobs ≠ []) →
      res = .EINVAL ∨ res = .EXFULL ∨ res = .EBUSY → MainStep s { s with main := .returned res }
  | cpsPop (popper i next) : s.main = .cpsPop popper i → PopStep s popper i next → MainStep s next
  | set (state i) (hi : i < threadsTotal) : s.main = .set state i →
      MainStep s { s.set ⟨i, hi⟩ { s.workers ⟨i, hi⟩ with desiredState := state } with
        main := .set state (i + 1) }
  | setEnd (state i) : s.main = .set state i → threadsTotal ≤ i →
      MainStep s { s with main := .returned .ok }
  | endSet (state i) (hi : i < threadsTotal) : s.main = .endSet state i →
      MainStep s { s.set ⟨i, hi⟩ { s.workers ⟨i, hi⟩ with desiredState := state } with
        main := .endTest state ⟨i, hi⟩ }
  | ended (state i) : s.main = .endSet state i → threadsTotal ≤ i →
      MainStep s { s with stopped := true, main := .returned .ok }
  | endDone (state i) : s.main = .endTest state i →
      threadAlreadyDone (s.workers i).currentState = true →
      MainStep s { s with main := .endSet state (i + 1) }
  | endAgain (state i) : s.main = .endTest state i →
      threadAlreadyDone (s.workers i).currentState = false →
      MainStep s { s with main := .endSet state i }

inductive PoolStep (s : Pool threadsTotal jobsPerThread) :
    PoolLabel threadsTotal → Pool threadsTotal jobsPerThread → Prop
  | worker (l index own worker) : l.part = some (index, own) →
      step (s.workers index) own = some worker → PoolStep s l (s.set index worker)
  | called (call res) : s.main = .returned res →
      PoolStep s (.call call) { s with main := enter call, pushed := [], dest := [] }
  | main (next) : mainStep s = some next → MainStep s next → PoolStep s .main next

variable {popper : Popper} {i : Nat}

theorem cpsPop_cases (s : Pool threadsTotal jobsPerThread) (popper : Popper) (i : Nat) :
    PopStep s popper i (cpsPop s popper i) := by
  rw [cpsPop]
  split_ifs with hi
  · dsimp only
    split
    next job completionQueue hpop => exact .popped job completionQueue hi hpop
    next hpop => exact .none hi (Fifo.pop_eq_none.mp hpop)
  · exact .busy (Nat.not_lt.mp hi)

theorem mainStep_cases (hs : mainStep s = some s') : MainStep s s' := by
  cases hmain : s.main with
  | returned res => simp [mainStep, hmain] at hs
  | pushRr jobs i =>
    cases jobs with
    | nil =>
      simp only [mainStep, hmain, Option.some.injEq] at hs
      subst hs
      exact .pushEnd (.inl ⟨i, hmain⟩)
    | cons job jobs =>
      simp only [mainStep, hmain, Option.some.injEq] at hs
      subst hs
      have hfails : ∃ jobs i, s.main = .pushRr jobs i ∧ jobs ≠ [] := ⟨_, i, hmain, by simp⟩
      rw [sbsPushRr]
      split_ifs with hnull hi
      · exact .pushFails _ (.inl hfails) (.inl rfl)
      · have hpush := sbsPushDirect_cases s (s.index i) job
        generalize sbsPushDirect s (s.index i) job = pushed at hpush
        cases hpush with
        | null => exact .pushFails _ (.inl hfails) (.inl rfl)
        | full => exact .pushFails _ (.inl hfails) (.inr (.inl rfl))
        | pushed submissionQueue _ hpush => exact .pushRr job jobs i submissionQueue hmain hpush
      · exact .pushFails _ (.inl hfails) (.inr (.inr rfl))
  | pushDirect index jobs =>
    cases jobs with
    | nil =>
      simp only [mainStep, hmain, Option.some.injEq] at hs
      subst hs
      exact .pushEnd (.inr ⟨index, hmain⟩)
    | cons job jobs =>
      have hfails : ∃ index jobs, s.main = .pushDirect index jobs ∧ jobs ≠ [] :=
        ⟨index, _, hmain, by simp⟩
      have hpush := sbsPushDirect_cases s index job
      simp only [mainStep, hmain] at hs
      generalize sbsPushDirect s index job = pushed at hs hpush
      cases hpush with
      | null =>
        cases hs
        exact .pushFails _ (.inr hfails) (.inl rfl)
      | full =>
        cases hs
        exact .pushFails _ (.inr hfails) (.inr (.inl rfl))
      | pushed submissionQueue _ hpush =>
        cases hs
        exact .pushDirect job jobs index submissionQueue hmain hpush
  | cpsPop popper i =>
    simp only [mainStep, hmain, Option.some.injEq] at hs
    subst hs
    exact .cpsPop popper i _ hmain (cpsPop_cases s popper i)
  | set state i =>
    by_cases hi : i < threadsTotal
    · simp only [mainStep, hmain, hi, dite_true, Option.some.injEq] at hs
      subst hs
      exact .set state i hi hmain
    · simp only [mainStep, hmain, hi, dite_false, Option.some.injEq] at hs
      subst hs
      exact .setEnd state i hmain (Nat.not_lt.mp hi)
  | endSet state i =>
    by_cases hi : i < threadsTotal
    · simp only [mainStep, hmain, hi, dite_true, Option.some.injEq] at hs
      subst hs
      exact .endSet state i hi hmain
    · simp only [mainStep, hmain, hi, dite_false, Option.some.injEq] at hs
      subst hs
      exact .ended state i hmain (Nat.not_lt.mp hi)
  | endTest state i =>
    cases hdone : threadAlreadyDone (s.workers i).currentState with
    | true =>
      simp only [mainStep, hmain, hdone, if_true, Option.some.injEq] at hs
      subst hs
      exact .endDone state i hmain hdone
    | false =>
      simp only [mainStep, hmain, hdone, Bool.false_eq_true, if_false, Option.some.injEq] at hs
      subst hs
      exact .endAgain state i hmain hdone

theorem poolStep_call {call : Call threadsTotal} (hs : poolStep s (.call call) = some s') :
    (∃ res, s.main = .returned res) ∧
      s' = { s with main := enter call, pushed := [], dest := [] } := by
  cases hmain : s.main with
  | returned res =>
    simp only [poolStep, hmain, Option.some.injEq] at hs
    exact ⟨⟨res, rfl⟩, hs.symm⟩
  | _ => simp [poolStep, hmain] at hs

theorem poolStep_cases (hs : poolStep s l = some s') : PoolStep s l s' := by
  have hworker {index : Fin threadsTotal} {own : Label} (hpart : l.part = some (index, own))
      (hs : s.stepWorker index own = some s') : PoolStep s l s' := by
    obtain ⟨worker, hw, rfl⟩ := Option.map_eq_some_iff.mp hs
    exact .worker l index own worker hpart hw
  cases l with
  | work index now => exact hworker rfl hs
  | noKey index => exact hworker rfl hs
  | yield index op => exact hworker rfl hs
  | finish index => exact hworker rfl hs
  | post index i => exact hworker rfl hs
  | ack index => exact hworker rfl hs
  | call call =>
    obtain ⟨⟨res, hmain⟩, rfl⟩ := poolStep_call hs
    exact .called call res hmain
  | main => exact .main s' hs (mainStep_cases hs)

theorem mainStep_returned {res : Ret} (hmain : s.main = .returned res) : mainStep s = none := by
  simp [mainStep, hmain]

theorem MainStep.popStep (hs : MainStep s s') (hmain : s.main = .cpsPop popper i) :
    PopStep s popper i s' := by
  cases hs with
  | cpsPop popper' i' _ hmain' hpop =>
    cases hmain.symm.trans hmain'
    exact hpop
  | pushEnd hmain' =>
    rcases hmain' with ⟨_, hmain'⟩ | ⟨_, hmain'⟩ <;> cases hmain.symm.trans hmain'
  | pushFails _ hmain' =>
    rcases hmain' with ⟨_, _, hmain', -⟩ | ⟨_, _, hmain', -⟩ <;> cases hmain.symm.trans hmain'
  | pushRr _ _ _ _ hmain' => cases hmain.symm.trans hmain'
  | pushDirect _ _ _ _ hmain' => cases hmain.symm.trans hmain'
  | set _ _ _ hmain' => cases hmain.symm.trans hmain'
  | setEnd _ _ hmain' => cases hmain.symm.trans hmain'
  | endSet _ _ _ hmain' => cases hmain.symm.trans hmain'
  | ended _ _ hmain' => cases hmain.symm.trans hmain'
  | endDone _ _ hmain' => cases hmain.symm.trans hmain'
  | endAgain _ _ hmain' => cases hmain.symm.trans hmain'

end Steps

section Projections

variable {s s' : Pool threadsTotal jobsPerThread} {index k : Fin threadsTotal}

@[simp] theorem set_workers_self (s : Pool threadsTotal jobsPerThread) (index : Fin threadsTotal)
    (worker : State jobsPerThread) : (s.set index worker).workers index = worker := by
  simp [Pool.set]

theorem set_workers_of_ne (worker : State jobsPerThread) (h : k ≠ index) :
    (s.set index worker).workers k = s.workers k := by
  simp [Pool.set, h]

theorem step_push {worker : State jobsPerThread} {expiration : UInt64}
    {submissionQueue : Fifo GtpoolrrJob jobsPerThread}
    (h : worker.submissionQueue.push ⟨worker.accepted.length, expiration⟩ = some submissionQueue) :
    step worker (.push expiration) = some (worker.pushed expiration submissionQueue) := by
  simp [step, h, State.pushed]

theorem step_pop {worker : State jobsPerThread} {job : GtpoolrrJob}
    {completionQueue : Fifo GtpoolrrJob jobsPerThread}
    (h : worker.completionQueue.pop = some (job, completionQueue)) :
    step worker .pop = some { worker with completionQueue, popped := worker.popped + 1 } := by
  simp [step, h]

theorem set_projects {worker : State jobsPerThread} {l : Label}
    (h : step (s.workers index) l = some worker) (k : Fin threadsTotal) :
    (s.set index worker).workers k = s.workers k ∨
      ∃ m, step (s.workers k) m = some ((s.set index worker).workers k) := by
  by_cases hk : k = index
  · subst hk
    exact .inr ⟨l, by rw [set_workers_self, h]⟩
  · exact .inl (set_workers_of_ne worker hk)

variable [NeZero threadsTotal]

theorem MainStep.projects (hs : MainStep s s') (k : Fin threadsTotal) :
    s'.workers k = s.workers k ∨ ∃ m, step (s.workers k) m = some (s'.workers k) := by
  cases hs with
  | pushRr job jobs i submissionQueue hmain hpush => exact set_projects (step_push hpush) k
  | pushDirect job jobs index submissionQueue hmain hpush => exact set_projects (step_push hpush) k
  | cpsPop popper i _ hmain hs =>
    cases hs with
    | popped job completionQueue hi hpop => exact set_projects (step_pop hpop) k
    | _ => exact .inl rfl
  | set state i hi => exact set_projects (l := .desire state) rfl k
  | endSet state i hi => exact set_projects (l := .desire state) rfl k
  | _ => exact .inl rfl

theorem PoolStep.projects {l : PoolLabel threadsTotal} (hs : PoolStep s l s')
    (k : Fin threadsTotal) :
    s'.workers k = s.workers k ∨ ∃ m, step (s.workers k) m = some (s'.workers k) := by
  cases hs with
  | worker _ index own worker hpart hw => exact set_projects hw k
  | called => exact .inl rfl
  | main _ _ hs => exact hs.projects k

theorem projects (k : Fin threadsTotal) :
    (poolMachine threadsTotal jobsPerThread).Projects (machine jobsPerThread)
      fun s => s.workers k where
  init := by
    rintro s ⟨hpos, ring, memory, greenThreads, rfl⟩
    exact ⟨hpos, ring k, memory k, greenThreads k, rfl⟩
  step s l s' hs := (poolStep_cases hs).projects k

end Projections

def jobsOf (k : Fin threadsTotal) (jobs : List (Fin threadsTotal × GtpoolrrJob)) :
    List GtpoolrrJob :=
  (jobs.filter fun p => p.1 = k).map Prod.snd

theorem jobsOf_append (k : Fin threadsTotal) (jobs more : List (Fin threadsTotal × GtpoolrrJob)) :
    jobsOf k (jobs ++ more) = jobsOf k jobs ++ jobsOf k more := by
  simp [jobsOf]

theorem jobsOf_self (k : Fin threadsTotal) (job : GtpoolrrJob) : jobsOf k [(k, job)] = [job] := by
  simp [jobsOf]

theorem jobsOf_of_ne {k index : Fin threadsTotal} (h : k ≠ index) (job : GtpoolrrJob) :
    jobsOf k [(index, job)] = [] := by
  simp [jobsOf, h.symm]

structure Completes (w w' : State jobsPerThread) (more : List GtpoolrrJob) : Prop where
  completed : w'.completed = w.completed ++ more
  queue : w'.completionQueue.list = w.completionQueue.list ++ more

theorem Completes.same {w w' : State jobsPerThread} (hcompleted : w'.completed = w.completed)
    (hqueue : w'.completionQueue = w.completionQueue) : Completes w w' [] :=
  ⟨by rw [hcompleted, List.append_nil], by rw [hqueue, List.append_nil]⟩

theorem Step.completes {w w' : State jobsPerThread} {l : Label} (hs : Step w l w')
    (hown : l.own = true) : ∃ more, Completes w w' more := by
  cases hs
  case completed now job completionQueue hpc hjob hlist => exact ⟨[job], rfl, hlist⟩
  case popped => cases hown
  all_goals exact ⟨[], .same rfl rfl⟩

section Deliveries

variable {s s' : Pool threadsTotal jobsPerThread} {index k : Fin threadsTotal}

def Delivers (s : Pool threadsTotal jobsPerThread) : Prop :=
  ∀ k, jobsOf k s.delivered ++ (s.workers k).completionQueue.list = (s.workers k).completed

theorem Delivers.set {worker : State jobsPerThread} {more : List GtpoolrrJob} (h : Delivers s)
    (hw : Completes (s.workers index) worker more) : Delivers (s.set index worker) := by
  intro k
  by_cases hk : k = index
  · subst hk
    rw [set_workers_self, hw.completed, hw.queue, ← List.append_assoc, ← h k]
    rfl
  · rw [set_workers_of_ne worker hk]
    exact h k

variable [NeZero threadsTotal]

theorem PopStep.delivers {popper : Popper} {i : Nat} (hs : PopStep s popper i s')
    (h : Delivers s) : Delivers s' := by
  cases hs with
  | popped job completionQueue hi hpop =>
    intro k
    have hold := h k
    by_cases hk : k = s.index i
    · subst hk
      simp only [set_workers_self, jobsOf_append, jobsOf_self]
      rw [← hold, Fifo.pop_eq_some hpop, List.append_assoc]
      rfl
    · simp only [set_workers_of_ne _ hk, jobsOf_append, jobsOf_of_ne hk, List.append_nil]
      exact hold
  | _ => exact h

theorem PoolStep.delivers {l : PoolLabel threadsTotal} (hs : PoolStep s l s') (h : Delivers s) :
    Delivers s' := by
  cases hs with
  | worker _ index own worker hpart hw =>
    obtain ⟨more, hmore⟩ := (step_cases hw).completes (part_own hpart)
    exact h.set hmore
  | called => exact h
  | main _ _ hs =>
    cases hs with
    | pushRr job jobs i submissionQueue => exact h.set (.same rfl rfl)
    | pushDirect job jobs index submissionQueue => exact h.set (.same rfl rfl)
    | set state i hi => exact h.set (.same rfl rfl)
    | endSet state i hi => exact h.set (.same rfl rfl)
    | cpsPop popper i _ hmain hs => exact hs.delivers h
    | _ => exact h

end Deliveries

@[simp] def Popper.wanted : Popper → Nat
  | .pop => 1
  | .popsome atMost => atMost
  | .popall waitFor => waitFor

@[simp] def Popper.waits : Popper → Bool
  | .pop => false
  | .popsome _ => false
  | .popall _ => true

def Main.Wants (n : Nat) : Main threadsTotal → Prop
  | .cpsPop popper _ => n < popper.wanted
  | _ => True

theorem wants_enter (call : Call threadsTotal) : (enter call).Wants 0 := by
  cases call with
  | cpsPop => exact Nat.zero_lt_one
  | cpsPopsome atMost =>
    rw [enter]
    split_ifs with hnone
    · trivial
    · exact Nat.pos_of_ne_zero hnone
  | cpsPopall waitFor =>
    rw [enter]
    split_ifs with hnone
    · trivial
    · exact Nat.pos_of_ne_zero hnone
  | _ => trivial

theorem popped_cases (threadsTotal : Nat) (popper : Popper) (n : Nat) (h : n < popper.wanted) :
    (popper.popped (n + 1) : Main threadsTotal) = .cpsPop popper 0 ∧ n + 1 < popper.wanted ∨
      (popper.popped (n + 1) : Main threadsTotal) = .returned .ok ∧ n + 1 = popper.wanted := by
  cases popper with
  | pop =>
    simp only [Popper.wanted] at h
    exact .inr ⟨rfl, by simp only [Popper.wanted]; omega⟩
  | popsome atMost | popall atMost =>
    simp only [Popper.wanted] at h ⊢
    by_cases hmore : n + 1 < atMost
    · exact .inl ⟨if_pos hmore, hmore⟩
    · exact .inr ⟨if_neg hmore, by omega⟩

theorem busy_cases (threadsTotal : Nat) (popper : Popper) :
    popper.waits = true ∧ (popper.busy : Main threadsTotal) = .cpsPop popper 0 ∨
      popper.waits = false ∧ (popper.busy : Main threadsTotal) = .returned .EBUSY := by
  cases popper with
  | popall waitFor => exact .inl ⟨rfl, rfl⟩
  | _ => exact .inr ⟨rfl, rfl⟩

section Pops

variable [NeZero threadsTotal] {s s' : Pool threadsTotal jobsPerThread}
  {l : PoolLabel threadsTotal}
  {tr : List (Pool threadsTotal jobsPerThread × PoolLabel threadsTotal)}

theorem PopStep.wants {popper : Popper} {i : Nat} (hs : PopStep s popper i s')
    (h : s.dest.length < popper.wanted) : s'.main.Wants s'.dest.length := by
  cases hs with
  | popped job completionQueue =>
    simp only [List.length_append, List.length_singleton]
    rcases popped_cases threadsTotal popper s.dest.length h with ⟨hnext, hmore⟩ | ⟨hnext, -⟩
    · rw [hnext]
      exact hmore
    · rw [hnext]
      trivial
  | none => exact h
  | busy =>
    rcases busy_cases threadsTotal popper with ⟨-, hnext⟩ | ⟨-, hnext⟩
    · simp only [hnext]
      exact h
    · simp only [hnext]
      trivial

theorem PoolStep.wants (hs : PoolStep s l s') (h : s.main.Wants s.dest.length) :
    s'.main.Wants s'.dest.length := by
  cases hs with
  | worker => exact h
  | called call => exact wants_enter call
  | main _ _ hs =>
    cases hs with
    | cpsPop popper i _ hmain hs =>
      rw [hmain] at h
      exact hs.wants h
    | _ => trivial

theorem PoolStep.latest (hs : PoolStep s l s') (h : ∃ before, s.delivered = before ++ s.dest) :
    ∃ before, s'.delivered = before ++ s'.dest := by
  obtain ⟨before, h⟩ := h
  cases hs with
  | worker => exact ⟨before, h⟩
  | called call res => exact ⟨s.delivered, (List.append_nil _).symm⟩
  | main _ _ hs =>
    cases hs with
    | cpsPop popper i _ hmain hs =>
      cases hs with
      | popped job completionQueue => exact ⟨before, by simp only [h, List.append_assoc]⟩
      | _ => exact ⟨before, h⟩
    | _ => exact ⟨before, h⟩

theorem pops_inv (hr : (poolMachine threadsTotal jobsPerThread).Run tr s) :
    Delivers s ∧ s.main.Wants s.dest.length ∧ ∃ before, s.delivered = before ++ s.dest := by
  refine hr.always (I := fun s => Delivers s ∧ s.main.Wants s.dest.length ∧
    ∃ before, s.delivered = before ++ s.dest) ?_ fun s l s' ⟨hdelivers, hwants, hlatest⟩ hs => ?_
  · rintro s ⟨-, ring, memory, greenThreads, rfl⟩
    exact ⟨fun k => rfl, trivial, [], rfl⟩
  · have hs := poolStep_cases hs
    exact ⟨hs.delivers hdelivers, hs.wants hwants, hs.latest hlatest⟩

/-- The pops deliver what each worker completes, each job once and in that order, whatever the
workers do meanwhile.  A call that returns zero has popped as many as it was asked for, and one
that returns `EBUSY` fewer. -/
theorem pops_run (hr : (poolMachine threadsTotal jobsPerThread).Run tr s) :
    (∀ k, jobsOf k s.delivered ++ (s.workers k).completionQueue.list = (s.workers k).completed) ∧
      (∃ before, s.delivered = before ++ s.dest) ∧
        ∀ popper i s' res, s.main = .cpsPop popper i → mainStep s = some s' →
          s'.main = .returned res → res = .ok ∧ s'.dest.length = popper.wanted ∨
            res = .EBUSY ∧ popper.waits = false ∧ s'.dest.length < popper.wanted := by
  obtain ⟨hdelivers, hwants, hlatest⟩ := pops_inv hr
  refine ⟨hdelivers, hlatest, fun popper i s' res hmain hs hres => ?_⟩
  rw [hmain] at hwants
  cases (mainStep_cases hs).popStep hmain with
  | popped job completionQueue =>
    rcases popped_cases threadsTotal popper s.dest.length hwants with
      ⟨hnext, -⟩ | ⟨hnext, hall⟩
    · cases hnext.symm.trans hres
    · cases hnext.symm.trans hres
      exact .inl ⟨rfl, by simp only [List.length_append, List.length_singleton, hall]⟩
  | none => cases hres
  | busy =>
    rcases busy_cases threadsTotal popper with ⟨-, hnext⟩ | ⟨hwaits, hnext⟩
    · cases hnext.symm.trans hres
    · cases hnext.symm.trans hres
      exact .inr ⟨rfl, hwaits, hwants⟩

theorem pops_run_secondQueue :
    ∃ (tr : List (Pool 2 1 × PoolLabel 2)) (s s' : Pool 2 1), (poolMachine 2 1).Run tr s ∧
      mainStep s = some s' ∧ s'.main = .returned .ok ∧ s'.dest.length = 1 := by
  obtain ⟨tr, s, hr, hs⟩ := (poolMachine 2 1).exists_run_of_exec
    (startPool (fun _ => true) (fun _ => noPools) fun _ => 4096)
    [.call (.sbsPushRr ⟨1, 1, 0⟩), .main, .main, .work 0 0, .work 0 0, .work 0 0, .work 0 0, .finish 0,
      .work 0 0, .call (.cpsPopall 1), .main]
    (fun s => s.main = .cpsPop (.popall 1) 1 ∧
      (mainStep s).map (fun s' => s'.main) = some (.returned .ok))
    ⟨by decide, _, _, _, rfl⟩ (by decide)
  simp only [decide_eq_true_eq] at hs
  obtain ⟨hmain, hnext⟩ := hs
  obtain ⟨s', hs', hres⟩ := Option.map_eq_some_iff.mp hnext
  refine ⟨tr, s, s', hr, hs', hres, ?_⟩
  rcases (pops_run hr).2.2 (.popall 1) 1 s' .ok hmain hs' hres with ⟨-, hall⟩ | ⟨hbusy, -⟩
  · exact hall
  · cases hbusy

end Pops

end Dert.Gtpoolrr
