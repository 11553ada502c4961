import Dert.Pool.GtpoolrrPause
import Dert.Pool.GtpoolrrStops

namespace Dert.Gtpoolrr

open Library

variable {threadsTotal jobsPerThread : Nat}

def Pc.toil : Pc → Nat
  | .noRing => 0
  | .joinTest => 8
  | .resume => 7
  | .take => 6
  | .inJob => 5
  | .complete => 3
  | .forEachCqe => 2
  | .switch => 1
  | .left _ => 0
  | .readyFull => 0
  | .noGreenThread => 0
  | .completionFull => 0

theorem Pc.toil_le (pc : Pc) : pc.toil ≤ 8 := by
  cases pc <;> simp [toil]

def Pc.out : Pc → Bool
  | .noRing => true
  | .left _ => true
  | .joinTest => false
  | .resume => false
  | .take => false
  | .inJob => false
  | .complete => false
  | .forEachCqe => false
  | .switch => false
  | .readyFull => false
  | .noGreenThread => false
  | .completionFull => false

def Pc.Failed (pc : Pc) : Prop := pc = .readyFull ∨ pc = .noGreenThread ∨ pc = .completionFull

def State.toil (w : State jobsPerThread) : Nat :=
  w.pc.toil + (w.outstanding.length + w.posted.length)

def Label.moves : Label → Bool
  | .work _ => true
  | .noKey => false
  | .yield _ => true
  | .finish => true
  | .post _ => false
  | .push _ => false
  | .pop => false
  | .ack => false
  | .desire _ => false

section Workers

variable {w w' : State jobsPerThread} {l : Label}

theorem submit_length (op : GreentDo) : (greentDoSubmit op).length ≤ 2 := by
  cases op <;> decide

theorem toil_own (hs : step w l = some w') (hown : l.own = true)
    (hstopped : w.desiredState = .STOPPED) :
    w'.toil + (l.moves && !w.pc.out).toNat ≤ w.toil := by
  cases step_cases hs
  case active now hpc hactive => cases hstopped.symm.trans hactive
  case paused now hpc hpaused => cases hstopped.symm.trans hpaused
  case joining now hpc hjoining => cases hstopped.symm.trans hjoining
  case pushed => cases hown
  case submissionFull => cases hown
  case popped => cases hown
  case nonePopped => cases hown
  case desired => cases hown
  case posted i cqe hcqe =>
    obtain ⟨hi, -⟩ := List.getElem?_eq_some_iff.mp hcqe
    simp only [State.toil, Label.moves, Bool.false_and, Bool.toNat_false, List.length_append,
      List.length_singleton, List.length_eraseIdx_of_lt hi]
    omega
  case submitted op thread hpc hrun hsub =>
    have hlength := submit_length op
    simp only [State.toil, hpc, Pc.toil, Pc.out, Label.moves, List.length_append, List.length_map,
      Bool.not_false, Bool.and_self, Bool.toNat_true]
    omega
  all_goals
    simp_all [State.toil, Pc.toil, Pc.out, Label.moves]
    try omega

def Tasked (w : State jobsPerThread) : Prop := w.dequeued ≠ [] → w.job ≠ none

theorem Step.tasked (hs : Step w l w') (h : Tasked w) : Tasked w' := by
  cases hs
  case started => exact fun _ => by simp
  case noGreenThread => exact fun _ => by simp
  case expired => exact fun _ => by simp
  all_goals exact h

theorem Threads.goesOn (h : Threads w) (htasked : Tasked w) (hjob : w.pc ≠ .inJob)
    (hring : w.pc ≠ .noRing) (hexit : w.Left → w.exit = .pending) (hfailed : ¬ w.pc.Failed)
    (now : UInt64) : ∃ w', Gtpoolrr.step w (.work now) = some w' := by
  cases hpc : w.pc with
  | forEachCqe =>
    rw [Gtpoolrr.step, gtpoolrrWorker, hpc]
    dsimp only
    split
    · exact ⟨_, rfl⟩
    · exact ⟨_, rfl⟩
    · split <;> exact ⟨_, rfl⟩
  | switch =>
    rw [Gtpoolrr.step, gtpoolrrWorker, hpc]
    cases w.desiredState <;> exact ⟨_, rfl⟩
  | joinTest =>
    rw [Gtpoolrr.step, gtpoolrrWorker, hpc]
    dsimp only
    split_ifs <;> exact ⟨_, rfl⟩
  | resume =>
    rw [Gtpoolrr.step, gtpoolrrWorker, hpc]
    dsimp only
    split
    · exact ⟨_, rfl⟩
    · split <;> exact ⟨_, rfl⟩
  | take =>
    rw [Gtpoolrr.step, gtpoolrrWorker, hpc]
    exact ⟨_, rfl⟩
  | complete =>
    have hdequeued := h.counts.dequeued
    have hcompleted := h.counts.completed
    have hlength := h.length
    simp only [hpc, reduceCtorEq, or_false, if_true, if_false] at hdequeued hcompleted
    have hsome : w.dequeued ≠ [] := by
      rintro hnil
      rw [hnil, List.length_nil] at hdequeued
      omega
    obtain ⟨job, hjob⟩ := Option.ne_none_iff_exists'.mp (htasked hsome)
    rw [Gtpoolrr.step, gtpoolrrWorker, hpc]
    simp only [hjob]
    split <;> exact ⟨_, rfl⟩
  | left why =>
    rw [Gtpoolrr.step, gtpoolrrWorker, hpc]
    simp only [hexit ⟨why, hpc⟩]
    exact ⟨_, rfl⟩
  | noRing => exact absurd hpc hring
  | inJob => exact absurd hpc hjob
  | readyFull => exact absurd (.inl hpc) hfailed
  | noGreenThread => exact absurd (.inr (.inl hpc)) hfailed
  | completionFull => exact absurd (.inr (.inr hpc)) hfailed

end Workers

def toilsAt (i : Fin threadsTotal) :
    Pool threadsTotal jobsPerThread → PoolLabel threadsTotal → Bool :=
  eventAt (fun w own => own.moves && !w.pc.out) i

section Pools

variable [NeZero threadsTotal] {s s' : Pool threadsTotal jobsPerThread} {i : Fin threadsTotal}
  {l : PoolLabel threadsTotal}
  {tr later : List (Pool threadsTotal jobsPerThread × PoolLabel threadsTotal)}

structure Stopping (i : Fin threadsTotal) (s : Pool threadsTotal jobsPerThread) : Prop where
  desired : (s.workers i).desiredState = .STOPPED
  main : (∃ j, s.main = .endSet .STOPPED j) ∨ (∃ j, s.main = .endTest .STOPPED j) ∨
    ∃ res, s.main = .returned res

theorem Stopping.mainStep (h : Stopping i s) (hs : mainStep s = some s') :
    Stopping i s' ∧ (s'.workers i).toil = (s.workers i).toil := by
  rcases h.main with ⟨j, hmain⟩ | ⟨j, hmain⟩ | ⟨res, hmain⟩
  · by_cases hj : j < threadsTotal
    · simp only [Gtpoolrr.mainStep, hmain, hj, dite_true, Option.some.injEq] at hs
      subst hs
      by_cases hi : i = ⟨j, hj⟩
      · subst hi
        refine ⟨⟨?_, .inr (.inl ⟨_, rfl⟩)⟩, ?_⟩
        · simp only [set_workers_self]
        · simp only [set_workers_self]
          rfl
      · refine ⟨⟨?_, .inr (.inl ⟨_, rfl⟩)⟩, ?_⟩
        · simp only [set_workers_of_ne _ hi]
          exact h.desired
        · simp only [set_workers_of_ne _ hi]
    · simp only [Gtpoolrr.mainStep, hmain, hj, dite_false, Option.some.injEq] at hs
      subst hs
      exact ⟨⟨h.desired, .inr (.inr ⟨_, rfl⟩)⟩, rfl⟩
  · cases hdone : threadAlreadyDone (s.workers j).currentState with
    | true =>
      simp only [Gtpoolrr.mainStep, hmain, hdone, if_true, Option.some.injEq] at hs
      subst hs
      exact ⟨⟨h.desired, .inl ⟨_, rfl⟩⟩, rfl⟩
    | false =>
      simp only [Gtpoolrr.mainStep, hmain, hdone, Bool.false_eq_true, if_false,
        Option.some.injEq] at hs
      subst hs
      exact ⟨⟨h.desired, .inl ⟨_, rfl⟩⟩, rfl⟩
  · simp [mainStep_returned hmain] at hs

theorem Stopping.step (h : Stopping i s) (hs : PoolStep s l s') (hl : l.within = true) :
    Stopping i s' ∧ (s'.workers i).toil + (toilsAt i s l).toNat ≤ (s.workers i).toil := by
  cases hs with
  | worker _ index own worker hpart hw =>
    have hown := part_own hpart
    by_cases hi : i = index
    · subst hi
      refine ⟨⟨?_, h.main⟩, rank_set State.toil hpart (toil_own hw hown h.desired) i⟩
      rw [set_workers_self, desiredState_own (step_cases hw) hown, h.desired]
    · have hnot : toilsAt i s l = false := by
        simp [toilsAt, eventAt, hpart, Ne.symm hi]
      refine ⟨⟨?_, h.main⟩, ?_⟩
      · rw [set_workers_of_ne worker hi]
        exact h.desired
      · rw [set_workers_of_ne worker hi, hnot]
        exact Nat.le_refl _
  | called => cases hl
  | main _ hs =>
    obtain ⟨hstopping, htoil⟩ := h.mainStep hs
    exact ⟨hstopping, Nat.le_of_eq htoil⟩

theorem tasked_inv {w : State jobsPerThread} {tr : List (State jobsPerThread × Label)}
    (hr : (machine jobsPerThread).Run tr w) : Tasked w := by
  refine hr.always (I := Tasked) ?_ fun w l w' h hs => (step_cases hs).tasked h
  rintro w ⟨-, ring, memory, greenThreads, rfl⟩
  exact fun hnil => absurd rfl hnil

/-- The worker is held up by its job or a failed assertion, or has returned without setting its
state, so that the call waits for it for ever. -/
def State.Stuck (w : State jobsPerThread) : Prop :=
  w.pc = .inJob ∨ w.pc.Failed ∨ w.pc = .noRing ∨ w.exit = .noKey

/-- From when `gtpoolrr_stop_safe` has told a worker to stop it waits for so many of its steps at
the most, a job that it still starts or resumes included.  The worker can take them unless its job
neither yields nor returns, one of its assertions fails, or it returns without its ring or its
destructor.  When the destructor has run the worker is out of its loop and the call goes on to
the next one. -/
theorem stops_run {r : Pool threadsTotal jobsPerThread}
    (hr : (poolMachine threadsTotal jobsPerThread).Run tr r) (hmain : r.main = .endSet .STOPPED i)
    (hs : poolStep r .main = some s)
    (hl : ((poolMachine threadsTotal jobsPerThread).after s).Run later s')
    (hwithin : ∀ p ∈ later, p.2.within = true) :
    later.countP (fun p => toilsAt i p.1 p.2) ≤
        8 + ((r.workers i).outstanding.length + (r.workers i).posted.length) ∧
      ((s'.workers i).Stuck ∨ (∀ now, ∃ t, poolStep s' (.work i now) = some t) ∨
        (s'.workers i).exit = .destructed) ∧
      ((s'.workers i).exit = .destructed → (s'.workers i).Left ∧
        (s'.main = .endTest .STOPPED i →
          ∃ t, poolStep s' .main = some t ∧ t.main = .endSet .STOPPED (i + 1))) := by
  obtain ⟨hstopping, htoil⟩ : Stopping i s ∧ (s.workers i).toil = (r.workers i).toil := by
    simp only [poolStep, Gtpoolrr.mainStep, hmain, i.isLt, dite_true, Option.some.injEq] at hs
    subst hs
    refine ⟨⟨?_, .inr (.inl ⟨i, rfl⟩)⟩, ?_⟩
    · simp only [set_workers_self]
    · simp only [set_workers_self]
      rfl
  have hspends : (poolMachine threadsTotal jobsPerThread).Spends (Stopping i)
      (fun _ l => l.within = true) (fun s => (s.workers i).toil) (toilsAt i) :=
    fun s l s' h hl hs => h.step (poolStep_cases hs) hl
  obtain ⟨hend, hcount⟩ := hspends.count_le hstopping hl hwithin
  have hbound : (r.workers i).toil ≤
      8 + ((r.workers i).outstanding.length + (r.workers i).posted.length) :=
    Nat.add_le_add_right (r.workers i).pc.toil_le _
  have hrun := (hr.next (show (poolMachine threadsTotal jobsPerThread).step r .main = some s
    from hs)).append hl
  obtain ⟨_, hworker⟩ := (projects i).run hrun
  have hexits := (ended_inv hrun).leaves.exits i
  refine ⟨by omega, ?_, fun hexit => ⟨hexits.left (by rw [hexit]; decide), fun htest => ?_⟩⟩
  · by_cases hstuck : (s'.workers i).Stuck
    · exact .inl hstuck
    by_cases hexit : (s'.workers i).exit = .destructed
    · exact .inr (.inr hexit)
    simp only [State.Stuck, not_or] at hstuck
    obtain ⟨hjob, hfailed, hring, hkey⟩ := hstuck
    have hpending : (s'.workers i).exit = .pending := by
      cases hpending : (s'.workers i).exit with
      | pending => rfl
      | destructed => exact absurd hpending hexit
      | noKey => exact absurd hpending hkey
    refine .inr (.inl fun now => ?_)
    obtain ⟨w, hw⟩ := (threads_inv hworker).1.goesOn (tasked_inv hworker) hjob hring
      (fun _ => hpending) hfailed now
    exact ⟨s'.set i w, by simp [poolStep, Pool.stepWorker, hw]⟩
  · have hdone := hexits.destructed.mp hexit
    exact ⟨{ s' with main := .endSet .STOPPED (i + 1) },
      by simp [poolStep, Gtpoolrr.mainStep, htest, hdone], rfl⟩

theorem stops_run_inJob :
    ∃ (later : List (Pool 2 1 × PoolLabel 2)) (s s' : Pool 2 1),
      ((poolMachine 2 1).after s).Run later s' ∧ (s'.workers 0).Left ∧
        later.countP (fun p => toilsAt 0 p.1 p.2) ≤ 8 := by
  obtain ⟨tr, r, hrun, hr⟩ := (poolMachine 2 1).exists_run_of_exec
    (startPool (fun _ => true) (fun _ => noPools) fun _ => 4096)
    [.call (.sbsPushRr ⟨1, 1, 0⟩), .main, .main, .work 0 0, .work 0 0, .work 0 0, .work 0 0,
      .call .stopSafe]
    (fun r => decide (r.main = .endSet .STOPPED (0 : Fin 2) ∧
        (r.workers 0).outstanding = [] ∧ (r.workers 0).posted = []) &&
      (poolStep r .main).any fun (s : Pool 2 1) =>
        (((poolMachine 2 1).after s).record [] s [.yield 0 .IOURING_READ, .main, .post 0 0,
            .work 0 0, .main, .work 0 0, .work 0 0]).any
          fun (p : List (Pool 2 1 × PoolLabel 2) × Pool 2 1) =>
            decide ((p.2.workers 0).pc = .left .STOPPED ∧ ∀ q ∈ p.1, q.2.within = true))
    ⟨by decide, _, _, _, rfl⟩ (by decide)
  rw [Bool.and_eq_true, decide_eq_true_eq] at hr
  obtain ⟨⟨hmain, houtstanding, hposted⟩, hr⟩ := hr
  obtain ⟨s, hs, hr⟩ := (Option.any_eq_true _ _).mp hr
  obtain ⟨⟨later, s'⟩, hlater, hr⟩ := (Option.any_eq_true _ _).mp hr
  rw [decide_eq_true_eq] at hr
  obtain ⟨hleft, hwithin⟩ := hr
  have hl := (Machine.Run.start (M := (poolMachine 2 1).after s) rfl).record hlater
  have hcount := (stops_run hrun hmain hs hl hwithin).1
  rw [houtstanding, hposted] at hcount
  exact ⟨later, s, s', hl, ⟨.STOPPED, hleft⟩, hcount⟩

end Pools

end Dert.Gtpoolrr
