import Dert.Pool.GtpoolrrExits

namespace Dert.Gtpoolrr

open Library

variable {threadsTotal jobsPerThread : Nat}

section Workers

variable {w w' : State jobsPerThread} {l : Label}

structure Stays (w w' : State jobsPerThread) : Prop where
  pc : w'.pc = w.pc
  dequeued : w'.dequeued = w.dequeued
  completed : w'.completed = w.completed
  started : w'.started = w.started
  finished : w'.finished = w.finished

theorem Stays.refl (w : State jobsPerThread) : Stays w w := ⟨rfl, rfl, rfl, rfl, rfl⟩

theorem Stays.trans {w'' : State jobsPerThread} (h : Stays w w') (h' : Stays w' w'') :
    Stays w w'' :=
  ⟨h'.pc.trans h.pc, h'.dequeued.trans h.dequeued, h'.completed.trans h.completed,
    h'.started.trans h.started, h'.finished.trans h.finished⟩

theorem Stays.left (h : Stays w w') (hleft : w.Left) : w'.Left := by
  obtain ⟨why, hpc⟩ := hleft
  exact ⟨why, h.pc.trans hpc⟩

theorem Step.stays (hs : Step w l w') (hleft : w.Left) : Stays w w' := by
  obtain ⟨why, hpc⟩ := hleft
  cases hs
  case destructed => exact ⟨rfl, rfl, rfl, rfl, rfl⟩
  case unkeyed => exact ⟨rfl, rfl, rfl, rfl, rfl⟩
  case posted => exact ⟨rfl, rfl, rfl, rfl, rfl⟩
  case pushed => exact ⟨rfl, rfl, rfl, rfl, rfl⟩
  case submissionFull => exact .refl w
  case popped => exact ⟨rfl, rfl, rfl, rfl, rfl⟩
  case nonePopped => exact .refl w
  case acked => exact ⟨rfl, rfl, rfl, rfl, rfl⟩
  case desired => exact ⟨rfl, rfl, rfl, rfl, rfl⟩
  all_goals simp_all

theorem Threads.taken (h : Threads w) (hleft : w.Left) :
    w.completed.length + w.live.length = w.dequeued.length := by
  obtain ⟨why, hpc⟩ := hleft
  have hdequeued := h.counts.dequeued
  have hcompleted := h.counts.completed
  have hlength := h.length
  simp only [hpc, reduceCtorEq, or_self, if_false] at hdequeued hcompleted
  omega

end Workers

section Stops

def Main.passed : Main threadsTotal → Nat
  | .returned _ => 0
  | .pushRr _ _ => 0
  | .pushDirect _ _ => 0
  | .cpsPop _ _ => 0
  | .set _ _ => 0
  | .endSet _ i => i
  | .endTest _ i => i

theorem passed_enter (call : Call threadsTotal) : (enter call).passed = 0 := by
  cases call <;> simp only [enter] <;> try rfl
  all_goals split_ifs <;> rfl

theorem passed_popped (popper : Popper) (n : Nat) :
    (popper.popped n : Main threadsTotal).passed = 0 := by
  cases popper <;> simp only [Popper.popped] <;> try rfl
  all_goals split_ifs <;> rfl

theorem passed_busy (popper : Popper) : (popper.busy : Main threadsTotal).passed = 0 := by
  cases popper <;> rfl

variable [NeZero threadsTotal] {s s' : Pool threadsTotal jobsPerThread}
  {l : PoolLabel threadsTotal}
  {tr : List (Pool threadsTotal jobsPerThread × PoolLabel threadsTotal)}

structure Ended (s : Pool threadsTotal jobsPerThread) : Prop where
  leaves : Leaves s
  passed : ∀ k : Fin threadsTotal, k < s.main.passed → (s.workers k).Left
  stopped : s.stopped = true → ∀ k, (s.workers k).Left

theorem PoolStep.stays (hs : PoolStep s l s') {k : Fin threadsTotal} (hleft : (s.workers k).Left) :
    Stays (s.workers k) (s'.workers k) := by
  rcases hs.projects k with hsame | ⟨m, hm⟩
  · rw [hsame]
    exact .refl _
  · exact (step_cases hm).stays hleft

theorem PoolStep.passed (hs : PoolStep s l s') (k : Fin threadsTotal) :
    (k < s'.main.passed → k < s.main.passed ∨
        threadAlreadyDone (s.workers k).currentState = true) ∧
      (s'.stopped = true → s.stopped = true ∨ k < s.main.passed) := by
  cases hs with
  | worker => exact ⟨.inl, .inl⟩
  | called call =>
    refine ⟨fun h => ?_, .inl⟩
    rw [passed_enter] at h
    cases h
  | main _ _ hs =>
    cases hs with
    | cpsPop popper i _ hmain hs =>
      cases hs with
      | popped =>
        refine ⟨fun h => ?_, .inl⟩
        rw [passed_popped] at h
        cases h
      | none =>
        refine ⟨fun h => ?_, .inl⟩
        cases h
      | busy =>
        refine ⟨fun h => ?_, .inl⟩
        rw [passed_busy] at h
        cases h
    | endSet state i hi hmain =>
      rw [hmain]
      exact ⟨.inl, .inl⟩
    | ended state i hmain hi =>
      rw [hmain]
      exact ⟨fun h => absurd h (Nat.not_lt_zero _), fun _ => .inr (Nat.lt_of_lt_of_le k.isLt hi)⟩
    | endDone state i hmain hdone =>
      rw [hmain]
      refine ⟨fun h => ?_, .inl⟩
      rcases Nat.lt_or_eq_of_le (Nat.le_of_lt_succ h) with hlt | heq
      · exact .inl hlt
      · exact .inr (by rwa [Fin.ext heq])
    | endAgain state i hmain hdone =>
      rw [hmain]
      exact ⟨.inl, .inl⟩
    | _ => exact ⟨fun h => absurd h (Nat.not_lt_zero _), .inl⟩

theorem Ended.step (h : Ended s) (hs : PoolStep s l s') : Ended s' := by
  refine ⟨h.leaves.step hs, fun k hk => ?_, fun hstopped k => ?_⟩
  · have hleft : (s.workers k).Left :=
      ((hs.passed k).1 hk).elim (h.passed k) (h.leaves.exits k).left_of_done
    exact (hs.stays hleft).left hleft
  · have hleft : (s.workers k).Left :=
      ((hs.passed k).2 hstopped).elim (fun hstopped => h.stopped hstopped k) (h.passed k)
    exact (hs.stays hleft).left hleft

theorem ended_inv (hr : (poolMachine threadsTotal jobsPerThread).Run tr s) : Ended s := by
  refine hr.always (I := Ended) ?_ fun s l s' h hs => h.step (poolStep_cases hs)
  rintro s ⟨-, ring, memory, greenThreads, rfl⟩
  exact ⟨leaves_start ring memory greenThreads, fun k hk => absurd hk (Nat.not_lt_zero _),
    fun hstopped => absurd hstopped Bool.false_ne_true⟩

/-- When `gtpoolrr_stop_safe` or `gtpoolrr_join` has returned, every worker has left its loop, and
whatever is called afterwards none of them takes, starts or completes another job.  The jobs it
did not take stay in its queue, and those that it took and did not complete are as many as the
green threads it has left behind. -/
theorem stopped_run {later : List (Pool threadsTotal jobsPerThread × PoolLabel threadsTotal)}
    (hr : (poolMachine threadsTotal jobsPerThread).Run tr s) (hstopped : s.stopped = true)
    (hl : ((poolMachine threadsTotal jobsPerThread).after s).Run later s') (k : Fin threadsTotal) :
    (∃ why, (s'.workers k).pc = .left why) ∧
      (s'.workers k).dequeued = (s.workers k).dequeued ∧
      (s'.workers k).completed = (s.workers k).completed ∧
      (s'.workers k).started = (s.workers k).started ∧
      (s'.workers k).accepted = (s.workers k).dequeued ++ (s'.workers k).submissionQueue.list ∧
      (s'.workers k).completed.length + (s'.workers k).live.length =
        (s'.workers k).dequeued.length := by
  have hleft := (ended_inv hr).stopped hstopped k
  have hstays : Stays (s.workers k) (s'.workers k) := by
    refine hl.always (I := fun s' => Stays (s.workers k) (s'.workers k)) ?_ fun t l t' h hs => ?_
    · rintro t rfl
      exact .refl _
    · exact h.trans ((poolStep_cases hs).stays (h.left hleft))
  obtain ⟨_, hworker⟩ := (projects k).run (hr.append hl)
  obtain ⟨hthreads, -⟩ := threads_inv hworker
  have haccepted := hthreads.inv.split
  rw [hstays.dequeued] at haccepted
  exact ⟨hstays.left hleft, hstays.dequeued, hstays.completed, hstays.started, haccepted,
    hthreads.taken (hstays.left hleft)⟩

theorem stopped_run_parked :
    ∃ (tr later : List (Pool 2 1 × PoolLabel 2)) (s s' : Pool 2 1), (poolMachine 2 1).Run tr s ∧
      ((poolMachine 2 1).after s).Run later s' ∧ (s'.workers 0).accepted.length = 2 ∧
        (s'.workers 0).dequeued = (s.workers 0).dequeued ∧
        (s'.workers 0).completed.length + (s'.workers 0).live.length = 1 := by
  obtain ⟨tr, s, hr, hs⟩ := (poolMachine 2 1).exists_run_of_exec
    (startPool (fun _ => true) (fun _ => noPools) fun _ => 4096)
    [.call (.sbsPushRr ⟨1, 1, 0⟩), .main, .main, .work 0 0, .work 0 0, .work 0 0, .work 0 0,
      .yield 0 .IOURING_READ, .call .stopSafe, .main, .main, .main, .work 0 0, .work 0 0,
      .work 0 0, .main, .main, .work 1 0, .work 1 0, .work 1 0, .main, .main]
    (fun s => s.stopped = true ∧ (((poolMachine 2 1).after s).record [] s
        [.call (.sbsPushDirect 0 ⟨1, 1, 7⟩), .main, .main, .post 0 0]).any
      (fun r => decide ((r.2.workers 0).accepted.length = 2 ∧
        (r.2.workers 0).dequeued.length = 1)) = true)
    ⟨by decide, _, _, _, rfl⟩ (by decide)
  simp only [decide_eq_true_eq] at hs
  obtain ⟨hstopped, hgoes⟩ := hs
  obtain ⟨later, s', hl, hend⟩ := ((poolMachine 2 1).after s).exists_run_of_record s
    [.call (.sbsPushDirect 0 ⟨1, 1, 7⟩), .main, .main, .post 0 0]
    (fun _ s' => (s'.workers 0).accepted.length = 2 ∧ (s'.workers 0).dequeued.length = 1)
    rfl hgoes
  simp only [decide_eq_true_eq] at hend
  obtain ⟨haccepted, htaken⟩ := hend
  obtain ⟨-, hdequeued, -, -, -, hlive⟩ := stopped_run hr hstopped hl 0
  exact ⟨tr, later, s, s', hr, hl, haccepted, hdequeued, hlive.trans htaken⟩

end Stops

end Dert.Gtpoolrr
