import Dert.Library.Settling
import Dert.Pool.GtpoolrrPops

namespace Dert.Gtpoolrr

open Library

variable {threadsTotal jobsPerThread : Nat}

def Pc.turn : Pc → Nat
  | .noRing => 0
  | .joinTest => 1
  | .resume => 1
  | .take => 1
  | .forEachCqe => 0
  | .switch => 0
  | .inJob => 0
  | .complete => 0
  | .left _ => 0
  | .readyFull => 0
  | .noGreenThread => 0
  | .completionFull => 0

theorem Pc.turn_le (pc : Pc) : pc.turn ≤ 1 := by
  cases pc <;> simp [turn]

def State.serves (w : State jobsPerThread) : Bool :=
  w.pc = .resume && (w.runningThread.isSome || w.readyThreads.list ≠ []) ||
    w.pc = .take && w.submissionQueue.list ≠ []

def Label.works : Label → Bool
  | .work _ => true
  | .noKey => false
  | .yield _ => false
  | .finish => false
  | .post _ => false
  | .push _ => false
  | .pop => false
  | .ack => false
  | .desire _ => false

section Workers

variable {w w' : State jobsPerThread} {l : Label}

theorem desiredState_own (hs : Step w l w') (hown : l.own = true) :
    w'.desiredState = w.desiredState := by
  cases hs <;> first | rfl | cases hown

theorem turn_own (hs : step w l = some w') (hown : l.own = true)
    (hpaused : w.desiredState = .PAUSED) :
    w'.pc.turn + (l.works && w.serves).toNat ≤ w.pc.turn := by
  cases step_cases hs
  case active now hpc hactive => cases hpaused.symm.trans hactive
  case joining now hpc hjoining => cases hpaused.symm.trans hjoining
  case pushed => cases hown
  case submissionFull => cases hown
  case popped => cases hown
  case nonePopped => cases hown
  case desired => cases hown
  all_goals simp_all [Pc.turn, Label.works, State.serves]

end Workers

def eventAt (event : State jobsPerThread → Label → Bool) (k : Fin threadsTotal)
    (s : Pool threadsTotal jobsPerThread) (l : PoolLabel threadsTotal) : Bool :=
  match l.part with
  | some (index, own) => index = k && event (s.workers k) own
  | none => false

def servesAt (k : Fin threadsTotal) :
    Pool threadsTotal jobsPerThread → PoolLabel threadsTotal → Bool :=
  eventAt (fun w own => own.works && w.serves) k

def Call.lifts : Call threadsTotal → Bool
  | .sbsPushRr _ => false
  | .sbsPushallRr _ => false
  | .sbsPushDirect _ _ => false
  | .sbsPushallDirect _ _ => false
  | .cpsPop => false
  | .cpsPopsome _ => false
  | .cpsPopall _ => false
  | .pause => false
  | .resume => true
  | .stopSafe => true
  | .join => true

def PoolLabel.lifts : PoolLabel threadsTotal → Bool
  | .work _ _ => false
  | .noKey _ => false
  | .yield _ _ => false
  | .finish _ => false
  | .post _ _ => false
  | .ack _ => false
  | .call lifter => lifter.lifts
  | .main => false

def Main.Pauses : Main threadsTotal → Prop
  | .returned _ => True
  | .pushRr _ _ => True
  | .pushDirect _ _ => True
  | .cpsPop _ _ => True
  | .set state _ => state = .PAUSED
  | .endSet _ _ => False
  | .endTest _ _ => False

theorem pauses_enter {call : Call threadsTotal} (h : call.lifts = false) : (enter call).Pauses := by
  cases call with
  | cpsPopsome atMost =>
    rw [enter]
    split_ifs <;> trivial
  | cpsPopall waitFor =>
    rw [enter]
    split_ifs <;> trivial
  | pause => rfl
  | resume => cases h
  | stopSafe => cases h
  | join => cases h
  | _ => trivial

theorem pauses_popped (popper : Popper) (n : Nat) :
    (popper.popped n : Main threadsTotal).Pauses := by
  cases popper with
  | pop => trivial
  | popsome atMost | popall atMost =>
    rw [Popper.popped]
    split_ifs <;> trivial

theorem pauses_busy (popper : Popper) : (popper.busy : Main threadsTotal).Pauses := by
  cases popper <;> trivial

structure Paused (s : Pool threadsTotal jobsPerThread) : Prop where
  desired : ∀ k, (s.workers k).desiredState = .PAUSED
  main : s.main.Pauses

section Pools

variable {s s' : Pool threadsTotal jobsPerThread} {index k : Fin threadsTotal}
  {worker : State jobsPerThread} {l : PoolLabel threadsTotal}

theorem desired_set (h : ∀ k, (s.workers k).desiredState = .PAUSED)
    (hw : worker.desiredState = .PAUSED) (k : Fin threadsTotal) :
    ((s.set index worker).workers k).desiredState = .PAUSED := by
  by_cases hk : k = index
  · subst hk
    rwa [set_workers_self]
  · rw [set_workers_of_ne worker hk]
    exact h k

theorem turn_set (h : worker.pc = (s.workers index).pc) :
    ((s.set index worker).workers k).pc.turn = (s.workers k).pc.turn := by
  by_cases hk : k = index
  · subst hk
    rw [set_workers_self, h]
  · rw [set_workers_of_ne worker hk]

theorem rank_set (rank : State jobsPerThread → Nat) {event : State jobsPerThread → Label → Bool}
    {own : Label} (hpart : l.part = some (index, own))
    (h : rank worker + (event (s.workers index) own).toNat ≤ rank (s.workers index))
    (k : Fin threadsTotal) :
    rank ((s.set index worker).workers k) + (eventAt event k s l).toNat ≤ rank (s.workers k) := by
  simp only [eventAt, hpart]
  by_cases hk : k = index
  · subst hk
    simpa using h
  · rw [set_workers_of_ne worker hk, decide_eq_false (Ne.symm hk)]
    simp

variable [NeZero threadsTotal]

theorem PopStep.pauses {popper : Popper} {i : Nat} (hs : PopStep s popper i s') :
    s'.main.Pauses := by
  cases hs with
  | popped => exact pauses_popped popper _
  | none => trivial
  | busy => exact pauses_busy popper

theorem Paused.mainStep (h : Paused s) (hs : MainStep s s') :
    Paused s' ∧ (s'.workers k).pc.turn = (s.workers k).pc.turn := by
  have hmain := h.main
  cases hs with
  | pushRr job jobs i submissionQueue hmain =>
    exact ⟨⟨desired_set h.desired (h.desired _), trivial⟩, turn_set rfl⟩
  | pushDirect job jobs index submissionQueue hmain =>
    exact ⟨⟨desired_set h.desired (h.desired _), trivial⟩, turn_set rfl⟩
  | pushEnd => exact ⟨⟨h.desired, trivial⟩, rfl⟩
  | pushFails => exact ⟨⟨h.desired, trivial⟩, rfl⟩
  | cpsPop popper i _ hmain hs =>
    have hpauses := hs.pauses
    cases hs with
    | popped => exact ⟨⟨desired_set h.desired (h.desired _), hpauses⟩, turn_set rfl⟩
    | none => exact ⟨⟨h.desired, hpauses⟩, rfl⟩
    | busy => exact ⟨⟨h.desired, hpauses⟩, rfl⟩
  | set state i hi hset =>
    rw [hset] at hmain
    exact ⟨⟨desired_set h.desired hmain, hmain⟩, turn_set rfl⟩
  | setEnd => exact ⟨⟨h.desired, trivial⟩, rfl⟩
  | endSet state i hi hend =>
    rw [hend] at hmain
    exact hmain.elim
  | ended state i hend =>
    rw [hend] at hmain
    exact hmain.elim
  | endDone state i hend =>
    rw [hend] at hmain
    exact hmain.elim
  | endAgain state i hend =>
    rw [hend] at hmain
    exact hmain.elim

theorem Paused.step (h : Paused s) (hs : PoolStep s l s') (hl : l.lifts = false)
    (k : Fin threadsTotal) :
    Paused s' ∧ (s'.workers k).pc.turn + (servesAt k s l).toNat ≤ (s.workers k).pc.turn := by
  cases hs with
  | worker _ index own worker hpart hw =>
    have hown := part_own hpart
    refine ⟨⟨desired_set h.desired ?_, h.main⟩, ?_⟩
    · rw [desiredState_own (step_cases hw) hown, h.desired]
    · exact rank_set (fun w => w.pc.turn) hpart (turn_own hw hown (h.desired index)) k
  | called call => exact ⟨⟨h.desired, pauses_enter hl⟩, Nat.le_refl _⟩
  | main _ _ hs =>
    obtain ⟨hpaused, hturn⟩ := h.mainStep hs
    exact ⟨hpaused, Nat.le_of_eq hturn⟩

structure Pausing (s : Pool threadsTotal jobsPerThread) : Prop where
  main : s.main = .returned .ok ∧ (∀ k, (s.workers k).desiredState = .PAUSED) ∨
    ∃ i, s.main = .set .PAUSED i ∧ ∀ k : Fin threadsTotal, k < i →
      (s.workers k).desiredState = .PAUSED

theorem Pausing.step (h : Pausing s) (hs : PoolStep s l s') (hl : l.within = true) :
    Pausing s' := by
  cases hs with
  | worker _ index own worker hpart hw =>
    have hdesired (k : Fin threadsTotal) :
        ((s.set index worker).workers k).desiredState = (s.workers k).desiredState := by
      by_cases hk : k = index
      · subst hk
        rw [set_workers_self, desiredState_own (step_cases hw) (part_own hpart)]
      · rw [set_workers_of_ne worker hk]
    refine ⟨h.main.imp (fun h => ⟨h.1, fun k => ?_⟩) ?_⟩
    · rw [hdesired, h.2]
    · rintro ⟨i, hmain, hset⟩
      exact ⟨i, hmain, fun k hk => by rw [hdesired, hset k hk]⟩
  | called => cases hl
  | main _ hs =>
    rcases h.main with ⟨hmain, -⟩ | ⟨i, hmain, hset⟩
    · simp [mainStep_returned hmain] at hs
    · by_cases hi : i < threadsTotal
      · simp only [mainStep, hmain, hi, dite_true, Option.some.injEq] at hs
        subst hs
        refine ⟨.inr ⟨i + 1, rfl, fun k hk => ?_⟩⟩
        by_cases heq : k = ⟨i, hi⟩
        · subst heq
          simp only [set_workers_self]
        · simp only [set_workers_of_ne _ heq]
          have hne : k.val ≠ i := fun h => heq (Fin.ext h)
          exact hset k (by omega)
      · simp only [mainStep, hmain, hi, dite_false, Option.some.injEq] at hs
        subst hs
        exact ⟨.inl ⟨rfl, fun k => hset k (Nat.lt_of_lt_of_le k.isLt (Nat.not_lt.mp hi))⟩⟩

/-- From when `gtpoolrr_pause` has returned until a call lifts it a worker goes on with at most
one job: it resumes one green thread or takes one job from its queue, whatever is pushed and
popped meanwhile and whatever the kernel posts. -/
theorem paused_run {r t : Pool threadsTotal jobsPerThread}
    {pausing later : List (Pool threadsTotal jobsPerThread × PoolLabel threadsTotal)} {res : Ret}
    (hcall : poolStep r (.call .pause) = some s)
    (hp : ((poolMachine threadsTotal jobsPerThread).after s).Run pausing t)
    (hwithin : ∀ p ∈ pausing, p.2.within = true) (hres : t.main = .returned res)
    (hl : ((poolMachine threadsTotal jobsPerThread).after t).Run later s')
    (hlifts : ∀ p ∈ later, p.2.lifts = false) (k : Fin threadsTotal) :
    res = .ok ∧ later.countP (fun p => servesAt k p.1 p.2) ≤ 1 := by
  have hpausing : Pausing t := by
    refine (hp.invariant (I := Pausing) (G := fun _ l => l.within = true) ?_
      (fun s l s' h hg hs => h.step (poolStep_cases hs) hg) hwithin)
    rintro s rfl
    obtain ⟨-, rfl⟩ := poolStep_call hcall
    exact ⟨.inr ⟨0, rfl, fun k hk => absurd hk (Nat.not_lt_zero _)⟩⟩
  rcases hpausing.main with ⟨hmain, hdesired⟩ | ⟨i, hmain, -⟩
  · cases hres.symm.trans hmain
    have hspends : (poolMachine threadsTotal jobsPerThread).Spends Paused
        (fun _ l => l.lifts = false) (fun s => (s.workers k).pc.turn) (servesAt k) :=
      fun s l s' h hl hs => h.step (poolStep_cases hs) hl k
    have hpaused : Paused t := ⟨hdesired, by rw [hmain]; trivial⟩
    have hcount := (hspends.count_le hpaused hl hlifts).2
    have hturn := (t.workers k).pc.turn_le
    exact ⟨rfl, by omega⟩
  · cases hres.symm.trans hmain

theorem paused_run_secondTurn :
    ∃ (pausing later : List (Pool 2 1 × PoolLabel 2)) (t s' : Pool 2 1),
      ((poolMachine 2 1).after t).Run later s' ∧ later.length = 7 ∧ (s'.workers 0).started = 1 ∧
        t.main = .returned .ok ∧ pausing.length = 3 ∧
          later.countP (fun p => servesAt 0 p.1 p.2) ≤ 1 := by
  obtain ⟨-, r, -, hr⟩ := (poolMachine 2 1).exists_run_of_exec
    (startPool (fun _ => true) (fun _ => noPools) fun _ => 4096)
    [.call (.sbsPushRr ⟨1, 1, 0⟩), .main, .main, .work 0 0, .work 0 0, .work 0 0]
    (fun r => (poolStep r (.call .pause)).any fun (s : Pool 2 1) =>
      (((poolMachine 2 1).after s).record [] s [.main, .main, .main]).any
        fun (p : List (Pool 2 1 × PoolLabel 2) × Pool 2 1) =>
        decide (p.2.main = .returned .ok ∧ p.1.length = 3 ∧ ∀ q ∈ p.1, q.2.within = true) &&
          (((poolMachine 2 1).after p.2).record [] p.2 [.work 0 0, .yield 0 .NOP, .work 0 0,
              .work 0 0, .work 0 0, .work 0 0, .work 0 0]).any
            fun (q : List (Pool 2 1 × PoolLabel 2) × Pool 2 1) =>
            decide (q.1.length = 7 ∧ (q.2.workers 0).started = 1 ∧
              ∀ p ∈ q.1, p.2.lifts = false))
    ⟨by decide, _, _, _, rfl⟩ (by decide)
  obtain ⟨s, hcall, hr⟩ := (Option.any_eq_true _ _).mp hr
  obtain ⟨⟨pausing, t⟩, hpausing, hr⟩ := (Option.any_eq_true _ _).mp hr
  rw [Bool.and_eq_true, decide_eq_true_eq] at hr
  obtain ⟨⟨hmain, hlength, hwithin⟩, hr⟩ := hr
  obtain ⟨⟨later, s'⟩, hlater, hr⟩ := (Option.any_eq_true _ _).mp hr
  rw [decide_eq_true_eq] at hr
  obtain ⟨hlength', hstarted, hlifts⟩ := hr
  have hp := (Machine.Run.start (M := (poolMachine 2 1).after s) rfl).record hpausing
  have hl := (Machine.Run.start (M := (poolMachine 2 1).after t) rfl).record hlater
  exact ⟨pausing, later, t, s', hl, hlength', hstarted, hmain, hlength,
    (paused_run hcall hp hwithin hmain hl hlifts 0).2⟩

end Pools

end Dert.Gtpoolrr
