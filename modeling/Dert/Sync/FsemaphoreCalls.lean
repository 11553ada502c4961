import Dert.Sync.FsemaphoreLaws

namespace Dert.Fsemaphore

open Library

section Calls

structure Sem where
  locked : Bool
  counter : UInt64
  max : UInt64
  deriving DecidableEq

structure Wakes where
  counter : Int
  mutex : Int

def EDEADLK : Int := 35

def fsemaphoreInit (val max : UInt64) : Option Sem :=
  if max = 0 then none else some { locked := false, counter := val, max }

/-- Nobody else unlocks it: the call does not return where it is locked. -/
def fmutexLock (s : Sem) : Option Sem :=
  if s.locked then none else some { s with locked := true }

def fmutexUnlock (s : Sem) (woken : Int) : Sem × Int :=
  if s.locked then ({ s with locked := false }, if woken < 0 then woken else 0) else (s, 0)

def cleanup (s : Sem) (mutexLocked : Bool) (woken : Int) : Sem :=
  if mutexLocked then (fmutexUnlock s woken).1 else s

def fsemaphoreExhaust (s : Sem) (wakes : Wakes) : Option (Sem × Int) := do
  let s ← fmutexLock s
  let (s, res) := fmutexUnlock { s with counter := 0 } wakes.mutex
  if res ≠ 0 then some (s, res) else some (s, 0)

/-- It sleeps for good where the counter is zero. -/
def fsemaphoreWait (s : Sem) (wakes : Wakes) : Option (Sem × Int) := do
  let s ← fmutexLock s
  if 0 < s.counter then
    some (cleanup { s with counter := s.counter - 1 } true wakes.mutex, 0)
  else
    let (s, res) := fmutexUnlock s wakes.mutex
    if res ≠ 0 then some (cleanup s true wakes.mutex, res) else none

/-- The mutex, whether it is held, and `res` where the label is reached. -/
def postBody (s : Sem) (wakes : Wakes) : Sem × Bool × Int :=
  if s.counter = s.max then (s, true, EDEADLK)
  else
    let s := { s with counter := s.counter + 1 }
    if wakes.counter < 0 then (s, true, wakes.counter)
    else
      let (s, res) := fmutexUnlock s wakes.mutex
      if res ≠ 0 then (s, true, res) else (s, false, 0)

/-- `res` is not what is returned. -/
def fsemaphorePost (s : Sem) (wakes : Wakes) : Option (Sem × Int) := do
  let s ← fmutexLock s
  let (s, mutexLocked, _) := postBody s wakes
  some (cleanup s mutexLocked wakes.mutex, 0)

def fsemaphoreReset (s : Sem) (wakes : Wakes) : Option (Sem × Int) := do
  let s ← fmutexLock s
  let s := { s with counter := s.max }
  if wakes.counter < 0 then some (cleanup s true wakes.mutex, wakes.counter)
  else
    let (s, res) := fmutexUnlock s wakes.mutex
    if res ≠ 0 then some (s, res) else some (cleanup s false wakes.mutex, 0)

inductive Call
  | wait (wakes : Wakes)
  | post (wakes : Wakes)
  | exhaust (wakes : Wakes)
  | reset (wakes : Wakes)

def call (s : Sem) : Call → Option (Sem × Int)
  | .wait wakes => fsemaphoreWait s wakes
  | .post wakes => fsemaphorePost s wakes
  | .exhaust wakes => fsemaphoreExhaust s wakes
  | .reset wakes => fsemaphoreReset s wakes

def Allowed (s : Sem) : Call → Prop
  | .wait _ => 0 < s.counter
  | _ => True

instance (s : Sem) (c : Call) : Decidable (Allowed s c) :=
  match c with
  | .wait _ => inferInstanceAs (Decidable (0 < s.counter))
  | .post _ => isTrue trivial
  | .exhaust _ => isTrue trivial
  | .reset _ => isTrue trivial

def sequential (val max : UInt64) : Machine Sem Call where
  init s := fsemaphoreInit val max = some s
  step s c := if Allowed s c then (call s c).map Prod.fst else none

def CallLaw (s : Sem) (c : Call) : Prop :=
  ∃ s' ret, call s c = some (s', ret) ∧ s'.counter ≤ s'.max ∧
    match c with
    | .wait _ => ret = 0 → s'.counter.toNat + 1 = s.counter.toNat
    | .post _ => (ret = 0 ↔ s'.counter.toNat = s.counter.toNat + 1) ∧
        (s.counter = s.max → ret ≠ 0 ∧ s' = s)
    | _ => True

def Overflows (s : Sem) : Call → Prop
  | .post _ => s.counter = s.max
  | _ => False

end Calls

section Laws

variable {val max : UInt64} {s s' : Sem} {c : Call} {tr : List (Sem × Call)}

/-- The calls that return zero though a system call has failed. -/
def Call.ignores : Call → Bool
  | .wait _ => true
  | .post _ => true
  | _ => false

def after (s : Sem) : Call → UInt64
  | .wait _ => s.counter - 1
  | .post _ => if s.counter = s.max then s.counter else s.counter + 1
  | .exhaust _ => 0
  | .reset _ => s.max

theorem lock_free (h : s.locked = false) : fmutexLock s = some { s with locked := true } := by
  rw [fmutexLock, h]
  rfl

theorem unlock_held (h : s.locked = true) (woken : Int) :
    fmutexUnlock s woken = ({ s with locked := false }, if woken < 0 then woken else 0) := by
  rw [fmutexUnlock, if_pos h]

theorem unlock_free (h : s.locked = false) (woken : Int) : fmutexUnlock s woken = (s, 0) := by
  rw [fmutexUnlock, h]
  rfl

theorem cleanup_held (h : s.locked = true) (woken : Int) :
    cleanup s true woken = { s with locked := false } := by
  rw [cleanup, if_pos rfl, unlock_held h]

theorem cleanup_free (h : s.locked = false) (b : Bool) (woken : Int) : cleanup s b woken = s := by
  rw [cleanup, unlock_free h]
  exact ite_self s

theorem cleanup_postBody (h : s.locked = true) (wakes : Wakes) :
    cleanup (postBody s wakes).1 (postBody s wakes).2.1 wakes.mutex
      = { s with locked := false, counter := after s (.post wakes) } := by
  rw [postBody, after]
  split_ifs with hfull hcounter
  · exact cleanup_held h _
  · exact cleanup_held (s := { s with counter := s.counter + 1 }) h _
  · simp only [unlock_held (s := { s with counter := s.counter + 1 }) h]
    split_ifs
    all_goals exact cleanup_free rfl ..

theorem call_returns (h : s.locked = false) (hallowed : Allowed s c) :
    ∃ ret, call s c = some ({ s with counter := after s c }, ret) ∧
      (c.ignores = true → ret = 0) := by
  obtain ⟨locked, counter, max⟩ := s
  obtain rfl : locked = false := h
  cases c with
  | wait wakes =>
    refine ⟨0, ?_, fun _ => rfl⟩
    rw [call, fsemaphoreWait, lock_free rfl]
    exact if_pos hallowed
  | post wakes =>
    refine ⟨0, ?_, fun _ => rfl⟩
    rw [call, fsemaphorePost, lock_free rfl]
    exact congrArg (fun s => some (s, (0 : Int))) (cleanup_postBody rfl wakes)
  | exhaust wakes =>
    refine ⟨if wakes.mutex < 0 then wakes.mutex else 0, ?_, by simp [Call.ignores]⟩
    rw [call, fsemaphoreExhaust, lock_free rfl]
    simp only [Option.bind_eq_bind, Option.bind_some, unlock_held]
    split_ifs <;> simp_all [after]
  | reset wakes =>
    rcases Int.lt_or_le wakes.counter 0 with hneg | hnonneg
    · refine ⟨wakes.counter, ?_, by simp [Call.ignores]⟩
      rw [call, fsemaphoreReset, lock_free rfl]
      exact if_pos hneg
    · refine ⟨if wakes.mutex < 0 then wakes.mutex else 0, ?_, by simp [Call.ignores]⟩
      rw [call, fsemaphoreReset, lock_free rfl]
      simp only [Option.bind_eq_bind, Option.bind_some, if_neg (Int.not_lt.mpr hnonneg),
        unlock_held]
      split_ifs <;> simp_all [after, cleanup]

theorem after_post (hbounded : s.counter ≤ s.max) (hne : s.counter ≠ s.max) :
    (s.counter + 1).toNat = s.counter.toNat + 1 := by
  have hlt : s.counter.toNat < s.max.toNat := UInt64.lt_of_le_of_ne hbounded hne
  rw [UInt64.toNat_add]
  exact Nat.mod_eq_of_lt (Nat.lt_of_le_of_lt hlt s.max.toNat_lt)

theorem after_wait (hpos : 0 < s.counter) : (s.counter - 1).toNat + 1 = s.counter.toNat := by
  have hone : 1 ≤ s.counter.toNat := hpos
  rw [UInt64.toNat_sub_of_le _ _ hpos]
  exact Nat.sub_add_cancel hone

theorem after_le (hbounded : s.counter ≤ s.max) (hallowed : Allowed s c)
    (hflow : ¬Overflows s c) : after s c ≤ s.max := by
  have hle : s.counter.toNat ≤ s.max.toNat := hbounded
  cases c with
  | wait wakes =>
    have hless := after_wait hallowed
    exact Nat.le_of_succ_le (Nat.le_trans (Nat.le_of_eq hless) hle)
  | post wakes =>
    have hmore : after s (.post wakes) = s.counter + 1 := if_neg hflow
    rw [hmore, UInt64.le_iff_toNat_le, after_post hbounded hflow]
    exact UInt64.lt_of_le_of_ne hbounded hflow
  | exhaust wakes => exact Nat.zero_le _
  | reset wakes => exact Nat.le_refl _

theorem callLaw_iff (h : s.locked = false) (hbounded : s.counter ≤ s.max)
    (hallowed : Allowed s c) : CallLaw s c ↔ ¬Overflows s c := by
  obtain ⟨ret, hcall, hzero⟩ := call_returns h hallowed
  constructor
  · rintro ⟨s', ret', hcall', -, hlaw⟩ hfull
    cases c with
    | post wakes =>
      obtain ⟨-, rfl⟩ := Prod.mk.inj (Option.some.inj (hcall.symm.trans hcall'))
      exact (hlaw.2 hfull).1 (hzero rfl)
    | wait wakes => exact hfull
    | exhaust wakes => exact hfull
    | reset wakes => exact hfull
  · intro hflow
    refine ⟨_, ret, hcall, after_le hbounded hallowed hflow, ?_⟩
    cases c with
    | wait wakes => exact fun _ => after_wait hallowed
    | post wakes =>
      have hmore : after s (.post wakes) = s.counter + 1 := if_neg hflow
      refine ⟨iff_of_true (hzero rfl) ?_, fun hfull => absurd hfull hflow⟩
      rw [hmore]
      exact after_post hbounded hflow
    | exhaust wakes => trivial
    | reset wakes => trivial

structure Ready (max : UInt64) (s : Sem) : Prop where
  free : s.locked = false
  max : s.max = max

theorem step_sequential (h : Ready max s) (hstep : (sequential val max).step s c = some s') :
    Allowed s c ∧ s' = { s with counter := after s c } := by
  simp only [sequential, Option.ite_none_right_eq_some] at hstep
  obtain ⟨hallowed, hstep⟩ := hstep
  obtain ⟨ret, hcall, -⟩ := call_returns h.free hallowed
  rw [hcall] at hstep
  exact ⟨hallowed, (Option.some.inj hstep).symm⟩

theorem init_sequential (h : (sequential val max).init s) : Ready max s ∧ s.counter = val := by
  simp only [sequential, fsemaphoreInit, Option.ite_none_left_eq_some, Option.some.injEq] at h
  obtain ⟨-, rfl⟩ := h
  exact ⟨⟨rfl, rfl⟩, rfl⟩

structure Accounts (max : UInt64) (tr : List (Sem × Call)) (s : Sem) : Prop where
  bounded : ∀ x, Machine.Visits tr s x → x.counter ≤ max
  calls : ∀ e ∈ tr, CallLaw e.1 e.2

/-- The account is right for exactly the runs that start within the bound and never post to a
full semaphore. -/
theorem accounts_iff (hr : (sequential val max).Run tr s) :
    Accounts max tr s ↔ val ≤ max ∧ ∀ e ∈ tr, ¬Overflows e.1 e.2 := by
  have hstart (hval : val ≤ max) (x : Sem) (hx : (sequential val max).init x) :
      Ready max x ∧ x.counter ≤ max := by
    obtain ⟨hready, rfl⟩ := init_sequential hx
    exact ⟨hready, hval⟩
  have hnext (x : Sem) (c : Call) (x' : Sem) (hx : Ready max x ∧ x.counter ≤ max)
      (hflow : ¬Overflows x c) (hstep : (sequential val max).step x c = some x') :
      Ready max x' ∧ x'.counter ≤ max := by
    obtain ⟨⟨hfree, rfl⟩, hbounded⟩ := hx
    obtain ⟨hallowed, rfl⟩ := step_sequential ⟨hfree, rfl⟩ hstep
    exact ⟨⟨hfree, rfl⟩, after_le hbounded hallowed hflow⟩
  have hcalls (hval : val ≤ max) :
      (∀ e ∈ tr, CallLaw e.1 e.2) ↔ ∀ e ∈ tr, ¬Overflows e.1 e.2 :=
    hr.steps_iff (L := CallLaw) (G := fun x c => ¬Overflows x c) (hstart hval) hnext
      fun x c x' hx hstep => by
        obtain ⟨⟨hfree, rfl⟩, hbounded⟩ := hx
        exact callLaw_iff hfree hbounded (step_sequential ⟨hfree, rfl⟩ hstep).1
  constructor
  · rintro ⟨hbounded, hlaw⟩
    obtain ⟨x, hinit, hx⟩ := hr.visits_init
    have hval : val ≤ max := (init_sequential hinit).2 ▸ hbounded x hx
    exact ⟨hval, (hcalls hval).mp hlaw⟩
  · rintro ⟨hval, hflow⟩
    exact ⟨fun x hx => (hr.visited (hstart hval) hnext hflow hx).2, (hcalls hval).mpr hflow⟩

def quiet : Wakes := { counter := 0, mutex := 0 }

def semAt (counter : UInt64) : Sem := { locked := false, counter, max := 2 }

theorem accounts_waited :
    Accounts 2 [(semAt 1, .post quiet), (semAt 2, .wait quiet)] (semAt 2) :=
  (accounts_iff (.next (.next (.start (M := sequential 2 2) rfl) rfl) rfl)).mpr
    ⟨by decide, by simp [Overflows, semAt]⟩

theorem not_accounts_full :
    (sequential 2 2).Run [(semAt 2, .post quiet)] (semAt 2) ∧
      ¬Accounts 2 [(semAt 2, .post quiet)] (semAt 2) := by
  refine ⟨.next (.start rfl) rfl, fun h => ?_⟩
  obtain ⟨s', ret, hcall, -, -, hfull⟩ := h.calls _ (List.mem_cons_self ..)
  obtain ⟨-, rfl⟩ := Prod.mk.inj (Option.some.inj hcall)
  exact (hfull rfl).1 rfl

end Laws

section Alone

universe u

variable {Thread : Type u} [DecidableEq Thread] {val max : UInt64} {s : State Thread}

structure Quiet (s : State Thread) : Prop where
  locked : s.mutex.locked = 0
  mutexWaiters : s.mutex.waiters = []
  waiters : s.waiters = []
  pc : ∀ u, s.pc u = .idle
  mutexPC : ∀ u, s.mutex.pc u = .idle

def Op.call (wakes : Wakes) : Op → Call
  | .wait => .wait wakes
  | .post => .post wakes

def inside (counter max : UInt64) (t : Thread) : Op → List (Label Thread)
  | .wait => [.fetchSub t]
  | .post => if counter = max then [] else [.fetchAdd t, .futexWake t none]

def alone (counter max : UInt64) (t : Thread) (op : Op) : List (Label Thread) :=
  [.call t op, .mutex (.lock t), .mutex (.lockCas t), .load t] ++ inside counter max t op ++
    [.mutex (.unlockCas t), .mutex (.futexWake t none), .unlocked t]

def holding (s : State Thread) (t : Thread) (p : PC) : State Thread :=
  { s with mutex := ⟨1, [], Function.update s.mutex.pc t .critical⟩, pc := Function.update s.pc t p }

theorem exec_lock (h : Quiet s) (t : Thread) (op : Op) :
    (machine Thread val max).exec s [.call t op, .mutex (.lock t), .mutex (.lockCas t)] =
      some (holding s t (.locking op)) := by
  simp [Machine.exec, machine, step, State.admits, Fmutex.step, Fmutex.lockCas, compareExchange,
    State.setPC, Fmutex.State.setPC, PC.locks, holding, h.locked, h.mutexWaiters, h.pc, h.mutexPC]

theorem exec_unlock (h : Quiet s) (t : Thread) {done : After} (hdone : done ≠ .sleep) :
    ∃ granted, (machine Thread val max).exec (holding s t (.unlocking done))
      [.mutex (.unlockCas t), .mutex (.futexWake t none), .unlocked t] =
        some { s with granted } := by
  obtain ⟨⟨locked, mutexWaiters, mutexPC⟩, counter, waiters, pc, increments, decrements, granted⟩ :=
    s
  obtain ⟨rfl, rfl, rfl, hpc, hmutexPC⟩ := h
  obtain rfl : pc = fun _ => .idle := funext hpc
  obtain rfl : mutexPC = fun _ => .idle := funext hmutexPC
  cases done with
  | sleep => exact absurd rfl hdone
  | wait =>
    refine ⟨granted + 1, ?_⟩
    simp [Machine.exec, machine, step, State.admits, Fmutex.step, Fmutex.unlockCas, compareExchange,
      Fmutex.futexWake, unlocked, State.setPC, Fmutex.State.setPC, PC.unlocks, holding]
  | post =>
    refine ⟨granted, ?_⟩
    simp [Machine.exec, machine, step, State.admits, Fmutex.step, Fmutex.unlockCas, compareExchange,
      Fmutex.futexWake, unlocked, State.setPC, Fmutex.State.setPC, PC.unlocks, holding]

theorem exec_inside (h : Quiet s) (t : Thread) (op : Op) (wakes : Wakes)
    (hallowed : Allowed ⟨false, s.counter, max⟩ (op.call wakes)) :
    ∃ s' done, (machine Thread val max).exec (holding s t (.locking op))
        (.load t :: inside s.counter max t op) = some (holding s' t (.unlocking done)) ∧
      done ≠ .sleep ∧ Quiet s' ∧
      s'.counter = after ⟨false, s.counter, max⟩ (op.call wakes) := by
  cases op with
  | wait =>
    have hpos : 0 < s.counter := hallowed
    refine ⟨{ s with counter := s.counter - 1, decrements := s.decrements + 1 }, .wait, ?_, by simp,
      ⟨h.locked, h.mutexWaiters, h.waiters, h.pc, h.mutexPC⟩, rfl⟩
    simp [Machine.exec, machine, step, inside, load, fetchSub, State.setPC, holding, hpos]
  | post =>
    by_cases hfull : s.counter = max
    · refine ⟨s, .post, ?_, by simp, h, by simp [after, Op.call, hfull]⟩
      simp [Machine.exec, machine, step, inside, load, State.setPC, holding, hfull]
    · refine ⟨{ s with counter := s.counter + 1, increments := s.increments + 1 }, .post, ?_,
        by simp, ⟨h.locked, h.mutexWaiters, h.waiters, h.pc, h.mutexPC⟩,
        by simp [after, Op.call, hfull]⟩
      simp [Machine.exec, machine, step, inside, load, fetchAdd, futexWake, State.setPC, holding,
        hfull, h.waiters]

/-- The calls are the runs of a thread that is alone. -/
theorem call_alone (h : Quiet s) (t : Thread) (op : Op) (wakes : Wakes)
    (hallowed : Allowed ⟨false, s.counter, max⟩ (op.call wakes)) :
    ∃ s', (machine Thread val max).exec s (alone s.counter max t op) = some s' ∧ Quiet s' ∧
      ∃ ret, call ⟨false, s.counter, max⟩ (op.call wakes) = some (⟨false, s'.counter, max⟩, ret) := by
  obtain ⟨s', done, hinside, hdone, hquiet, hcounter⟩ := exec_inside h t op wakes hallowed
  obtain ⟨granted, hunlock⟩ := exec_unlock hquiet t hdone
  obtain ⟨ret, hcall, -⟩ := call_returns rfl hallowed
  refine ⟨{ s' with granted }, ?_, ⟨hquiet.locked, hquiet.mutexWaiters, hquiet.waiters, hquiet.pc,
    hquiet.mutexPC⟩, ret, by rw [hcall, ← hcounter]⟩
  have hlock : (machine Thread val max).exec s _ = _ := exec_lock h t op
  have hrun := Machine.exec_append hlock (Machine.exec_append hinside hunlock)
  exact hrun

theorem call_alone_post : ∃ s' ret,
    (machine Nat 1 2).exec (start 1) (alone 1 2 0 .post) = some s' ∧
      call (semAt 1) (.post quiet) = some (semAt s'.counter, ret) := by
  have hquiet : Quiet (start 1 : State Nat) := ⟨rfl, rfl, rfl, fun _ => rfl, fun _ => rfl⟩
  have halone : ∃ s', (machine Nat 1 2).exec (start 1) (alone 1 2 0 .post) = some s' ∧ Quiet s' ∧
      ∃ ret, call (semAt 1) (.post quiet) = some (semAt s'.counter, ret) :=
    call_alone hquiet 0 .post quiet trivial
  obtain ⟨s', hexec, -, ret, hcall⟩ := halone
  exact ⟨s', ret, hexec, hcall⟩

end Alone

end Dert.Fsemaphore
