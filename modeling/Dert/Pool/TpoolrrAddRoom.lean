import Dert.Library.Scan
import Dert.Pool.TpoolrrStates

namespace Dert.Tpoolrr

open Library

variable {threadsTotal jobsPerThread : Nat}

section Definitions

def mains : Trace threadsTotal jobsPerThread → Nat
  | [] => 0
  | (_, .main) :: tr => mains tr + 1
  | _ :: tr => mains tr

def Main.rest : Main threadsTotal → Nat
  | .jobsAddScan _ i => threadsTotal + 5 - i
  | .jobsAddEnqueue _ _ => 4
  | .jobsAddLock _ _ => 3
  | .jobsAddSignal _ _ => 2
  | .jobsAddUnlock _ _ => 1
  | _ => 0

def Thread.Locks (holds : Prop) (t : Thread jobsPerThread) : Prop :=
  match t.conditionMutex with
  | none => True
  | some .worker => t.pc.inside = true
  | some .main => holds

def State.Locks (s : State threadsTotal jobsPerThread) : Prop :=
  ∀ k, (s.threads k).Locks (s.main.holds = some k)

def Flows (s : State threadsTotal jobsPerThread) (added : Option (Fin threadsTotal))
    (job : TpoolrrJob) (tr : Trace threadsTotal jobsPerThread)
    (s' : State threadsTotal jobsPerThread) : Prop :=
  ∀ k, (s.threads k).submissionQueue.list ++ (if added = some k then [job] else []) =
    history (dequeues k) tr ++ (s'.threads k).submissionQueue.list

variable [NeZero threadsTotal]

def seen (s : State threadsTotal jobsPerThread) :
    Label threadsTotal → List (Fin threadsTotal × Bool)
  | .main =>
    match s.main with
    | .jobsAddScan _ i =>
      if i ≤ threadsTotal then
        [(s.index i, (s.threads (s.index i)).submissionQueue.length = jobsPerThread)]
      else []
    | _ => []
  | _ => []

def probes : Trace threadsTotal jobsPerThread → List (Fin threadsTotal × Bool)
  | [] => []
  | (s, l) :: tr => probes tr ++ seen s l

def fullFrom (start n : Nat) : List (Fin threadsTotal × Bool) :=
  (List.range n).map fun i => (Fin.ofNat threadsTotal (start + i), true)

def FirstRoom (s : State threadsTotal jobsPerThread) (tr : Trace threadsTotal jobsPerThread)
    (index : Fin threadsTotal) : Prop :=
  ∃ n ≤ threadsTotal, index = Fin.ofNat threadsTotal (s.rrIndex + n) ∧
    probes tr = fullFrom s.rrIndex n ++ [(index, false)]

def Untouched (s : State threadsTotal jobsPerThread) (job : TpoolrrJob)
    (tr : Trace threadsTotal jobsPerThread) (s' : State threadsTotal jobsPerThread) : Prop :=
  Flows s none job tr s' ∧ s'.rrIndex = s.rrIndex ∧
    ∀ p ∈ tr, p.2 = .main → ∃ main, step p.1 .main = some { p.1 with main }

def Put (s : State threadsTotal jobsPerThread) (job : TpoolrrJob) (index : Fin threadsTotal)
    (tr : Trace threadsTotal jobsPerThread) (s' : State threadsTotal jobsPerThread) : Prop :=
  FirstRoom s tr index ∧ Flows s index job tr s'

def AddLaw (s : State threadsTotal jobsPerThread) (job : TpoolrrJob)
    (tr : Trace threadsTotal jobsPerThread) (s' : State threadsTotal jobsPerThread) : Prop :=
  match s'.main with
  | .jobsAddScan job' i => job' = job ∧ i ≤ threadsTotal + 1 ∧ probes tr = fullFrom s.rrIndex i ∧
      Untouched s job tr s'
  | .jobsAddEnqueue job' index => job' = job ∧ FirstRoom s tr index ∧ Untouched s job tr s' ∧
      (s'.threads index).submissionQueue.length < jobsPerThread
  | .jobsAddLock job' index => job' = job ∧ Put s job index tr s' ∧ s'.rrIndex = s.rrIndex
  | .jobsAddSignal job' index => job' = job ∧ Put s job index tr s' ∧ s'.rrIndex = s.rrIndex
  | .jobsAddUnlock job' index => job' = job ∧ Put s job index tr s' ∧ s'.rrIndex = s.rrIndex
  | .returned .ok => ∃ index, Put s job index tr s' ∧ s'.rrIndex = s.rrIndex + 1
  | .returned .EBUSY => (∀ k, (k, true) ∈ probes tr) ∧
      probes tr = fullFrom s.rrIndex (threadsTotal + 1) ∧ Untouched s job tr s'
  | _ => False

def Ends (s : State threadsTotal jobsPerThread) : Prop :=
  ∃ ls t res, (∀ l ∈ ls, made l = []) ∧
    (machine threadsTotal jobsPerThread).exec s ls = some t ∧ t.main = .returned res

end Definitions

variable {s s' x : State threadsTotal jobsPerThread} {l : Label threadsTotal} {job : TpoolrrJob}
  {index : Fin threadsTotal} {tr tr' : Trace threadsTotal jobsPerThread}

section Keeps

theorem Flows.step {added : Option (Fin threadsTotal)} (h : Flows s added job tr x)
    (hqueue : ∀ k, (x.threads k).submissionQueue.list =
      dequeues k x l ++ (s'.threads k).submissionQueue.list) :
    Flows s added job ((x, l) :: tr) s' := by
  intro k
  rw [h k, hqueue k, history, List.append_assoc]

theorem Flows.put (h : Flows s none job tr x) {queue : Fifo TpoolrrJob jobsPerThread}
    (hqueue : queue.list = (x.threads index).submissionQueue.list ++ [job]) :
    Flows s index job ((x, .main) :: tr)
      (x.set index { x.threads index with submissionQueue := queue }) := by
  intro k
  have hflow := h k
  have hnone : dequeues k x .main = [] := rfl
  rw [history, hnone, List.append_nil]
  by_cases hk : k = index
  · subst hk
    rw [set_threads_self, hqueue, ← List.append_assoc, ← hflow]
    simp
  · rw [set_threads_of_ne hk, ← hflow]
    simp [Ne.symm hk]

variable [NeZero threadsTotal]

theorem AddLaw.keep (h : AddLaw s job tr x) (hmain : s'.main = x.main)
    (hrr : s'.rrIndex = x.rrIndex) (hprobes : probes tr' = probes tr)
    (hflows : ∀ added, Flows s added job tr x → Flows s added job tr' s')
    (huntouched : Untouched s job tr x → Untouched s job tr' s')
    (hroom : ∀ k, (s'.threads k).submissionQueue.length ≤ (x.threads k).submissionQueue.length) :
    AddLaw s job tr' s' := by
  have hfirst (index : Fin threadsTotal) (hf : FirstRoom s tr index) : FirstRoom s tr' index := by
    rwa [FirstRoom, hprobes]
  have hput (index : Fin threadsTotal) (hp : Put s job index tr x) : Put s job index tr' s' :=
    ⟨hfirst index hp.1, hflows _ hp.2⟩
  rw [AddLaw] at h ⊢
  rw [hmain, hrr]
  generalize x.main = main at h ⊢
  cases main with
  | jobsAddScan job' i =>
    obtain ⟨hjob, hi, hseen, hkept⟩ := h
    exact ⟨hjob, hi, hprobes.trans hseen, huntouched hkept⟩
  | jobsAddEnqueue job' index =>
    obtain ⟨hjob, hf, hkept, hlt⟩ := h
    exact ⟨hjob, hfirst index hf, huntouched hkept, (hroom index).trans_lt hlt⟩
  | jobsAddLock job' index => exact ⟨h.1, hput index h.2.1, h.2.2⟩
  | jobsAddSignal job' index => exact ⟨h.1, hput index h.2.1, h.2.2⟩
  | jobsAddUnlock job' index => exact ⟨h.1, hput index h.2.1, h.2.2⟩
  | returned res =>
    cases res with
    | ok =>
      obtain ⟨index, hp, hkept⟩ := h
      exact ⟨index, hput index hp, hkept⟩
    | EBUSY =>
      obtain ⟨hall, hseen, hkept⟩ := h
      exact ⟨hprobes ▸ hall, hprobes.trans hseen, huntouched hkept⟩
    | _ => exact h
  | _ => exact h

theorem AddLaw.others (h : AddLaw s job tr x) (hs : step x l = some s') (hl : made l = [])
    (hmain : l ≠ .main) : AddLaw s job ((x, l) :: tr) s' := by
  have hqueue := step_queue hs fun hl => absurd hl hmain
  have hsame : s'.main = x.main ∧ s'.rrIndex = x.rrIndex ∧ seen x l = [] := by
    cases step_cases hs with
    | call => cases hl
    | main => exact absurd rfl hmain
    | _ => exact ⟨rfl, rfl, rfl⟩
  obtain ⟨hm, hrr, hseen⟩ := hsame
  refine h.keep hm hrr (by rw [probes, hseen, List.append_nil]) (fun _ hf => hf.step hqueue) ?_ ?_
  · rintro ⟨hflow, hkept, hidle⟩
    refine ⟨hflow.step hqueue, hrr.trans hkept, List.forall_mem_cons.mpr ⟨?_, hidle⟩⟩
    exact fun hl => absurd hl hmain
  · intro k
    have hlen := congrArg List.length (hqueue k)
    rw [List.length_append] at hlen
    exact Nat.le_of_add_left_le hlen.ge

end Keeps

section Moves

variable [NeZero threadsTotal] {main : Main threadsTotal}

theorem Untouched.move (h : Untouched s job tr x) (hs : step x .main = some { x with main }) :
    Untouched s job ((x, .main) :: tr) { x with main } := by
  obtain ⟨hflow, hrr, hidle⟩ := h
  exact ⟨hflow.step fun _ => rfl, hrr, List.forall_mem_cons.mpr ⟨fun _ => ⟨main, hs⟩, hidle⟩⟩

theorem fullFrom_succ (start n : Nat) : (fullFrom start (n + 1) : List (Fin threadsTotal × Bool)) =
    fullFrom start n ++ [(Fin.ofNat threadsTotal (start + n), true)] := by
  rw [fullFrom, List.range_succ, List.map_append]
  rfl

theorem mem_fullFrom (start : Nat) (k : Fin threadsTotal) :
    (k, true) ∈ fullFrom start (threadsTotal + 1) := by
  obtain ⟨i, hi, rfl⟩ := exists_turn start k
  exact List.mem_map.mpr ⟨i, List.mem_range.mpr (Nat.lt_succ_of_lt hi), rfl⟩

theorem probes_scan (tr : Trace threadsTotal jobsPerThread) {i : Nat}
    (hmain : x.main = .jobsAddScan job i) (hi : i ≤ threadsTotal)
    (hrr : x.rrIndex = s.rrIndex) (hword : s.rrIndex + threadsTotal < sizeMax) :
    x.index i = Fin.ofNat threadsTotal (s.rrIndex + i) ∧ probes ((x, .main) :: tr) = probes tr ++
      [(Fin.ofNat threadsTotal (s.rrIndex + i),
        decide ((x.threads (x.index i)).submissionQueue.length = jobsPerThread))] := by
  have hindex : x.index i = Fin.ofNat threadsTotal (s.rrIndex + i) := by
    rw [State.index, hrr, sizeT_of_lt (by omega), Nat.add_comm]
  refine ⟨hindex, ?_⟩
  simp only [probes, seen, hmain, if_pos hi, hindex]

theorem AddLaw.moves (h : AddLaw s job tr x) (hword : s.rrIndex + threadsTotal < sizeMax - 1)
    (hs : step x .main = some s') : AddLaw s job ((x, .main) :: tr) s' := by
  have hunseen (hscan : ∀ job i, x.main ≠ .jobsAddScan job i) :
      probes ((x, .main) :: tr) = probes tr := by
    rw [probes, seen]
    split
    next hmain => exact absurd hmain (hscan _ _)
    next => exact List.append_nil _
  have hput (index : Fin threadsTotal) (hscan : ∀ job i, x.main ≠ .jobsAddScan job i)
      (henqueue : ∀ job index, x.main ≠ .jobsAddEnqueue job index) (hp : Put s job index tr x) :
      Put s job index ((x, .main) :: tr) s' := by
    refine ⟨?_, hp.2.step (step_queue hs fun _ => henqueue)⟩
    rw [FirstRoom, hunseen hscan]
    exact hp.1
  cases controls hs with
  | scanFull job' i hmain hi hfull =>
    rw [AddLaw, hmain] at h
    obtain ⟨rfl, -, hseen, hkept⟩ := h
    obtain ⟨-, hprobes⟩ := probes_scan tr hmain hi hkept.2.1 (by omega)
    refine ⟨rfl, Nat.succ_le_succ hi, ?_, hkept.move hs⟩
    rw [hprobes, hseen, fullFrom_succ, decide_eq_true hfull]
  | scanRoom job' i hmain hi hroom =>
    rw [AddLaw, hmain] at h
    obtain ⟨rfl, -, hseen, hkept⟩ := h
    obtain ⟨hindex, hprobes⟩ := probes_scan tr hmain hi hkept.2.1 (by omega)
    refine ⟨rfl, ⟨i, hi, hindex, ?_⟩, hkept.move hs,
      Nat.lt_of_le_of_ne (x.threads (x.index i)).submissionQueue.bounded hroom⟩
    rw [hprobes, hseen, hindex, ← hindex, decide_eq_false hroom]
  | scanEnd job' i hmain hi =>
    rw [AddLaw, hmain] at h
    obtain ⟨rfl, hle, hseen, hkept⟩ := h
    obtain rfl : i = threadsTotal + 1 := by omega
    have hprobes : probes ((x, .main) :: tr) = probes tr := by
      simp [probes, seen, hmain]
    refine ⟨fun k => ?_, hprobes.trans hseen, hkept.move hs⟩
    rw [hprobes, hseen]
    exact mem_fullFrom s.rrIndex k
  | enqueueFull job' index hmain hfull =>
    rw [AddLaw, hmain] at h
    exact absurd hfull h.2.2.2.ne
  | enqueued job' index queue hmain hqueue =>
    rw [AddLaw, hmain] at h
    obtain ⟨rfl, hfirst, hkept, -⟩ := h
    refine ⟨rfl, ⟨?_, hkept.1.put hqueue⟩, hkept.2.1⟩
    rwa [FirstRoom, hunseen (by simp [hmain])]
  | addLocked job' index hmain =>
    rw [AddLaw, hmain] at h
    exact ⟨h.1, hput index (by simp [hmain]) (by simp [hmain]) h.2.1, h.2.2⟩
  | addSignalled job' index hmain =>
    rw [AddLaw, hmain] at h
    exact ⟨h.1, hput index (by simp [hmain]) (by simp [hmain]) h.2.1, h.2.2⟩
  | added job' index hmain =>
    rw [AddLaw, hmain] at h
    obtain ⟨rfl, hp, hkept⟩ := h
    refine ⟨index, hput index (by simp [hmain]) (by simp [hmain]) hp, ?_⟩
    change sizeT (x.rrIndex + 1) = s.rrIndex + 1
    rw [hkept, sizeT_of_lt (by omega)]
  | _ => simp_all [AddLaw]

theorem AddLaw.step (h : AddLaw s job tr x) (hword : s.rrIndex + threadsTotal < sizeMax - 1)
    (hs : step x l = some s') (hl : made l = []) : AddLaw s job ((x, l) :: tr) s' := by
  by_cases hmain : l = .main
  · subst hmain
    exact h.moves hword hs
  · exact h.others hs hl hmain

theorem addLaw_start (hmain : s.main = .jobsAddScan job 0) : AddLaw s job [] s := by
  rw [AddLaw, hmain]
  refine ⟨rfl, Nat.zero_le _, rfl, fun k => ?_, rfl, by simp⟩
  simp [history]

theorem addLaw_run (hmain : s.main = .jobsAddScan job 0)
    (hword : s.rrIndex + threadsTotal < sizeMax - 1)
    (hr : ((machine threadsTotal jobsPerThread).after s).Run tr s') (hcalls : calls tr = []) :
    AddLaw s job tr s' := by
  induction hr with
  | start hi =>
    cases hi
    exact addLaw_start hmain
  | next _ hs ih =>
    obtain ⟨hl, hcalls⟩ := List.append_eq_nil_iff.mp hcalls
    exact (ih hcalls).step hword hs hl

end Moves

section Locks

variable {t t' : Thread jobsPerThread} {holds holds' : Prop} {i : Nat}

theorem Thread.Locks.mono (h : t.Locks holds) (hh : holds → holds') : t.Locks holds' := by
  rw [Thread.Locks] at h ⊢
  split
  next => trivial
  next hm => rwa [hm] at h
  next hm =>
    rw [hm] at h
    exact hh h

theorem Works.locks (hw : Works i t t') (h : t.Locks holds) : t'.Locks holds := by
  rw [Thread.Locks] at h
  cases hm : t.conditionMutex with
  | none => cases hw <;> simp_all [Thread.Locks, Pc.inside]
  | some owner => cases owner <;> cases hw <;> simp_all [Thread.Locks, Pc.inside]

theorem Thread.Locks.goOn (h : t.Locks holds) (job : TpoolrrJob) {pc : Pc}
    (hpc : pc.inside = t.pc.inside) : Thread.Locks holds { t with job, pc } := by
  rw [Thread.Locks] at h ⊢
  simpa only [hpc] using h

theorem Thread.Locks.signal (h : t.Locks holds) : t.signal.Locks holds := by
  rw [Thread.signal]
  split
  next hpc => exact h.goOn t.job (by rw [hpc]; rfl)
  next => exact h

theorem State.Locks.set (h : s.Locks) {main : Main threadsTotal}
    (ht : t.Locks (main.holds = some index))
    (hmain : ∀ k, k ≠ index → s.main.holds = some k → main.holds = some k) :
    State.Locks { s.set index t with main } :=
  set_forall (P := fun k t => t.Locks (main.holds = some k)) ht
    fun k hk => (h k).mono (hmain k hk)

theorem State.Locks.move (h : s.Locks) {main : Main threadsTotal} (hmain : s.main.holds = none) :
    State.Locks { s with main } :=
  fun k => (h k).mono fun hk => nomatch hmain.symm.trans hk

variable [NeZero threadsTotal]

theorem Controls.locks (hc : Controls s s') (h : s.Locks) : s'.Locks := by
  cases hc with
  | enqueued job index queue hmain =>
    exact h.set ((h index).mono (by simp [hmain])) (by simp [hmain])
  | addLocked job index hmain => exact h.set rfl (by simp [hmain])
  | addSignalled job index hmain =>
    exact h.set ((h index).signal.mono (by simp [hmain])) (by simp [hmain])
  | added job index hmain =>
    exact h.set trivial fun k hk hh => absurd (by simpa [hmain, eq_comm] using hh) hk
  | popped i job queue hmain =>
    exact h.set ((h (s.index i)).mono (by simp [hmain])) (by simp [hmain])
  | setLocked state i hmain => exact h.set rfl (by simp [hmain])
  | setSignalled state i hmain =>
    exact h.set ((h i).signal.mono (by simp [hmain])) (by simp [hmain])
  | setUnlocked state i hmain =>
    exact h.set trivial fun k hk hh => absurd (by simpa [hmain, eq_comm] using hh) hk
  | endLocked state i hmain => exact h.set rfl (by simp [hmain])
  | needed state i hmain =>
    exact h.set trivial fun k hk hh => absurd (by simpa [hmain, eq_comm] using hh) hk
  | unneeded state i hmain =>
    exact h.set trivial fun k hk hh => absurd (by simpa [hmain, eq_comm] using hh) hk
  | endSignalled state i hmain =>
    exact h.set ((h i).signal.mono (by simp [hmain])) (by simp [hmain])
  | scanFull job i hmain => exact h.move (by rw [hmain]; rfl)
  | scanRoom job i hmain => exact h.move (by rw [hmain]; rfl)
  | scanEnd job i hmain => exact h.move (by rw [hmain]; rfl)
  | enqueueFull job i hmain => exact h.move (by rw [hmain]; rfl)
  | popNone i hmain => exact h.move (by rw [hmain]; rfl)
  | popEnd i hmain => exact h.move (by rw [hmain]; rfl)
  | setEnd state i hmain => exact h.move (by rw [hmain]; rfl)
  | endEnd state i hmain => exact h.move (by rw [hmain]; rfl)
  | endJoined state i hmain => exact h.move (by rw [hmain]; rfl)

theorem State.Locks.step (h : s.Locks) (hs : Step s l s') : s'.Locks := by
  cases hs with
  | work index now t hw => exact h.set (hw.locks (h index)) fun _ _ hk => hk
  | finish index ret hpc => exact h.set ((h index).goOn _ (by rw [hpc]; rfl)) fun _ _ hk => hk
  | spurious index hpc => exact h.set ((h index).goOn _ (by rw [hpc]; rfl)) fun _ _ hk => hk
  | call call res hmain => exact h.move (by rw [hmain]; rfl)
  | main _ hc => exact hc.locks h

theorem locks_run (hr : (machine threadsTotal jobsPerThread).Run tr s) : s.Locks := by
  refine hr.always ?_ fun s l s' h hs => h.step (step_cases hs)
  rintro s ⟨-, garbage, rfl⟩ k
  trivial

end Locks

section Ends

variable [NeZero threadsTotal] {t : Thread jobsPerThread} {now : UInt64} {i : Nat}

theorem Ends.before (h : Ends s') (hl : made l = []) (hs : step s l = some s') : Ends s := by
  obtain ⟨ls, t, res, hls, hexec, ht⟩ := h
  exact ⟨l :: ls, t, res, List.forall_mem_cons.mpr ⟨hl, hls⟩, Machine.exec_cons hs hexec, ht⟩

theorem ends_returned {res : Ret} (hmain : s.main = .returned res) : Ends s :=
  ⟨[], s, res, by simp, rfl, hmain⟩

theorem ends_unlock (hmain : s.main = .jobsAddUnlock job index) : Ends s := by
  have hs : ∃ next, step s .main = some next ∧ next.main = .returned .ok := by
    simp [step, mainStep, hmain]
  obtain ⟨next, hs, hnext⟩ := hs
  exact (ends_returned hnext).before (l := .main) rfl hs

theorem ends_signal (hmain : s.main = .jobsAddSignal job index) : Ends s := by
  have hs : ∃ next, step s .main = some next ∧ next.main = .jobsAddUnlock job index := by
    simp [step, mainStep, hmain]
  obtain ⟨next, hs, hnext⟩ := hs
  exact (ends_unlock hnext).before (l := .main) rfl hs

theorem ends_free (hmain : s.main = .jobsAddLock job index)
    (hfree : (s.threads index).conditionMutex = none) : Ends s := by
  have hs : ∃ next, step s .main = some next ∧ next.main = .jobsAddSignal job index := by
    simp [step, mainStep, hmain, Thread.lock, hfree]
  obtain ⟨next, hs, hnext⟩ := hs
  exact (ends_signal hnext).before (l := .main) rfl hs

theorem ends_inside (hmain : s.main = .jobsAddLock job index)
    (hpc : (s.threads index).pc = .condWait ∨ (s.threads index).pc = .unlockAwake ∨
      (s.threads index).pc = .unlockLeave ∨ (s.threads index).pc = .unlock) : Ends s := by
  have hs : ∃ t, tpoolrrWorker index 0 (s.threads index) = some t ∧ t.conditionMutex = none := by
    rcases hpc with hpc | hpc | hpc | hpc <;> simp [tpoolrrWorker, hpc, Thread.unlock]
  obtain ⟨t, hs, ht⟩ := hs
  have hfree : Ends (s.set index t) := ends_free hmain (by rwa [set_threads_self])
  refine hfree.before (l := .work index 0) rfl ?_
  exact Option.map_eq_some_iff.mpr ⟨t, hs, rfl⟩

theorem evaluate_pc (t : Thread jobsPerThread) : (evaluate t).pc = .condWait ∨
    (evaluate t).pc = .unlockAwake ∨ (evaluate t).pc = .unlockLeave ∨
    (evaluate t).pc = .unlock := by
  rw [evaluate]
  split
  next => split_ifs <;> simp
  next => simp
  next => split_ifs <;> simp
  next => simp
  next => simp

theorem ends_lock (hlocks : s.Locks) (hmain : s.main = .jobsAddLock job index) : Ends s := by
  have hlock := hlocks index
  rw [Thread.Locks, hmain] at hlock
  cases hm : (s.threads index).conditionMutex with
  | none => exact ends_free hmain hm
  | some owner =>
    cases owner with
    | main => simp [hm] at hlock
    | worker =>
      rw [hm] at hlock
      cases hpc : (s.threads index).pc with
      | evaluate =>
        have hinside : Ends (s.set index (evaluate (s.threads index))) :=
          ends_inside hmain (by rw [set_threads_self]; exact evaluate_pc _)
        refine hinside.before (l := .work index 0) rfl ?_
        simp [step, tpoolrrWorker, hpc]
      | condWait => exact ends_inside hmain (by simp [hpc])
      | unlockAwake => exact ends_inside hmain (by simp [hpc])
      | unlockLeave => exact ends_inside hmain (by simp [hpc])
      | unlock => exact ends_inside hmain (by simp [hpc])
      | _ => simp [hpc, Pc.inside] at hlock

theorem ends_enqueue (hlocks : s.Locks) (hmain : s.main = .jobsAddEnqueue job index) : Ends s := by
  have hs : ∃ next, step s .main = some next ∧
      (next.main = .returned .EXFULL ∨ next.main = .jobsAddLock job index) := by
    simp only [step, mainStep, hmain]
    split <;> simp
  obtain ⟨next, hs, hnext | hnext⟩ := hs
  · exact (ends_returned hnext).before (l := .main) rfl hs
  · exact (ends_lock (hlocks.step (step_cases hs)) hnext).before (l := .main) rfl hs

theorem ends_scan (hlocks : s.Locks) (hmain : s.main = .jobsAddScan job i) : Ends s := by
  have hs : step s .main = some (_tpoolrrJobsAdd s job i) := by rw [step, mainStep, hmain]
  induction hleft : threadsTotal + 1 - i generalizing s i with
  | zero =>
    have hend : ¬ i ≤ threadsTotal := by omega
    rw [_tpoolrrJobsAdd, if_neg hend] at hs
    exact (ends_returned rfl).before (l := .main) rfl hs
  | succ left ih =>
    have hnext := hlocks.step (step_cases hs)
    refine Ends.before (l := .main) ?_ rfl hs
    have hi : i ≤ threadsTotal := by omega
    rw [_tpoolrrJobsAdd, if_pos hi] at hnext ⊢
    by_cases hfull : (s.threads (s.index i)).submissionQueue.length = jobsPerThread
    · simp only [hfull, if_true] at hnext ⊢
      exact ih hnext rfl rfl (by omega)
    · simp only [hfull, if_false] at hnext ⊢
      exact ends_enqueue hnext rfl

theorem addLaw_ends (h : AddLaw s job tr x) (hlocks : x.Locks) : Ends x := by
  rw [AddLaw] at h
  cases hmain : x.main with
  | jobsAddScan => exact ends_scan hlocks hmain
  | jobsAddEnqueue => exact ends_enqueue hlocks hmain
  | jobsAddLock => exact ends_lock hlocks hmain
  | jobsAddSignal => exact ends_signal hmain
  | jobsAddUnlock => exact ends_unlock hmain
  | returned => exact ends_returned hmain
  | _ => simp [hmain] at h

theorem addLaw_rest (h : AddLaw s job tr x) (hs : step x .main = some s') :
    s'.main.rest < x.main.rest := by
  cases controls hs with
  | scanEnd job' i hmain hi =>
    rw [AddLaw, hmain] at h
    have hle := h.2.1
    simp only [hmain, Main.rest]
    omega
  | scanFull job' i hmain hi =>
    simp only [hmain, Main.rest]
    omega
  | scanRoom job' i hmain hi =>
    simp only [hmain, Main.rest]
    omega
  | _ => simp_all [AddLaw, Main.rest]

theorem addLaw_mains (h : AddLaw s job tr x) (hs : step x l = some s') (hl : made l = []) :
    mains ((x, l) :: tr) + s'.main.rest ≤ mains tr + x.main.rest := by
  cases step_cases hs with
  | call => cases hl
  | main =>
    have hrest := addLaw_rest h hs
    rw [mains]
    omega
  | _ => exact Nat.le_refl _

theorem mains_run (hmain : s.main = .jobsAddScan job 0)
    (hword : s.rrIndex + threadsTotal < sizeMax - 1)
    (hr : ((machine threadsTotal jobsPerThread).after s).Run tr s') (hcalls : calls tr = []) :
    mains tr + s'.main.rest ≤ threadsTotal + 5 := by
  induction hr with
  | start hi =>
    cases hi
    simp [mains, hmain, Main.rest]
  | next hr hs ih =>
    obtain ⟨hl, hcalls⟩ := List.append_eq_nil_iff.mp hcalls
    exact (addLaw_mains (addLaw_run hmain hword hr hcalls) hs hl).trans (ih hcalls)

/-- From whatever queues an add begins, and whatever the workers do, it is as far as `AddLaw` says:
when it has returned it has put the job on the first queue that was not full, or has found all of
them full.  It returns after few steps of the main thread. -/
theorem jobsAdd_run {s s' : State threadsTotal jobsPerThread} {job : TpoolrrJob}
    {tr : Trace threadsTotal jobsPerThread} (hmain : s.main = .jobsAddScan job 0)
    (hword : s.rrIndex < sizeMax - threadsTotal - 1)
    (hr : ((machine threadsTotal jobsPerThread).after s).Run tr s') (hcalls : calls tr = []) :
    AddLaw s job tr s' ∧ mains tr ≤ threadsTotal + 5 ∧ (s.Locks → Ends s') := by
  have hlaw := addLaw_run hmain (by omega) hr hcalls
  refine ⟨hlaw, Nat.le_of_add_right_le (mains_run hmain (by omega) hr hcalls), fun hlocks => ?_⟩
  have hlocks' : s'.Locks := by
    refine hr.always ?_ fun x l y hx hs => hx.step (step_cases hs)
    rintro x rfl
    exact hlocks
  exact addLaw_ends hlaw hlocks'

def nextJob : TpoolrrJob := ⟨7, 1, 1, 0, 0, 0, 0⟩

def firstFull : State 2 1 :=
  { (start fun _ => zeroJob : State 2 1) with
    threads := fun k =>
      { (start fun _ => zeroJob : State 2 1).threads k with
        submissionQueue := if k.val = 0 then ⟨[zeroJob], by decide⟩ else .empty }
    main := .jobsAddScan nextJob 0 }

theorem jobsAdd_run_firstFull : ∃ (tr : Trace 2 1) (s' : State 2 1),
    ((machine 2 1).after firstFull).Run tr s' ∧ s'.main = .returned .ok ∧
      AddLaw firstFull nextJob tr s' ∧ mains tr ≤ 7 ∧ (firstFull.Locks → Ends s') := by
  obtain ⟨tr, s', hr, hs⟩ := ((machine 2 1).after firstFull).exists_run_of_record firstFull
    [.main, .main, .work 0 0, .main, .main, .main, .main]
    (fun tr s' => calls tr = [] ∧ s'.main = .returned .ok) rfl (by decide)
  simp only [decide_eq_true_eq] at hs
  exact ⟨tr, s', hr, hs.2, jobsAdd_run rfl (by decide) hr hs.1⟩

end Ends

end Dert.Tpoolrr
