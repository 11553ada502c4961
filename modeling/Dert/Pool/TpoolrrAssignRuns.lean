import Dert.Pool.TpoolrrAssignLaws

namespace Dert.Tpoolrr

open Library

variable {threadsTotal jobsPerThread : Nat} [NeZero threadsTotal]
  {call a a' : Assigning threadsTotal jobsPerThread} {l : Assigns threadsTotal} {i n : Nat}

def Reached (call a : Assigning threadsTotal jobsPerThread) : Prop := ∃ tr, call.machine.Run tr a

theorem Reached.next (h : Reached call a) (hs : a.step l = some a') : Reached call a' := by
  obtain ⟨tr, hr⟩ := h
  exact ⟨_, hr.next hs⟩

theorem reached_start (hstart : call.assign = .submissionsEmpty 0 0 0) :
    Reached call { call with assign := .submissionsEmpty 0 0 0 } := by
  rw [← hstart]
  exact ⟨[], .start rfl⟩

section Counts

theorem Reached.summed (h : Reached call { a with assign := .submissionsEmpty i 0 0 }) {j : Nat}
    (hj : j ≤ threadsTotal) :
    Reached call { a with assign := .submissionsEmpty i j (sizeT (a.pool.roomBefore j)) } := by
  induction j with
  | zero =>
    rw [roomBefore_zero]
    exact h
  | succ j ih =>
    have hlt : j < threadsTotal := hj
    refine (ih (Nat.le_of_lt hj)).next (l := .main) ?_
    rw [roomBefore_succ _ hlt]
    simp only [Assigning.step, tpoolrrSubmissionsEmpty, dif_pos hlt, sizeT, Nat.mod_add_mod]
    rfl

theorem Reached.refused (h : Reached call { a with assign := .submissionsEmpty i 0 0 })
    (hfree : sizeT a.pool.free = 0) : Reached call { a with assign := .returned .EBUSY } := by
  refine (h.summed (Nat.le_refl threadsTotal)).next (l := .main) ?_
  rw [State.free] at hfree
  simp [Assigning.step, tpoolrrSubmissionsEmpty, hfree]

theorem Reached.counted (h : Reached call { a with assign := .submissionsEmpty 0 0 0 })
    (hfree : sizeT a.pool.free ≠ 0) (hi : i < threadsTotal) :
    Reached call { a with assign := .submissionsEmpty i 0 0 } := by
  rw [State.free] at hfree
  induction i with
  | zero => exact h
  | succ i ih =>
    refine ((ih (Nat.lt_of_succ_lt hi)).summed (Nat.le_refl threadsTotal)).next (l := .main) ?_
    simp [Assigning.step, tpoolrrSubmissionsEmpty, hfree, hi]

theorem Reached.begun (h : Reached call { a with assign := .submissionsEmpty 0 0 0 })
    (hfree : sizeT a.pool.free ≠ 0) : Reached call (a.add 0) := by
  have hpos : 0 < threadsTotal := Nat.pos_of_neZero threadsTotal
  have hlast : ¬ threadsTotal - 1 + 1 < threadsTotal := by omega
  refine ((h.counted hfree (i := threadsTotal - 1) (by omega)).summed
    (Nat.le_refl threadsTotal)).next (l := .main) ?_
  rw [State.free] at hfree
  simp only [Assigning.step, tpoolrrSubmissionsEmpty, Nat.lt_irrefl, dite_false, hfree, if_false,
    hlast, Assigning.add, hpos, if_true]

theorem Reached.freed (h : Reached call { a with assign := .submissionsEmpty 0 0 0 })
    (hlow : a.pool.free ≤ n) (hhigh : n ≤ threadsTotal * jobsPerThread) :
    ∃ a' : Assigning threadsTotal jobsPerThread,
      Reached call { a' with assign := .submissionsEmpty 0 0 0 } ∧ a'.pool.free = n := by
  obtain ⟨d, hd⟩ := Nat.exists_eq_add_of_le hlow
  clear hlow
  induction d generalizing a with
  | zero => exact ⟨a, h, hd.symm⟩
  | succ d ih =>
    obtain ⟨k, hk⟩ := exists_job (by omega : a.pool.free < threadsTotal * jobsPerThread)
    obtain ⟨⟨job, submissionQueue⟩, hpop⟩ := Option.ne_none_iff_exists'.mp (mt Fifo.pop_eq_none.mp hk)
    have hfree : (a.pool.set k { a.pool.threads k with submissionQueue }).free =
        1 + a.pool.free := by
      have hlen := congrArg List.length (Fifo.pop_eq_some hpop)
      have hbound := (a.pool.threads k).submissionQueue.bounded
      rw [free_eq, free_eq]
      refine tally_give ?_
      simp only [Fifo.room, Fifo.length, List.length_cons] at hlen ⊢
      omega
    have hnext := h.next (l := .remove k) (by
      simp only [Assigning.step, hpop, Option.map_some]
      rfl)
    have hd' : n = (a.pool.set k { a.pool.threads k with submissionQueue }).free + d := by
      rw [hfree]
      omega
    exact ih (a := { a with pool := a.pool.set k { a.pool.threads k with submissionQueue } })
      hnext hd'

end Counts

section Adds

theorem Reached.within (h : Reached call a) (hassign : a.assign = .jobsAdd i)
    (hmain : ∀ res, a.pool.main ≠ .returned res) {next : State threadsTotal jobsPerThread}
    (hnext : mainStep a.pool = some next) : Reached call { a with pool := next } := by
  refine h.next (l := .main) ?_
  rw [Assigning.step, hassign]
  generalize hm : a.pool.main = main at hmain
  cases main with
  | returned res => exact absurd rfl (hmain res)
  | _ => simp only [hnext, Option.map_some]

theorem Reached.scanned (h : Reached call a) (hassign : a.assign = .jobsAdd i) {job : TpoolrrJob}
    (hmain : a.pool.main = .jobsAddScan job n) :
    ∃ a', Reached call a' ∧
      (a'.assign = .aborted ∨ ∃ entry, a'.pool.placed = a.pool.placed ++ [entry]) := by
  have hinside : ∀ res, a.pool.main ≠ .returned res := by simp [hmain]
  induction hd : threadsTotal + 1 - n generalizing a n with
  | zero =>
    have hend : ¬ n ≤ threadsTotal := by omega
    have hbusy : Reached call { a with pool := { a.pool with main := .returned .EBUSY } } :=
      h.within hassign hinside (by simp only [mainStep, hmain, _tpoolrrJobsAdd, if_neg hend])
    refine ⟨{ a with pool := { a.pool with main := .returned .EBUSY }, assign := .aborted },
      hbusy.next (l := .main) ?_, .inl rfl⟩
    simp [Assigning.step, hassign]
  | succ d ih =>
    have hn : n ≤ threadsTotal := by omega
    by_cases hfull : (a.pool.threads (a.pool.index n)).submissionQueue.length = jobsPerThread
    · have hscan : Reached call { a with
          pool := { a.pool with main := .jobsAddScan job (n + 1) } } :=
        h.within hassign hinside
          (by simp only [mainStep, hmain, _tpoolrrJobsAdd, if_pos hn, if_pos hfull])
      obtain ⟨a', ha', hplaced⟩ := ih hscan hassign rfl (by simp) (by omega)
      refine ⟨a', ha', ?_⟩
      simpa [State.placed, hmain, Main.placing] using hplaced
    · have hfound : Reached call { a with
          pool := { a.pool with main := .jobsAddEnqueue job (a.pool.index n) } } :=
        h.within hassign hinside
          (by simp only [mainStep, hmain, _tpoolrrJobsAdd, if_pos hn, if_neg hfull])
      have hlt := Nat.lt_of_le_of_ne (a.pool.threads (a.pool.index n)).submissionQueue.bounded hfull
      obtain ⟨submissionQueue, hpush⟩ : ∃ submissionQueue, (a.pool.threads
          (a.pool.index n)).submissionQueue.push job = some submissionQueue :=
        ⟨_, Fifo.push_of_lt hlt job⟩
      have hpushed : Reached call { a with
          pool := { a.pool.set (a.pool.index n)
            { a.pool.threads (a.pool.index n) with submissionQueue } with
            main := .jobsAddLock job (a.pool.index n) } } :=
        hfound.within hassign (by simp) (by simp only [mainStep, hpush]; rfl)
      refine ⟨_, hpushed, .inr ⟨(a.pool.index n, job), ?_⟩⟩
      simp [State.placed, State.set, hmain, Main.placing]

theorem Reached.added (h : Reached call a) (hassign : a.assign = .jobsAdd i)
    {held : Option (Fin threadsTotal)} (hadded : Added call i held a.pool)
    (hwithin : Within call i held a.pool.main)
    (hroom : a.pool.main.placing = [] →
      (a.pool.threads (call.pool.turn i)).submissionQueue.length ≠ jobsPerThread) :
    ∃ pool, Reached call { a with pool } ∧ Added call (i + 1) none pool ∧
      pool.main = .returned .ok := by
  induction hleft : a.pool.main.left generalizing a held with
  | zero =>
    generalize a.pool.main = main at hleft
    cases main <;> cases hleft
  | succ n ih =>
    obtain ⟨next, hnext, hless, hstage⟩ := hadded.within hwithin hroom
    have hinside : ∀ res, a.pool.main ≠ .returned res := by
      generalize a.pool.main = main at hwithin
      cases hwithin <;> simp
    have hreached := h.within hassign hinside hnext
    rcases hstage with ⟨held', hadded', hwithin', hsame⟩ | hdone
    · have hroom' (hmain : next.main.placing = []) :
          (next.threads (call.pool.turn i)).submissionQueue.length ≠ jobsPerThread := by
        obtain ⟨hmain', hthreads⟩ := hsame hmain
        rw [hthreads]
        exact hroom hmain'
      have hleft' : next.main.left = n := by omega
      exact ih (a := { a with pool := next }) hreached hassign hadded' hwithin' hroom' hleft'
    · exact ⟨next, hreached, hdone⟩

theorem Reached.roomy (h : Reached call a) (hcapacity : 0 < jobsPerThread) (k : Fin threadsTotal) :
    ∃ submissionQueue, Reached call
        { a with pool := a.pool.set k { a.pool.threads k with submissionQueue } } ∧
      submissionQueue.length ≠ jobsPerThread := by
  by_cases hfull : (a.pool.threads k).submissionQueue.length = jobsPerThread
  · have hjob : (a.pool.threads k).submissionQueue.list ≠ [] := by
      rintro hnil
      rw [Fifo.length, hnil, List.length_nil] at hfull
      omega
    obtain ⟨⟨job, submissionQueue⟩, hpop⟩ :=
      Option.ne_none_iff_exists'.mp (mt Fifo.pop_eq_none.mp hjob)
    refine ⟨submissionQueue, h.next (l := .remove k) ?_, ?_⟩
    · simp only [Assigning.step, hpop, Option.map_some]
    · have hlen := congrArg List.length (Fifo.pop_eq_some hpop)
      simp only [Fifo.length, List.length_cons] at hlen hfull ⊢
      omega
  · refine ⟨(a.pool.threads k).submissionQueue, ?_, hfull⟩
    rw [State.set, Function.update_eq_self]
    exact h

theorem Reached.turn (h : Reached call (a.add i)) (hi : i < threadsTotal)
    (hcapacity : 0 < jobsPerThread) (hjob : a.job = call.job) (hadded : Added call i none a.pool) :
    ∃ a' : Assigning threadsTotal jobsPerThread, Reached call (a'.add (i + 1)) ∧
      a'.job = call.job ∧ Added call (i + 1) none a'.pool ∧ a'.pool.main = .returned .ok := by
  rw [Assigning.add, if_pos hi, hjob] at h
  obtain ⟨submissionQueue, hroomy, hlen⟩ := h.roomy hcapacity (call.pool.turn i)
  have hscan : Added call i none { a.pool with main := .jobsAddScan call.job 0 } :=
    ⟨hadded.accepted, hadded.rrIndex, hadded.unlocked⟩
  obtain ⟨pool, hreached, hadded', hmain⟩ := hroomy.added rfl (hscan.set (hscan.unlocked _)) .scan
    (fun _ => by simpa using hlen)
  refine ⟨⟨pool, call.job, .jobsAdd i⟩, hreached.next (l := .main) ?_, rfl, hadded', hmain⟩
  simp only [Assigning.step, hmain, if_true]

theorem Reached.turns (h : Reached call (a.add 0)) (hcapacity : 0 < jobsPerThread)
    (hjob : a.job = call.job) (hadded : Added call 0 none a.pool) :
    ∃ a' : Assigning threadsTotal jobsPerThread, Reached call a' ∧ a'.assign = .returned .ok ∧
      Added call threadsTotal none a'.pool ∧ a'.pool.main = .returned .ok := by
  have hturns : ∀ i < threadsTotal, ∃ a' : Assigning threadsTotal jobsPerThread,
      Reached call (a'.add (i + 1)) ∧ a'.job = call.job ∧ Added call (i + 1) none a'.pool ∧
        a'.pool.main = .returned .ok := by
    intro i hi
    induction i with
    | zero => exact h.turn hi hcapacity hjob hadded
    | succ i ih =>
      obtain ⟨a', ha', hjob', hadded', -⟩ := ih (Nat.lt_of_succ_lt hi)
      exact ha'.turn hi hcapacity hjob' hadded'
  have hpos : 0 < threadsTotal := Nat.pos_of_neZero threadsTotal
  obtain ⟨a', ha', -, hadded', hmain⟩ := hturns (threadsTotal - 1) (by omega)
  rw [Nat.sub_add_cancel hpos] at ha' hadded'
  rw [Assigning.add, if_neg (Nat.lt_irrefl threadsTotal)] at ha'
  exact ⟨_, ha', rfl, hadded', hmain⟩

end Adds

section Law

variable {pool : State threadsTotal jobsPerThread} {uninit : TpoolrrJob}
  {userTag function arg expiration now : UInt64}

theorem turns_iff (hsmall : pool.rrIndex < sizeMax) :
    (∀ i < threadsTotal, ∀ j < threadsTotal, pool.turn i = pool.turn j → i = j) ↔
      pool.rrIndex + threadsTotal ≤ sizeMax ∨ threadsTotal ∣ sizeMax := by
  rw [← wrapped_injective_iff hsmall]
  simp only [State.turn, Fin.ext_iff]
  rfl

omit [NeZero threadsTotal] in
theorem eq_nil_of_putOn {added : List (Fin threadsTotal × TpoolrrJob)}
    (h : ∀ k, putOn k added = []) : added = [] := by
  cases added with
  | nil => rfl
  | cons p added =>
    have hp := h p.1
    rw [← List.singleton_append, putOn_append, putOn_self] at hp
    cases hp

/-- Where some queue is full the call still begins to add, once there is room on another. -/
theorem not_law_of_full (hstart : call.assign = .submissionsEmpty 0 0 0) (hapart : call.Apart)
    (hcapacity : 0 < jobsPerThread) (hfull : ¬ call.pool.Roomy) : ¬ AssignLaw call := by
  intro hlaw
  have hcall := reached_start hstart
  obtain ⟨a, ha, hfree⟩ : ∃ a : Assigning threadsTotal jobsPerThread,
      Reached call { a with assign := .submissionsEmpty 0 0 0 } ∧ sizeT a.pool.free ≠ 0 := by
    by_cases hfree : sizeT call.pool.free = 0
    · obtain ⟨k, hk⟩ := not_forall.mp hfull
      have hlt := free_lt hcapacity (not_not.mp hk)
      obtain ⟨a, ha, hfree'⟩ := hcall.freed (Nat.le_succ _) hlt
      refine ⟨a, ha, ?_⟩
      rw [hfree']
      simp only [sizeT, sizeMax] at hfree ⊢
      omega
    · exact ⟨call, hcall, hfree⟩
  have hpos : 0 < threadsTotal := Nat.pos_of_neZero threadsTotal
  have hadd := ha.begun hfree
  rw [Assigning.add, if_pos hpos] at hadd
  obtain ⟨a', ⟨tr', hr'⟩, haborted | ⟨entry, hplaced⟩⟩ := hadd.scanned rfl rfl
  · exact hlaw.asserted tr' a' hr' haborted
  · obtain ⟨tr, hr⟩ := hadd
    obtain ⟨added, hadded, -⟩ := (keeps_run hapart hr).flow
    obtain ⟨added', hadded', hflow⟩ := (keeps_run hapart hr').flow
    have hnone : added' = [] := by
      refine eq_nil_of_putOn fun k => ?_
      have hqueue := hflow k
      rw [← (hlaw.toNone hfull tr' a' hr').2 k] at hqueue
      exact List.append_right_eq_self.mp hqueue
    rw [hplaced, hadded, hnone] at hadded'
    simp at hadded'

/-- Where the workers can free so many places that the count overflows to zero. -/
theorem not_law_of_overflow (hstart : call.assign = .submissionsEmpty 0 0 0)
    (hroomy : call.pool.Roomy) (hlow : call.pool.free ≤ n)
    (hhigh : n ≤ threadsTotal * jobsPerThread) (hzero : sizeT n = 0) : ¬ AssignLaw call := by
  intro hlaw
  have hcall := reached_start hstart
  obtain ⟨a, ha, hfree⟩ := hcall.freed hlow hhigh
  obtain ⟨tr, hr⟩ := ha.refused (hfree ▸ hzero)
  have hbusy := (hlaw.toEvery hroomy tr _ .EBUSY hr rfl).1
  cases hbusy

/-- Where two adds can begin at one queue, that queue can get both jobs. -/
theorem turns_of_law (hlaw : AssignLaw call) (hstart : call.assign = .submissionsEmpty 0 0 0)
    (hrest : call.pool.Resting) (hroomy : call.pool.Roomy) (hfree : sizeT call.pool.free ≠ 0) :
    ∀ i < threadsTotal, ∀ j < threadsTotal, call.pool.turn i = call.pool.turn j → i = j := by
  have hcall := reached_start hstart
  obtain ⟨res, hmain⟩ := hrest.returned
  have hapart : call.Apart := fun _ _ _ _ => hrest.returned
  obtain ⟨a, ⟨tr, hr⟩, hassign, hadded', hmain'⟩ :=
    (hcall.begun hfree).turns hrest.capacity rfl (added_start hrest)
  have hplaced : a.pool.placed = call.pool.placed ++ call.turns threadsTotal := by
    rw [State.placed, State.placed, hmain, hmain', hadded'.accepted]
    simp [Main.placing]
  have hone : ∀ k, ((List.range threadsTotal).map call.pool.turn).count k = 1 := by
    intro k
    have hflow := (keeps_run hapart hr).flow.queue hplaced k
    rw [← (hlaw.toEvery hroomy tr a .ok hr hassign).2 k, Assigning.turns, putOn_map] at hflow
    have hlen := congrArg List.length (List.append_cancel_left hflow)
    simpa using hlen
  have hnodup : ((List.range threadsTotal).map call.pool.turn).Nodup :=
    List.nodup_iff_count_le_one.mpr fun k => Nat.le_of_eq (hone k)
  intro i hi j hj hij
  exact List.inj_on_of_nodup_map hnodup (List.mem_range.mpr hi) (List.mem_range.mpr hj) hij

theorem refused_run (hstart : call.assign = .submissionsEmpty 0 0 0)
    (hfull : ∀ k, (call.pool.threads k).submissionQueue.length = jobsPerThread)
    {tr : List (Assigning threadsTotal jobsPerThread × Assigns threadsTotal)}
    (hr : call.machine.Run tr a) (hidle : ∀ p ∈ tr, p.2 = .main) :
    a.pool = call.pool ∧
      ((∃ j, a.assign = .submissionsEmpty 0 j 0) ∨ a.assign = .returned .EBUSY) := by
  induction hr with
  | start h =>
    cases h
    exact ⟨rfl, .inl ⟨0, hstart⟩⟩
  | @next tr a l a' hr hs ih =>
    obtain ⟨hmain, hbefore⟩ := List.forall_mem_cons.mp hidle
    obtain rfl : l = .main := hmain
    obtain ⟨hpool, ⟨j, hassign⟩ | hassign⟩ := ih hbefore
    · have hroom (hj : j < threadsTotal) : a.pool.room ⟨j, hj⟩ = 0 := by
        rw [State.room, Fifo.room, hpool, hfull, Nat.sub_self]
      have hstep : a.step .main = some (tpoolrrSubmissionsEmpty a 0 j 0) := by
        rw [Assigning.step, hassign]
      obtain rfl := Option.some.inj (hstep.symm.trans hs)
      rw [tpoolrrSubmissionsEmpty, if_pos rfl]
      split_ifs with hj
      · refine ⟨hpool, .inl ⟨j + 1, ?_⟩⟩
        change Assign.submissionsEmpty 0 (j + 1) (sizeT (0 + a.pool.room ⟨j, hj⟩)) = _
        rw [hroom hj]
        rfl
      · exact ⟨hpool, .inr rfl⟩
    · have hstep : a.step .main = none := by rw [Assigning.step, hassign]
      cases hstep.symm.trans hs

/-- A job is assigned to every thread or to none, whatever the workers remove meanwhile, exactly when
every queue has room (and no counter overflows): the test only asks for room on some queue.  Where
all queues are full and no worker removes a job, the call fails as it should. -/
theorem assignLaw_iff (hrest : pool.Resting) :
    (AssignLaw (tpoolrrJobsAssign pool uninit userTag function arg expiration now) ↔
      (function ≠ 0 ∧ arg ≠ 0) ∧ pool.Roomy ∧
        (pool.rrIndex + threadsTotal ≤ sizeMax ∨ threadsTotal ∣ sizeMax) ∧
        ∀ n, pool.free ≤ n → n ≤ threadsTotal * jobsPerThread → sizeT n ≠ 0) ∧
    (function ≠ 0 → arg ≠ 0 →
      (∀ k, (pool.threads k).submissionQueue.length = jobsPerThread) →
      ∀ tr a, (tpoolrrJobsAssign pool uninit userTag function arg expiration now).machine.Run tr a →
        (∀ p ∈ tr, p.2 = .main) → a.pool = pool ∧ ∀ res, a.assign = .returned res → res = .EBUSY) := by
  by_cases hnull : function = 0 ∨ arg = 0
  · refine ⟨iff_of_false (fun hlaw => ?_) fun h => hnull.elim h.1.1 h.1.2,
      fun hfunction harg => absurd hnull (not_or.mpr ⟨hfunction, harg⟩)⟩
    rw [tpoolrrJobsAssign, if_pos hnull] at hlaw
    by_cases hroomy : pool.Roomy
    · cases (hlaw.toEvery hroomy [] _ .EINVAL (.start rfl) rfl).1
    · cases (hlaw.toNone hroomy [] _ (.start rfl)).1 .EINVAL rfl
  · obtain ⟨job, hcall⟩ : ∃ job, tpoolrrJobsAssign pool uninit userTag function arg expiration now =
        ⟨pool, job, .submissionsEmpty 0 0 0⟩ := ⟨_, by rw [tpoolrrJobsAssign, if_neg hnull]⟩
    rw [hcall, and_iff_right (not_or.mp hnull), ← turns_iff hrest.small]
    have hapart : (⟨pool, job, .submissionsEmpty 0 0 0⟩ : Assigning _ _).Apart :=
      fun _ _ _ _ => hrest.returned
    refine ⟨⟨fun hlaw => ?_, ?_⟩, fun _ _ hfull tr a hr hidle => ?_⟩
    · have hroomy : pool.Roomy := by
        by_contra hfull
        exact not_law_of_full rfl hapart hrest.capacity hfull hlaw
      have hcounted : ∀ n, pool.free ≤ n → n ≤ threadsTotal * jobsPerThread → sizeT n ≠ 0 :=
        fun n hlow hhigh hzero => not_law_of_overflow rfl hroomy hlow hhigh hzero hlaw
      have hfree := hcounted _ (Nat.le_refl _) (free_le pool)
      exact ⟨hroomy, turns_of_law hlaw rfl hrest hroomy hfree, hcounted⟩
    · rintro ⟨hroomy, hturns, hcounted⟩
      obtain ⟨res, hmain⟩ := hrest.returned
      refine assignLaw_of_good ?_ ⟨hroomy, hturns, hcounted⟩ hapart
        (.checking 0 0 0 rfl (Nat.pos_of_neZero threadsTotal) (Nat.zero_le _) hrest.returned
          (added_start hrest) ?_ (Nat.zero_le _))
      · rw [hmain]
        rfl
      · rw [roomBefore_zero]
    · obtain ⟨hpool, ⟨j, hassign⟩ | hassign⟩ := refused_run rfl hfull hr hidle
      · exact ⟨hpool, fun res hres => by cases hassign.symm.trans hres⟩
      · exact ⟨hpool, fun res hres => by cases hassign.symm.trans hres; rfl⟩

end Law

def resting (queues : Fin threadsTotal → Fifo TpoolrrJob jobsPerThread) (rrIndex : Nat) :
    State threadsTotal jobsPerThread :=
  let fresh : State threadsTotal jobsPerThread := start fun _ => zeroJob
  { fresh with
    threads := fun k => { fresh.threads k with submissionQueue := queues k }
    rrIndex }

omit [NeZero threadsTotal] in
theorem resting_resting (hcapacity : 0 < jobsPerThread)
    (queues : Fin threadsTotal → Fifo TpoolrrJob jobsPerThread) {rrIndex : Nat}
    (hsmall : rrIndex < sizeMax) : (resting queues rrIndex).Resting :=
  ⟨⟨.ok, rfl⟩, fun _ => rfl, hsmall, hcapacity⟩

def oneQueued (h : 0 < jobsPerThread) : Fifo TpoolrrJob jobsPerThread := ⟨[zeroJob], h⟩

theorem assignLaw_iff_roomy :
    AssignLaw (tpoolrrJobsAssign (resting (fun _ => oneQueued (by decide)) 5 : State 2 2)
      zeroJob 7 1 1 0 0) := by
  refine (assignLaw_iff (resting_resting (by decide) _ (by decide))).1.mpr
    ⟨by decide, by decide, by decide, fun n hlow hhigh => ?_⟩
  have hfree : (resting (fun _ => oneQueued (by decide)) 5 : State 2 2).free = 2 := by decide
  rw [hfree] at hlow
  rw [sizeT_of_lt (Nat.lt_of_le_of_lt hhigh (by decide))]
  omega

def oneFull : State 2 1 := resting (fun k => if k = 0 then oneQueued (by decide) else .empty) 0

/-- One of two queues is full: the other one gets the job, and the second add fails. -/
theorem not_assignLaw_oneFull :
    ¬ ∀ (pool : State 2 1) (uninit : TpoolrrJob) (userTag function arg expiration now : UInt64),
      pool.Resting → function ≠ 0 → arg ≠ 0 →
        AssignLaw (tpoolrrJobsAssign pool uninit userTag function arg expiration now) := by
  intro h
  have hlaw := h oneFull zeroJob 7 1 1 0 0 (resting_resting (by decide) _ (by decide)) (by decide)
    (by decide)
  obtain ⟨tr, a, hr, ha⟩ := Machine.exists_run_of_exec
    (tpoolrrJobsAssign oneFull zeroJob 7 1 1 0 0).machine _ (List.replicate 18 .main)
    (fun a => a.assign = .aborted) rfl (by decide +kernel)
  exact hlaw.asserted tr a hr (by simpa using ha)

end Dert.Tpoolrr
