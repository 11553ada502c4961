import Dert.Library.Scan
import Dert.Library.Settling
import Dert.Library.Tally
import Dert.Pool.GtpoolrrPops

namespace Dert.Gtpoolrr

open Library

variable {threadsTotal jobsPerThread : Nat}

def gtpoolrrCpsQueued (s : Pool threadsTotal jobsPerThread) : Nat :=
  tally (fun worker => worker.completionQueue.length) s.workers

structure Served (popper : Popper) (s : Pool threadsTotal jobsPerThread) : Prop where
  main : s.main = .returned .ok
  all : s.dest.length = popper.wanted

def looks (popper : Popper) (s : Pool threadsTotal jobsPerThread) : Nat :=
  match s.main with
  | .cpsPop _ i => (popper.wanted - s.dest.length - 1) * threadsTotal + (threadsTotal - i)
  | _ => 0

section Queued

variable {s : Pool threadsTotal jobsPerThread} {index : Fin threadsTotal}
  {worker : State jobsPerThread}

theorem queued_set_completes {more : List GtpoolrrJob}
    (h : Completes (s.workers index) worker more) :
    gtpoolrrCpsQueued (s.set index worker) = more.length + gtpoolrrCpsQueued s := by
  refine tally_give ?_
  rw [Fifo.length, h.queue, List.length_append, Nat.add_comm]
  rfl

theorem queued_set_popped (s : Pool threadsTotal jobsPerThread) (index : Fin threadsTotal)
    (worker : State jobsPerThread) {job : GtpoolrrJob}
    (h : (s.workers index).completionQueue.list = job :: worker.completionQueue.list) :
    gtpoolrrCpsQueued s = 1 + gtpoolrrCpsQueued (s.set index worker) := by
  refine tally_take ?_
  rw [Fifo.length, h, List.length_cons, Nat.add_comm]
  rfl

theorem exists_queued (h : 0 < gtpoolrrCpsQueued s) :
    ∃ k, (s.workers k).completionQueue.list ≠ [] := by
  by_contra hnone
  push Not at hnone
  have hzero : gtpoolrrCpsQueued s = 0 := tally_zero fun k => by rw [Fifo.length, hnone k]; rfl
  omega

theorem Served.looks_eq {popper : Popper} (h : Served popper s) : looks popper s = 0 := by
  rw [looks, h.main]

end Queued

variable [NeZero threadsTotal] {s s' : Pool threadsTotal jobsPerThread} {popper : Popper} {i : Nat}
  {l : PoolLabel threadsTotal}
  {tr : List (Pool threadsTotal jobsPerThread × PoolLabel threadsTotal)}

theorem index_eq (hword : s.rrIndex.toNat + threadsTotal ≤ UInt64.size) (hi : i < threadsTotal) :
    s.index i = Fin.ofNat threadsTotal (s.rrIndex.toNat + i) := by
  have hsize : UInt64.size = 2 ^ 64 := rfl
  rw [Pool.index, UInt64.toNat_add, UInt64.toNat_ofNat_of_lt' (by omega),
    Nat.mod_eq_of_lt (by omega), Nat.add_comm]

structure Popping (popper : Popper) (i : Nat) (s : Pool threadsTotal jobsPerThread) : Prop where
  main : s.main = .cpsPop popper i
  wants : s.dest.length < popper.wanted
  there : popper.wanted ≤ s.dest.length + gtpoolrrCpsQueued s
  word : s.rrIndex.toNat + threadsTotal ≤ UInt64.size
  next : ∃ j, i ≤ j ∧ j < threadsTotal ∧ (s.workers (s.index j)).completionQueue.list ≠ []

theorem Popping.start (hmain : s.main = .cpsPop popper 0) (hwants : s.dest.length < popper.wanted)
    (hthere : popper.wanted ≤ s.dest.length + gtpoolrrCpsQueued s)
    (hword : s.rrIndex.toNat + threadsTotal ≤ UInt64.size) : Popping popper 0 s := by
  refine ⟨hmain, hwants, hthere, hword, ?_⟩
  obtain ⟨k, hk⟩ := exists_queued (s := s) (by omega)
  obtain ⟨j, hj, rfl⟩ := exists_turn s.rrIndex.toNat k
  exact ⟨j, Nat.zero_le j, hj, by rwa [index_eq hword hj]⟩

theorem Popping.worker (h : Popping popper i s) {index : Fin threadsTotal}
    {worker : State jobsPerThread} {more : List GtpoolrrJob}
    (hw : Completes (s.workers index) worker more) : Popping popper i (s.set index worker) := by
  obtain ⟨j, hij, hj, hnext⟩ := h.next
  refine ⟨h.main, h.wants, ?_, h.word, j, hij, hj, ?_⟩
  · rw [queued_set_completes hw]
    exact h.there.trans (Nat.add_le_add_left (Nat.le_add_left ..) _)
  · by_cases hk : s.index j = index
    · subst hk
      rw [show (s.set (s.index j) worker).index j = s.index j from rfl, set_workers_self, hw.queue]
      exact List.append_ne_nil_of_left_ne_nil hnext _
    · rw [show (s.set index worker).index j = s.index j from rfl, set_workers_of_ne worker hk]
      exact hnext

theorem Popping.looks_eq (h : Popping popper i s) : looks popper s =
    (popper.wanted - s.dest.length - 1) * threadsTotal + (threadsTotal - i) := by
  rw [looks, h.main]

theorem Popping.popped (hthreads : 2 * threadsTotal ≤ UInt64.size) (h : Popping popper i s)
    {t : Pool threadsTotal jobsPerThread} (hi : i < threadsTotal)
    (hmain : t.main = popper.popped (s.dest.length + 1))
    (hdest : t.dest.length = s.dest.length + 1)
    (hqueued : gtpoolrrCpsQueued s = 1 + gtpoolrrCpsQueued t)
    (hrr : t.rrIndex = UInt64.ofNat ((s.rrIndex + UInt64.ofNat i).toNat % threadsTotal)) :
    (Popping popper 0 t ∨ Served popper t) ∧ looks popper t + 1 ≤ looks popper s := by
  have hpos : 0 < threadsTotal := Nat.pos_of_neZero threadsTotal
  have hlooks := h.looks_eq
  rcases popped_cases threadsTotal popper s.dest.length h.wants with ⟨hnext, hmore⟩ | ⟨hnext, hall⟩
  · have hword : t.rrIndex.toNat + threadsTotal ≤ UInt64.size := by
      have hlt := Nat.mod_lt (s.rrIndex + UInt64.ofNat i).toNat hpos
      rw [hrr, UInt64.toNat_ofNat_of_lt' (by omega)]
      omega
    have hthere := h.there
    have hpopping : Popping popper 0 t :=
      .start (hmain.trans hnext) (by omega) (by omega) hword
    refine ⟨.inl hpopping, ?_⟩
    have hone : popper.wanted - s.dest.length - 1 = (popper.wanted - t.dest.length - 1) + 1 := by
      omega
    rw [hpopping.looks_eq, hlooks, hone, Nat.succ_mul]
    omega
  · have hserved : Served popper t := ⟨hmain.trans hnext, hdest.trans hall⟩
    refine ⟨.inr hserved, ?_⟩
    rw [hserved.looks_eq, hlooks]
    omega

theorem Popping.round (hthreads : 2 * threadsTotal ≤ UInt64.size) (h : Popping popper i s)
    (hs : PopStep s popper i s') :
    ((∃ j, Popping popper j s') ∨ Served popper s') ∧ looks popper s' + 1 ≤ looks popper s := by
  obtain ⟨j, hij, hj, hnext⟩ := h.next
  cases hs with
  | popped job completionQueue hi hpop =>
    have hqueued := queued_set_popped s (s.index i) { s.workers (s.index i) with
      completionQueue, popped := (s.workers (s.index i)).popped + 1 } (Fifo.pop_eq_some hpop)
    obtain ⟨hpopping, hlooks⟩ := h.popped (t := { s.set (s.index i) { s.workers (s.index i) with
          completionQueue, popped := (s.workers (s.index i)).popped + 1 } with
        rrIndex := UInt64.ofNat ((s.rrIndex + UInt64.ofNat i).toNat % threadsTotal)
        main := popper.popped (s.dest.length + 1)
        dest := s.dest ++ [(s.index i, job)]
        delivered := s.delivered ++ [(s.index i, job)] }) hthreads hi rfl
      (by rw [List.length_append, List.length_singleton]) hqueued rfl
    exact ⟨hpopping.imp_left fun hpopping => ⟨0, hpopping⟩, hlooks⟩
  | none hi hnone =>
    have hne : j ≠ i := by
      rintro rfl
      exact hnext hnone
    have hpopping : Popping popper (i + 1) { s with main := .cpsPop popper (i + 1) } :=
      ⟨rfl, h.wants, h.there, h.word, j, Nat.lt_of_le_of_ne hij hne.symm, hj, hnext⟩
    refine ⟨.inl ⟨i + 1, hpopping⟩, ?_⟩
    rw [hpopping.looks_eq, h.looks_eq]
    dsimp only
    omega
  | busy hi => omega

theorem Popping.step (hthreads : 2 * threadsTotal ≤ UInt64.size) (h : Popping popper i s)
    (hs : PoolStep s l s') (hl : l.within = true) :
    ((∃ j, Popping popper j s') ∨ Served popper s') ∧
      looks popper s' + (decide (l = .main)).toNat ≤ looks popper s := by
  cases hs with
  | worker _ index own worker hpart hw =>
    obtain ⟨more, hmore⟩ := (step_cases hw).completes (part_own hpart)
    have hworker := h.worker hmore
    refine ⟨.inl ⟨i, hworker⟩, ?_⟩
    rw [hworker.looks_eq, h.looks_eq, decide_eq_false (part_ne_main hpart)]
    rfl
  | called => cases hl
  | main _ _ hs =>
    rw [decide_eq_true rfl, Bool.toNat_true]
    exact h.round hthreads (hs.popStep h.main)

theorem Served.step (h : Served popper s) (hs : PoolStep s l s') (hl : l.within = true) :
    Served popper s' ∧ looks popper s' + (decide (l = .main)).toNat ≤ looks popper s := by
  cases hs with
  | worker _ index own worker hpart =>
    have hserved : Served popper (s.set index worker) := ⟨h.main, h.all⟩
    refine ⟨hserved, ?_⟩
    rw [hserved.looks_eq, h.looks_eq, decide_eq_false (part_ne_main hpart)]
    rfl
  | called => cases hl
  | main _ hs => simp [mainStep_returned h.main] at hs

/-- A call that asks for jobs that are there gets them: it does not return `EBUSY`, and looks at
each queue once at the most for each of them, whatever the workers do meanwhile. -/
theorem pops_return {later : List (Pool threadsTotal jobsPerThread × PoolLabel threadsTotal)}
    (hthreads : 2 * threadsTotal ≤ UInt64.size)
    (hr : (poolMachine threadsTotal jobsPerThread).Run tr s) (hmain : s.main = .cpsPop popper 0)
    (hthere : popper.wanted ≤ s.dest.length + gtpoolrrCpsQueued s)
    (hword : s.rrIndex.toNat + threadsTotal ≤ UInt64.size)
    (hl : ((poolMachine threadsTotal jobsPerThread).after s).Run later s')
    (hwithin : ∀ p ∈ later, p.2.within = true) :
    later.countP (fun p => p.2 = .main) ≤ (popper.wanted - s.dest.length) * threadsTotal ∧
      (s'.main = .returned .ok ∧ s'.dest.length = popper.wanted ∨
        ∃ i < threadsTotal, s'.main = .cpsPop popper i) := by
  have hwants := (pops_inv hr).2.1
  rw [hmain] at hwants
  have hstart := Popping.start hmain hwants hthere hword
  have hspends : (poolMachine threadsTotal jobsPerThread).Spends
      (fun s => (∃ i, Popping popper i s) ∨ Served popper s) (fun _ l => l.within = true)
      (looks popper)
      fun _ l => decide (l = .main) := by
    rintro s l s' (⟨i, h⟩ | h) hl hs
    · exact h.step hthreads (poolStep_cases hs) hl
    · obtain ⟨hserved, hlooks⟩ := h.step (poolStep_cases hs) hl
      exact ⟨.inr hserved, hlooks⟩
  obtain ⟨hend, hcount⟩ := hspends.count_le (.inl ⟨0, hstart⟩) hl hwithin
  have hone : popper.wanted - s.dest.length = (popper.wanted - s.dest.length - 1) + 1 := by
    have := hstart.wants
    omega
  refine ⟨?_, hend.symm.imp (fun h => ⟨h.main, h.all⟩) fun ⟨i, h⟩ => ?_⟩
  · rw [hstart.looks_eq] at hcount
    rw [hone, Nat.succ_mul]
    omega
  · obtain ⟨j, hij, hj, -⟩ := h.next
    exact ⟨i, Nat.lt_of_le_of_lt hij hj, h.main⟩

theorem pops_return_secondLook :
    ∃ (tr later : List (Pool 2 1 × PoolLabel 2)) (s s' : Pool 2 1), (poolMachine 2 1).Run tr s ∧
      ((poolMachine 2 1).after s).Run later s' ∧ s'.main = .returned .ok ∧ s'.dest.length = 1 ∧
        later.countP (fun p => p.2 = .main) ≤ 2 := by
  obtain ⟨tr, s, hr, hs⟩ := (poolMachine 2 1).exists_run_of_exec
    (startPool (fun _ => true) (fun _ => noPools) fun _ => 4096)
    [.call (.sbsPushRr ⟨1, 1, 0⟩), .main, .main, .work 0 0, .work 0 0, .work 0 0, .work 0 0, .finish 0,
      .work 0 0, .call (.cpsPopall 1)]
    (fun s => s.main = .cpsPop (.popall 1) 0 ∧ s.dest = [] ∧ gtpoolrrCpsQueued s = 1 ∧
      s.rrIndex = 1 ∧ (((poolMachine 2 1).after s).record [] s [.main, .work 1 0, .main]).any
        (fun r => decide (r.2.main = .returned .ok ∧ ∀ p ∈ r.1, p.2.within = true)) = true)
    ⟨by decide, _, _, _, rfl⟩ (by decide)
  simp only [decide_eq_true_eq] at hs
  obtain ⟨hmain, hdest, hqueued, hrr, hgoes⟩ := hs
  obtain ⟨later, s', hl, hend⟩ := ((poolMachine 2 1).after s).exists_run_of_record s
    [.main, .work 1 0, .main]
    (fun later s' => s'.main = .returned .ok ∧ ∀ p ∈ later, p.2.within = true) rfl hgoes
  simp only [decide_eq_true_eq] at hend
  obtain ⟨hreturned, hwithin⟩ := hend
  obtain ⟨hlooks, hserved⟩ := pops_return (by decide) hr hmain
    (by rw [hdest, hqueued]; decide) (by rw [hrr]; decide) hl hwithin
  rw [hdest] at hlooks
  refine ⟨tr, later, s, s', hr, hl, hreturned, ?_, hlooks⟩
  rcases hserved with ⟨-, hall⟩ | ⟨i, -, hpopping⟩
  · exact hall
  · cases hreturned.symm.trans hpopping

end Dert.Gtpoolrr
