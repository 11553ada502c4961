import Dert.Pool.GtpoolrrSlots

namespace Dert

def Timespec.nanoseconds (spec : Timespec) : Nat := spec.tvSec * 1000000000 + spec.tvNsec

def Timespec.ofNanoseconds (n : Nat) : Timespec :=
  ⟨n / 1000000000, n % 1000000000, Nat.mod_lt n (by decide)⟩

@[simp] theorem Timespec.nanoseconds_ofNanoseconds (n : Nat) :
    (Timespec.ofNanoseconds n).nanoseconds = n := Nat.div_add_mod' n 1000000000

theorem toNat_gtMonotonicTimeNow {spec : Timespec} (h : spec.nanoseconds / 1000000 < 2 ^ 64) :
    (gtMonotonicTimeNow spec).toNat = spec.nanoseconds / 1000000 := by
  have hlt := spec.tvNsec_lt
  have hmillis : spec.nanoseconds / 1000000 = spec.tvSec * 1000 + spec.tvNsec / 1000000 := by
    rw [Timespec.nanoseconds]
    omega
  rw [hmillis] at h
  simp only [gtMonotonicTimeNow, UInt64.toNat_add, UInt64.toNat_mul, UInt64.toNat_ofNat', hmillis,
    Nat.mod_mul_mod, Nat.add_mod_mod, Nat.mod_add_mod]
  exact Nat.mod_eq_of_lt h

namespace Gtpoolrr

open Library

variable {jobsPerThread : Nat} {s : State jobsPerThread} {job : GtpoolrrJob}
  {rest : List GtpoolrrJob} {t t' : Timespec} {n now : UInt64}

inductive SetAt (t : Timespec) (n : UInt64) : GtpoolrrJob → Prop
  | single (job : GtpoolrrJob) : SetAt t n (gtpoolrrSbsSetExpiration job n t)
  | several (jobs : List GtpoolrrJob) (spec : Nat → Timespec) (i : Nat) (job : GtpoolrrJob) :
      (gtpoolrrSbsSetExpirations jobs n spec)[i]? = some job → spec i = t → SetAt t n job

structure Runs (s : State jobsPerThread) (job : GtpoolrrJob) (s' : State jobsPerThread) : Prop where
  pc : s'.pc = .inJob
  taken : s'.job = some job
  started : s'.started = s.started + 1
  flags : s'.flags job.handle = 0

structure TimesOut (s : State jobsPerThread) (job : GtpoolrrJob) (s' : State jobsPerThread) :
    Prop where
  pc : s'.pc = .complete
  taken : s'.job = some job
  started : s'.started = s.started
  flags : s'.flags job.handle = GTPOOLRR_CPS_FLAG_TIMEOUT

theorem pop_of_list (h : s.submissionQueue.list = job :: rest) :
    ∃ submissionQueue, s.submissionQueue.pop = some (job, submissionQueue) := by
  cases hpop : s.submissionQueue.pop with
  | none =>
    rw [Fifo.pop_eq_none.mp hpop] at h
    cases h
  | some popped =>
    obtain ⟨job', submissionQueue⟩ := popped
    have hlist := Fifo.pop_eq_some hpop
    rw [h] at hlist
    obtain ⟨rfl, -⟩ := List.cons.inj hlist
    exact ⟨submissionQueue, rfl⟩

theorem take_timesOut (h : s.submissionQueue.list = job :: rest)
    (hlate : ¬ (job.expiration = 0 ∨ job.expiration > now)) : TimesOut s job (take s now) := by
  obtain ⟨submissionQueue, hpop⟩ := pop_of_list h
  rw [take, hpop]
  simp only [if_neg hlate]
  exact ⟨rfl, rfl, rfl, Function.update_self ..⟩

theorem take_runs (h : s.submissionQueue.list = job :: rest)
    (hearly : job.expiration = 0 ∨ job.expiration > now) {memory : VpoolMemory} {thread : Nat}
    (halloc : vpoolAlloc none 2 s.memory s.greenThreads = (memory, some thread)) :
    Runs s job (take s now) := by
  obtain ⟨submissionQueue, hpop⟩ := pop_of_list h
  rw [take, hpop]
  simp only [if_pos hearly, halloc]
  exact ⟨rfl, rfl, rfl, Function.update_self ..⟩

theorem take_not_timesOut (h : s.submissionQueue.list = job :: rest)
    (hearly : job.expiration = 0 ∨ job.expiration > now) : ¬ TimesOut s job (take s now) := by
  obtain ⟨submissionQueue, hpop⟩ := pop_of_list h
  rw [take, hpop]
  simp only [if_pos hearly]
  rcases vpoolAlloc none 2 s.memory s.greenThreads with ⟨memory, _ | thread⟩
  · rintro ⟨hpc, -⟩
    cases hpc
  · rintro ⟨hpc, -⟩
    cases hpc

theorem SetAt.expiration (h : SetAt t n job) : job.expiration = gtMonotonicTimeNow t + n := by
  cases h with
  | single job => rfl
  | several jobs spec i job hget ht =>
    rw [gtpoolrrSbsSetExpirations, List.getElem?_mapIdx] at hget
    obtain ⟨job', -, rfl⟩ := Option.map_eq_some_iff.mp hget
    rw [← ht]
    rfl

structure TakeLaw (s : State jobsPerThread) (job : GtpoolrrJob) (t t' : Timespec) (n : UInt64) :
    Prop where
  early : t'.nanoseconds - t.nanoseconds + 1000000 ≤ n.toNat →
    Runs s job (take s (gtMonotonicTimeNow t'))
  late : n.toNat + 1000000 ≤ t'.nanoseconds - t.nanoseconds →
    TimesOut s job (take s (gtMonotonicTimeNow t'))

def ExpirationLaw (jobsPerThread : Nat) (t : Timespec) (n : UInt64) : Prop :=
  ∀ (tr : List (State jobsPerThread × Label)) (s : State jobsPerThread) (job : GtpoolrrJob)
    (rest : List GtpoolrrJob) (t' : Timespec), (machine jobsPerThread).Run tr s →
    s.pc = .take → s.submissionQueue.list = job :: rest → SetAt t n job →
    t.nanoseconds ≤ t'.nanoseconds → t'.nanoseconds / 1000000 < 2 ^ 64 → TakeLaw s job t t' n

/-- Neither the deadline nor the time overflows, and the deadline counts each nanosecond as a
millisecond. -/
theorem expiration_gt_iff (hset : SetAt t n job) (hn : 0 < n)
    (hflow : t.nanoseconds / 1000000 + n.toNat < 2 ^ 64)
    (hclock : t'.nanoseconds / 1000000 < 2 ^ 64) :
    job.expiration = 0 ∨ job.expiration > gtMonotonicTimeNow t' ↔
      t'.nanoseconds / 1000000 < t.nanoseconds / 1000000 + n.toNat := by
  have hpos : 0 < n.toNat := hn
  have hdeadline : job.expiration.toNat = t.nanoseconds / 1000000 + n.toNat := by
    rw [hset.expiration, UInt64.toNat_add, toNat_gtMonotonicTimeNow (by omega)]
    exact Nat.mod_eq_of_lt hflow
  have hnonzero : job.expiration ≠ 0 := fun hzero => by
    rw [hzero] at hdeadline
    change 0 = _ at hdeadline
    omega
  rw [or_iff_right hnonzero, gt_iff_lt, UInt64.lt_iff_toNat_lt, hdeadline,
    toNat_gtMonotonicTimeNow hclock]

theorem run_counts {tr : List (State jobsPerThread × Label)}
    (hr : (machine jobsPerThread).Run tr s) : Counts s := by
  refine hr.always ?_ fun s l s' hcounts hs => hcounts.step (step_cases hs)
  rintro s ⟨hpos, ring, memory, greenThreads, rfl⟩
  exact counts_start ring memory greenThreads hpos

theorem exists_take (hpos : 0 < jobsPerThread) (expiration : UInt64) :
    ∃ (tr : List (State jobsPerThread × Label)) (s : State jobsPerThread),
      (machine jobsPerThread).Run tr s ∧ s.pc = .take ∧
        s.submissionQueue.list = [⟨0, expiration⟩] := by
  let submissionQueue : Fifo GtpoolrrJob jobsPerThread := ⟨[⟨0, expiration⟩], hpos⟩
  have hfifo : (Fifo.empty : Fifo GtpoolrrJob jobsPerThread).push ⟨0, expiration⟩ =
      some submissionQueue := Fifo.push_of_lt (q := .empty) hpos _
  have hpush : (machine jobsPerThread).step (start true noPools 4096) (.push expiration) =
      some { (start true noPools 4096 : State jobsPerThread) with
        submissionQueue, accepted := [⟨0, expiration⟩] } := by
    simp only [machine, step, start, List.length_nil, hfifo, List.nil_append]
  have hstart : (machine jobsPerThread).Run [] (start true noPools 4096) := .start ⟨hpos, _, _, _, rfl⟩
  have hsubmitted := hstart.next hpush
  have hseen := hsubmitted.next (l := .work 0) rfl
  have hactive := hseen.next (l := .work 0) rfl
  have hidle := hactive.next (l := .work 0) rfl
  exact ⟨_, _, hidle, rfl, rfl⟩

/-- The worker times a job out when as many milliseconds have passed as its expiration has
nanoseconds: never early, and in time only for one nanosecond, or for two at the end of a
millisecond. -/
theorem expirationLaw_iff (hpos : 0 < jobsPerThread) (hn : 0 < n)
    (hflow : t.nanoseconds / 1000000 + n.toNat < 2 ^ 64) :
    (ExpirationLaw jobsPerThread t n ↔
      n = 1 ∨ n = 2 ∧ 1000000 ≤ t.nanoseconds % 1000000 + 2) ∧
    ∀ (tr : List (State jobsPerThread × Label)) (s : State jobsPerThread) (job : GtpoolrrJob)
      (rest : List GtpoolrrJob) (t' : Timespec), (machine jobsPerThread).Run tr s →
      s.pc = .take → s.submissionQueue.list = job :: rest → SetAt t n job →
      t'.nanoseconds / 1000000 < 2 ^ 64 →
      t'.nanoseconds - t.nanoseconds + 1000000 ≤ n.toNat → s.started < jobsPerThread →
      Runs s job (take s (gtMonotonicTimeNow t')) := by
  have hpositive : 0 < n.toNat := hn
  have hone : n = 1 ↔ n.toNat = 1 := UInt64.toNat_inj.symm
  have htwo : n = 2 ↔ n.toNat = 2 := UInt64.toNat_inj.symm
  rw [hone, htwo]
  refine ⟨⟨fun hlaw => ?_, fun hsmall => ?_⟩, ?_⟩
  · by_contra hlarge
    obtain ⟨tr, s, hr, hpc, hlist⟩ := exists_take hpos (gtMonotonicTimeNow t + n)
    have hset : SetAt t n ⟨0, gtMonotonicTimeNow t + n⟩ := SetAt.single ⟨0, 0⟩
    have ht' := Timespec.nanoseconds_ofNanoseconds (t.nanoseconds + n.toNat + 1000000)
    have hearly : (Timespec.ofNanoseconds (t.nanoseconds + n.toNat + 1000000)).nanoseconds / 1000000
        < t.nanoseconds / 1000000 + n.toNat := by
      rw [ht']
      omega
    have hclock := Nat.lt_trans hearly hflow
    refine take_not_timesOut hlist ((expiration_gt_iff hset hn hflow hclock).mpr hearly) ?_
    exact (hlaw tr s _ [] _ hr hpc hlist hset (by rw [ht']; omega) hclock).late (by rw [ht']; omega)
  · intro tr s job rest t' hr hpc hlist hset hle hclock
    refine ⟨fun hearly => absurd hearly (by omega), fun hlate => take_timesOut hlist ?_⟩
    rw [expiration_gt_iff hset hn hflow hclock]
    omega
  · intro tr s job rest t' hr hpc hlist hset hclock hearly hroom
    have hcounts := run_counts hr
    have hexp := (expiration_gt_iff hset hn hflow hclock).mpr (by omega)
    rcases halloc : vpoolAlloc none 2 s.memory s.greenThreads with ⟨memory, _ | thread⟩
    · obtain ⟨hfull, -⟩ := vpoolAlloc_none hcounts.nextFree hcounts.kind halloc
      exact absurd (hcounts.stored.symm.trans (hfull.trans hcounts.capacity)) (Nat.ne_of_lt hroom)
    · exact take_runs hlist hexp halloc

def atZero : Timespec := Timespec.ofNanoseconds 0

theorem expirationLaw_one :
    (ExpirationLaw 2 atZero 1 ↔
      (1 : UInt64) = 1 ∨ (1 : UInt64) = 2 ∧ 1000000 ≤ atZero.nanoseconds % 1000000 + 2) ∧
    ∀ (tr : List (State 2 × Label)) (s : State 2) (job : GtpoolrrJob) (rest : List GtpoolrrJob)
      (t' : Timespec), (machine 2).Run tr s → s.pc = .take →
      s.submissionQueue.list = job :: rest → SetAt atZero 1 job →
      t'.nanoseconds / 1000000 < 2 ^ 64 →
      t'.nanoseconds - atZero.nanoseconds + 1000000 ≤ (1 : UInt64).toNat → s.started < 2 →
      Runs s job (take s (gtMonotonicTimeNow t')) :=
  expirationLaw_iff (by decide) (by decide) (by decide)

/-- A job that is given one millisecond is still run after two. -/
theorem not_expirationLaw_millisecond : ¬ ExpirationLaw 2 atZero 1000000 := by
  intro hlaw
  obtain ⟨tr, s, hr, hpc, hlist⟩ := exists_take Nat.two_pos (gtMonotonicTimeNow atZero + 1000000)
  have hset : SetAt atZero 1000000 ⟨0, gtMonotonicTimeNow atZero + 1000000⟩ := SetAt.single ⟨0, 0⟩
  have hlt : (Timespec.ofNanoseconds 2000000).nanoseconds / 1000000 <
      atZero.nanoseconds / 1000000 + (1000000 : UInt64).toNat := by decide
  have hpos : (0 : UInt64) < 1000000 := by decide
  have hearly := (expiration_gt_iff hset hpos (by decide) (by decide)).mpr hlt
  have htake := hlaw tr s _ [] (Timespec.ofNanoseconds 2000000) hr hpc hlist hset (by decide)
    (by decide)
  exact take_not_timesOut hlist hearly (htake.late (by decide))

end Gtpoolrr

end Dert
