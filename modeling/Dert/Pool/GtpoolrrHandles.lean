import Dert.Store.VpoolSlots

namespace Dert

open Library

def sizeofGtpoolrrJob : Nat := 56

structure SbsGet where
  memory : VpoolMemory
  jobsDest : List Nat
  numObtained : Nat
  ret : Ret

def clear (bytes : Nat → UInt8) (dest count : Nat) : Option (Nat → UInt8) :=
  if dest = 0 then none else some (memset bytes dest 0 count)

def gtpoolrrSbsGet.loop (jobs : Nat) : Nat → SbsGet → Option SbsGet
  | 0, r => some r
  | remaining + 1, r =>
    let (memory, job) := vpoolAlloc none 2 r.memory jobs
    let job := job.getD 0
    -- the job is cleared before it is compared with NULL
    (clear memory.bytes job sizeofGtpoolrrJob).bind fun bytes =>
      let r := { r with memory := { memory with bytes } }
      if job = 0 then some { r with ret := .ENODATA }
      else
        gtpoolrrSbsGet.loop jobs remaining
          { r with jobsDest := r.jobsDest ++ [job], numObtained := r.numObtained + 1 }

/-- `none` is a write through NULL. -/
def gtpoolrrSbsGet (jobs : Nat) (memory : VpoolMemory) (numObtained numRequested : Nat) :
    Option SbsGet :=
  if numRequested = 0 then some ⟨memory, [], numObtained, .EINVAL⟩
  else gtpoolrrSbsGet.loop jobs numRequested ⟨memory, [], 0, .ok⟩

/-- `none` is a failed assertion. -/
def gtpoolrrCpsAck (jobs : Nat) : VpoolMemory → List Nat → Option VpoolMemory
  | memory, [] => some memory
  | memory, job :: doneJobs =>
    match vpoolDealloc memory jobs job with
    | (memory, 0) => gtpoolrrCpsAck jobs memory doneJobs
    | (_, _) => none

namespace Gtpoolrr.Handles

/-- The pool of jobs and the handles that the caller holds.  Nothing happens after a fault. -/
structure State where
  memory : VpoolMemory
  outstanding : List Nat
  faulted : Bool

inductive Label
  | get (numRequested : Nat)
  | ack (doneJobs : List Nat)

def step (jobs : Nat) (s : State) : Label → Option State
  | .get numRequested =>
    if s.faulted then none
    else
      match gtpoolrrSbsGet jobs s.memory 0 numRequested with
      | none => some { s with faulted := true }
      | some r => some { s with memory := r.memory, outstanding := r.jobsDest.reverse ++ s.outstanding }
  | .ack doneJobs =>
    if s.faulted = false ∧ doneJobs.Nodup ∧ ∀ e ∈ doneJobs, e ∈ s.outstanding then
      match gtpoolrrCpsAck jobs s.memory doneJobs with
      | none => some { s with faulted := true }
      | some memory => some { s with memory, outstanding := s.outstanding.diff doneJobs }
    else none

def machine (threadCount jobsPerThread jobs : Nat) : Machine State Label where
  init s :=
    0 < jobs ∧ jobs + vpoolAdvise (sizeT (threadCount * jobsPerThread)) sizeofGtpoolrrJob ≤ sizeMax ∧
    (∃ memory, vpoolInit memory jobs (sizeT (threadCount * jobsPerThread)) sizeofGtpoolrrJob
      .VPOOL_KIND_STATIC = (s.memory, .ok)) ∧
    s.outstanding = [] ∧ s.faulted = false
  step := step jobs

def job (e : Nat) : Extent := ⟨e, sizeofGtpoolrrJob⟩

structure Sound (total jobs : Nat) (s : State) : Prop where
  distinct : s.outstanding.Nodup
  apart : s.outstanding.Pairwise fun e f => (job e).Apart (job f)
  slot : ∀ e ∈ s.outstanding, ∃ i < total, e = jobs + sizeofVpool + i * sizeofGtpoolrrJob
  zeroed : ∀ e ∈ s.outstanding, ∀ i, (job e).Has i → s.memory.bytes i = 0
  count : s.outstanding.length ≤ total

def Law (total jobs : Nat) (s : State) : Label → Prop
  | .get numRequested => 1 ≤ numRequested → ∀ numObtained,
    ∃ r, gtpoolrrSbsGet jobs s.memory numObtained numRequested = some r ∧
      r.numObtained = min numRequested (total - s.outstanding.length) ∧
      r.jobsDest.length = r.numObtained ∧
      r.ret = if r.numObtained = numRequested then .ok else .ENODATA
  | .ack doneJobs => (gtpoolrrCpsAck jobs s.memory doneJobs).isSome

def Enough (total : Nat) (s : State) : Label → Prop
  | .get numRequested => numRequested ≤ total - s.outstanding.length
  | .ack _ => True

instance (total : Nat) (s : State) (l : Label) : Decidable (Enough total s l) := by
  cases l with
  | get numRequested => exact inferInstanceAs (Decidable (_ ≤ _))
  | ack doneJobs => exact inferInstanceAs (Decidable True)

variable {total jobs e n : Nat} {memory : VpoolMemory} {outstanding freed : List Nat}

theorem job_apart {s : Vpool.State} {f : Nat}
    (h : Vpool.Inv total sizeofGtpoolrrJob .VPOOL_KIND_STATIC jobs s)
    (hwidth : (s.memory.pools jobs).elementSize = sizeofGtpoolrrJob)
    (he : e ∈ s.live) (hf : f ∈ s.live) (hne : e ≠ f) : (job e).Apart (job f) := by
  have hapart := h.layout.slots_apart (h.layout.slot e (List.mem_append_right _ he))
    (h.layout.slot f (List.mem_append_right _ hf)) hne
  simp only [hwidth] at hapart
  exact hapart

structure Held (total jobs : Nat) (memory : VpoolMemory) (outstanding freed : List Nat) : Prop where
  pool : Vpool.Inv total sizeofGtpoolrrJob .VPOOL_KIND_STATIC jobs
    ⟨memory, [⟨jobs, sizeofVpool + total * sizeofGtpoolrrJob⟩], outstanding, freed⟩
  width : (memory.pools jobs).elementSize = sizeofGtpoolrrJob
  zeroed : ∀ e ∈ outstanding, ∀ i, (job e).Has i → memory.bytes i = 0

namespace Held

variable (h : Held total jobs memory outstanding freed)
include h

theorem length_le : outstanding.length ≤ total := by
  obtain ⟨hcapacity, hstored⟩ := h.pool.static rfl
  have hle := h.pool.layout.stored
  simp only at hcapacity hstored hle
  omega

theorem not_grows : ¬ Vpool.Grows memory jobs := by
  intro hgrows
  have hkind := h.pool.ofKind.symm.trans hgrows.2.2
  cases hkind

theorem alloc_none_iff :
    (vpoolAlloc none 2 memory jobs).2 = none ↔ outstanding.length = total :=
  (h.pool.allocate_none h.not_grows).2.static rfl

theorem ne_zero (he : e ∈ outstanding) : e ≠ 0 :=
  h.pool.layout.slot_ne_zero (h.pool.layout.slot e (List.mem_append_right _ he))

theorem alloc_kept {memory' : VpoolMemory} {i : Nat}
    (halloc : vpoolAlloc none 2 memory jobs = (memory', some e)) (hi : ¬ (job e).Has i) :
    memory'.bytes i = memory.bytes i := by
  have hstays : ¬ Vpool.Grows memory jobs ∨ (none : Option Nat) = none := .inr rfl
  have hframe : (vpoolAlloc none 2 memory jobs).1.bytes i = memory.bytes i := by
    refine Vpool.alloc_frame 1 hstays fun g hg => ?_
    rw [halloc] at hg
    obtain rfl := Option.some.inj hg
    rw [h.width]
    exact hi
  rwa [halloc] at hframe

theorem allocated {memory' : VpoolMemory}
    (halloc : vpoolAlloc none 2 memory jobs = (memory', some e)) :
    Held total jobs memory' (e :: outstanding) (freed.erase e) := by
  obtain ⟨hinv, hlaw⟩ := h.pool.allocate_none h.not_grows
  obtain ⟨stored, nextFree, hpools⟩ := Vpool.alloc_stays 1 (.inr rfl : ¬ Vpool.Grows memory jobs ∨
    (none : Option Nat) = none)
  rw [halloc] at hpools
  have hwidth : (memory'.pools jobs).elementSize = sizeofGtpoolrrJob := by
    rw [show memory'.pools = _ from hpools, Function.update_self]
    exact h.width
  have hinv : Vpool.Inv total sizeofGtpoolrrJob .VPOOL_KIND_STATIC jobs
      ⟨memory', [⟨jobs, sizeofVpool + total * sizeofGtpoolrrJob⟩], e :: outstanding,
        freed.erase e⟩ := by
    simpa [Vpool.allocate, halloc, Vpool.State.granted, h.not_grows] using hinv
  refine ⟨hinv, hwidth, fun f hf i hi => ?_⟩
  by_cases hfe : f = e
  · have hzeroed := hlaw.zeroed e (by rw [halloc]) i
    rw [halloc] at hzeroed
    refine hzeroed ?_
    simp only [Vpool.State.elem, h.width]
    exact hfe ▸ hi
  · have hapart := job_apart hinv hwidth hf List.mem_cons_self hfe
    have hold : f ∈ outstanding := (List.mem_cons.mp hf).resolve_left hfe
    rw [h.alloc_kept halloc (hapart.not_has hi)]
    exact h.zeroed f hold i hi

theorem clear_eq (he : e ∈ outstanding) :
    clear memory.bytes e sizeofGtpoolrrJob = some memory.bytes := by
  rw [clear, if_neg (h.ne_zero he)]
  refine congrArg some (funext fun i => ?_)
  by_cases hi : (job e).Has i
  · rw [memset_inside hi, h.zeroed e he i hi]
  · exact memset_outside hi

theorem obtain_one (hroom : outstanding.length < total) :
    ∃ e memory' freed', vpoolAlloc none 2 memory jobs = (memory', some e) ∧ e ≠ 0 ∧
      clear memory'.bytes e sizeofGtpoolrrJob = some memory'.bytes ∧
      Held total jobs memory' (e :: outstanding) freed' := by
  cases halloc : vpoolAlloc none 2 memory jobs with
  | mk memory' answer =>
    cases answer with
    | none =>
      have hnone : (vpoolAlloc none 2 memory jobs).2 = none := by rw [halloc]
      exact absurd (h.alloc_none_iff.mp hnone) (Nat.ne_of_lt hroom)
    | some e =>
      have hnext := h.allocated halloc
      exact ⟨e, memory', freed.erase e, rfl, hnext.ne_zero List.mem_cons_self,
        hnext.clear_eq List.mem_cons_self, hnext⟩

theorem get (n : Nat) (hroom : outstanding.length + n ≤ total) (dest : List Nat) (k : Nat)
    (ret : Ret) : ∃ new memory' freed', new.length = n ∧
      gtpoolrrSbsGet.loop jobs n ⟨memory, dest, k, ret⟩ =
        some ⟨memory', dest ++ new, k + n, ret⟩ ∧
      Held total jobs memory' (new.reverse ++ outstanding) freed' := by
  induction n generalizing memory outstanding freed dest k with
  | zero => exact ⟨[], memory, freed, rfl, by simp [gtpoolrrSbsGet.loop], h⟩
  | succ n ih =>
    obtain ⟨e, memory', freed', halloc, hnull, hclear, h'⟩ := h.obtain_one (by omega)
    obtain ⟨new, last, freed'', hlength, hloop, hheld⟩ :=
      ih h' (by rw [List.length_cons]; omega) (dest ++ [e]) (k + 1)
    refine ⟨e :: new, last, freed'', by rw [List.length_cons, hlength], ?_, ?_⟩
    · rw [show k + (n + 1) = k + 1 + n by omega]
      simp only [gtpoolrrSbsGet.loop, halloc, Option.getD_some, hclear, Option.bind_some,
        if_neg hnull, hloop, List.append_assoc, List.singleton_append]
    · simpa using hheld

theorem fault (n : Nat) (hroom : total < outstanding.length + n) (dest : List Nat) (k : Nat)
    (ret : Ret) : gtpoolrrSbsGet.loop jobs n ⟨memory, dest, k, ret⟩ = none := by
  induction n generalizing memory outstanding freed dest k with
  | zero => exact absurd h.length_le (by omega)
  | succ n ih =>
    rcases Nat.lt_or_eq_of_le h.length_le with hlt | hfull
    · obtain ⟨e, memory', freed', halloc, hnull, hclear, h'⟩ := h.obtain_one hlt
      simp only [gtpoolrrSbsGet.loop, halloc, Option.getD_some, hclear, Option.bind_some,
        if_neg hnull]
      exact ih h' (by rw [List.length_cons]; omega) _ _
    · have hnone := h.alloc_none_iff.mpr hfull
      simp [gtpoolrrSbsGet.loop, hnone, clear]

theorem give (he : e ∈ outstanding) : ∃ memory', vpoolDealloc memory jobs e = (memory', 0) ∧
    Held total jobs memory' (outstanding.erase e) (e :: freed) := by
  have hjobs := h.pool.pool_ne_zero
  have hnull := h.ne_zero he
  have hdealloc : vpoolDealloc memory jobs e = _ := Vpool.dealloc_eq hjobs hnull
  have hframe {i : Nat} (hi : ¬ Extent.Has ⟨e, sizeofPointer⟩ i) :
      (vpoolDealloc memory jobs e).1.bytes i = memory.bytes i :=
    Vpool.dealloc_frame hjobs hnull hi
  have hpointer : sizeofPointer ≤ sizeofGtpoolrrJob := by decide
  have hinv := h.pool.deallocate he
  simp only [Vpool.deallocate] at hinv
  generalize vpoolDealloc memory jobs e = answer at *
  refine ⟨answer.1, by rw [hdealloc], hinv, ?_, fun f hf i hi => ?_⟩
  · rw [hdealloc]
    simp only [Function.update_self]
    exact h.width
  · have hdistinct := (List.nodup_append.mp h.pool.layout.nodup).2.1
    obtain ⟨hne, hmem⟩ := (List.Nodup.mem_erase_iff hdistinct).mp hf
    rw [hframe fun hin => (job_apart h.pool h.width hmem he hne).not_has hi ?_]
    · exact h.zeroed f hmem i hi
    · exact Extent.Within.has (Extent.head_within (a := job e) hpointer) hin

theorem ack (doneJobs : List Nat) (hnodup : doneJobs.Nodup)
    (hheld : ∀ e ∈ doneJobs, e ∈ outstanding) :
    ∃ memory' freed', gtpoolrrCpsAck jobs memory doneJobs = some memory' ∧
      Held total jobs memory' (outstanding.diff doneJobs) freed' := by
  induction doneJobs generalizing memory outstanding freed with
  | nil => exact ⟨memory, freed, rfl, h⟩
  | cons e rest ih =>
    obtain ⟨memory', hdealloc, h'⟩ := h.give (hheld e List.mem_cons_self)
    obtain ⟨hnew, hrest⟩ := List.nodup_cons.mp hnodup
    obtain ⟨last, freed', hack, h''⟩ := ih h' hrest fun f hf =>
      (List.mem_erase_of_ne fun heq => hnew (by rwa [← heq])).mpr
        (hheld f (List.mem_cons_of_mem e hf))
    refine ⟨last, freed', ?_, ?_⟩
    · simp only [gtpoolrrCpsAck, hdealloc, hack]
    · rwa [List.diff_cons]

end Held

variable {threadCount jobsPerThread : Nat} {s s' : State} {l : Label}

def Sane (total jobs : Nat) (s : State) : Prop :=
  s.faulted = false ∧ ∃ freed, Held total jobs s.memory s.outstanding freed

theorem Sane.sound (h : Sane total jobs s) : Sound total jobs s := by
  obtain ⟨-, freed, h⟩ := h
  have hdistinct := (List.nodup_append.mp h.pool.layout.nodup).2.1
  refine ⟨hdistinct, ?_, fun e he => ?_, h.zeroed, h.length_le⟩
  · exact hdistinct.imp_of_mem fun he hf hne => job_apart h.pool h.width he hf hne
  · obtain ⟨b, hb, i, hi, hle⟩ := h.pool.layout.slot e (List.mem_append_right _ he)
    obtain rfl := List.mem_singleton.mp hb
    simp only [h.width, Extent.body, Extent.slot, Nat.add_sub_cancel_left] at hi hle
    refine ⟨i, Nat.le_of_mul_le_mul_right hle (by decide), ?_⟩
    exact (congrArg Extent.start hi).symm

theorem sane_init (hsize : sizeofVpool + threadCount * jobsPerThread * sizeofGtpoolrrJob < sizeMax)
    (hi : (machine threadCount jobsPerThread jobs).init s) :
    Sane (threadCount * jobsPerThread) jobs s := by
  obtain ⟨hpos, hstop, ⟨before, hinit⟩, houtstanding, hfaulted⟩ := hi
  have hproduct : threadCount * jobsPerThread < sizeMax := by
    have hle := Nat.le_mul_of_pos_right (threadCount * jobsPerThread)
      (show 0 < sizeofGtpoolrrJob by decide)
    omega
  have hpointer : sizeofPointer ≤ sizeofGtpoolrrJob := by decide
  have hadvise := Vpool.advise_eq hpointer hsize
  rw [sizeT_of_lt hproduct] at hinit hstop
  have hcreate := Vpool.create_of_init hinit
  rw [← hadvise] at hsize
  refine ⟨hfaulted, [], ?_, ?_, ?_⟩
  · rw [houtstanding, ← hadvise]
    refine Vpool.inv_init ?_ ⟨⟨hpos, hstop, by simp⟩, ⟨before, hcreate⟩, rfl, rfl, rfl⟩
    rwa [Nat.max_eq_left hpointer, ← hadvise]
  · rw [(Vpool.create_eq hcreate).2]
    simp only [Function.update_self]
    exact Nat.max_eq_left hpointer
  · simp [houtstanding]

theorem sane_step (h : Sane total jobs s) (hl : Enough total s l)
    (hs : step jobs s l = some s') : Sane total jobs s' := by
  obtain ⟨hfaulted, freed, h⟩ := h
  cases l with
  | get numRequested =>
    have hroom : s.outstanding.length + numRequested ≤ total := by
      have hle := h.length_le
      simp only [Enough] at hl
      omega
    simp only [step, hfaulted, Bool.false_eq_true, if_false, gtpoolrrSbsGet] at hs
    by_cases hzero : numRequested = 0
    · simp only [if_pos hzero, List.reverse_nil, List.nil_append] at hs
      cases hs
      exact ⟨rfl, freed, h⟩
    · obtain ⟨new, memory', freed', -, hloop, hheld⟩ := h.get numRequested hroom [] 0 .ok
      simp only [if_neg hzero, hloop, List.nil_append] at hs
      cases hs
      exact ⟨rfl, freed', hheld⟩
  | ack doneJobs =>
    obtain ⟨⟨-, hnodup, hheld⟩, hs⟩ := Option.ite_none_right_eq_some.mp hs
    obtain ⟨memory', freed', hack, h'⟩ := h.ack doneJobs hnodup hheld
    simp only [hack] at hs
    cases hs
    exact ⟨hfaulted, freed', h'⟩

theorem law_iff (h : Sane total jobs s) (hs : step jobs s l = some s') :
    Law total jobs s l ↔ Enough total s l := by
  obtain ⟨hfaulted, freed, h⟩ := h
  cases l with
  | get numRequested =>
    have hle := h.length_le
    constructor
    · intro hlaw
      rcases Nat.eq_zero_or_pos numRequested with hzero | hpos
      · exact hzero ▸ Nat.zero_le _
      · obtain ⟨r, hget, -⟩ := hlaw hpos 0
        by_contra henough
        simp only [Enough] at henough
        rw [gtpoolrrSbsGet, if_neg (Nat.ne_of_gt hpos), h.fault numRequested (by omega)] at hget
        cases hget
    · intro hl hpos numObtained
      simp only [Enough] at hl
      obtain ⟨new, memory', freed', hlength, hloop, -⟩ := h.get numRequested (by omega) [] 0 .ok
      refine ⟨_, by rw [gtpoolrrSbsGet, if_neg (Nat.ne_of_gt hpos), hloop], ?_, ?_, ?_⟩
      · simp only [Nat.zero_add]
        omega
      · simp only [List.nil_append, Nat.zero_add, hlength]
      · simp only [Nat.zero_add, if_true]
  | ack doneJobs =>
    obtain ⟨⟨-, hnodup, hheld⟩, -⟩ := Option.ite_none_right_eq_some.mp hs
    obtain ⟨memory', freed', hack, -⟩ := h.ack doneJobs hnodup hheld
    simp only [Law, Enough, hack, Option.isSome_some]

/-- A run keeps the handles apart, zeroed and counted, and answers every request, exactly
when no request asks for more jobs than the pool has left. -/
theorem handles_run (hsize : sizeofVpool + threadCount * jobsPerThread * sizeofGtpoolrrJob < sizeMax)
    {tr : List (State × Label)} (hr : (machine threadCount jobsPerThread jobs).Run tr s) :
    ((∀ x, Machine.Visits tr s x → Sound (threadCount * jobsPerThread) jobs x) ∧
        ∀ p ∈ tr, Law (threadCount * jobsPerThread) jobs p.1 p.2) ↔
      ∀ p ∈ tr, Enough (threadCount * jobsPerThread) p.1 p.2 := by
  have hinit (s : State) (hi : (machine threadCount jobsPerThread jobs).init s) :=
    sane_init hsize hi
  have hstep (s : State) (l : Label) (s' : State) (h : Sane (threadCount * jobsPerThread) jobs s)
      (hl : Enough (threadCount * jobsPerThread) s l) (hs : step jobs s l = some s') :=
    sane_step h hl hs
  have hiff := hr.steps_iff (L := Law (threadCount * jobsPerThread) jobs) hinit hstep
    fun s l s' h hs => law_iff h hs
  constructor
  · exact fun h => hiff.mp h.2
  · exact fun hg => ⟨fun x hx => (hr.visited hinit hstep hg hx).sound, hiff.mpr hg⟩

theorem handles_run_again :
    ∃ tr s, (machine 2 1 4096).Run tr s ∧ s.outstanding = [4152, 4208] ∧
      ((∀ x, Machine.Visits tr s x → Sound 2 4096 x) ∧ ∀ p ∈ tr, Law 2 4096 p.1 p.2) := by
  obtain ⟨tr, s, hr, hs⟩ := Machine.exists_run_of_record (machine 2 1 4096)
    ⟨(vpoolInit ⟨fun _ => ⟨0, 0, 0, 0, 0, .VPOOL_KIND_STATIC, 0⟩, fun _ => 7⟩ 4096 2 56
      .VPOOL_KIND_STATIC).1, [], false⟩
    [.get 2, .ack [4152, 4208], .get 1, .get 1]
    (fun tr s => s.outstanding = [4152, 4208] ∧ ∀ p ∈ tr, Enough 2 p.1 p.2)
    ⟨by decide, by decide, ⟨_, rfl⟩, rfl, rfl⟩ (by decide)
  simp only [decide_eq_true_eq] at hs
  exact ⟨tr, s, hr, hs.1, (handles_run (by decide) hr).mpr hs.2⟩

/-- A new pool of one job is asked for two. -/
theorem not_handles_exhausted :
    ¬ ∀ (threadCount jobsPerThread jobs : Nat) (tr : List (State × Label)) (s : State),
      (machine threadCount jobsPerThread jobs).Run tr s →
        (∀ x, Machine.Visits tr s x → Sound (threadCount * jobsPerThread) jobs x) ∧
          ∀ p ∈ tr, Law (threadCount * jobsPerThread) jobs p.1 p.2 := by
  intro hlaw
  have hi : (machine 1 1 4096).init
      ⟨(vpoolInit ⟨fun _ => ⟨0, 0, 0, 0, 0, .VPOOL_KIND_STATIC, 0⟩, fun _ => 7⟩ 4096 1 56
        .VPOOL_KIND_STATIC).1, [], false⟩ :=
    ⟨by decide, by decide, ⟨_, rfl⟩, rfl, rfl⟩
  have hs : (step 4096 ⟨(vpoolInit ⟨fun _ => ⟨0, 0, 0, 0, 0, .VPOOL_KIND_STATIC, 0⟩, fun _ => 7⟩
      4096 1 56 .VPOOL_KIND_STATIC).1, [], false⟩ (.get 2)).isSome = true := by decide
  obtain ⟨s', hs⟩ := Option.isSome_iff_exists.mp hs
  have hr := Machine.Run.next (M := machine 1 1 4096) (l := .get 2) (.start hi) hs
  obtain ⟨r, hget, -⟩ := (hlaw 1 1 4096 _ _ hr).2 _ List.mem_cons_self (by decide) 0
  have hnone : (gtpoolrrSbsGet 4096 (vpoolInit ⟨fun _ => ⟨0, 0, 0, 0, 0, .VPOOL_KIND_STATIC, 0⟩,
      fun _ => 7⟩ 4096 1 56 .VPOOL_KIND_STATIC).1 0 2).isNone = true := by decide
  rw [hget] at hnone
  cases hnone

end Gtpoolrr.Handles

end Dert
