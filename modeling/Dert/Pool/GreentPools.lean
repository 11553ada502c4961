import Dert.Pool.Greent
import Dert.Pool.PoolLayout

namespace Dert

open Library

def gtpoolrrInitGreenThreads (p : Gtpoolrr) (threadCount jobsPerThread : Nat)
    (memory : VpoolMemory) : VpoolMemory :=
  (List.range threadCount).foldl (fun memory i =>
    (vpoolInit memory (p.greenPool jobsPerThread i) jobsPerThread greentAdvise
      .VPOOL_KIND_STATIC).1) memory

namespace Greent

structure State where
  memory : VpoolMemory
  live : Nat → List Nat
  freed : Nat → List Nat

inductive Label
  | alloc (worker : Nat)
  | dealloc (worker elem : Nat)
  | write (i : Nat) (value : UInt8)

section Machine

variable (p : Gtpoolrr) (threadCount jobsPerThread : Nat)

def block (worker : Nat) : Extent :=
  ⟨p.greenPool jobsPerThread worker, vpoolAdvise jobsPerThread greentAdvise⟩

def State.pool (s : State) (worker : Nat) : Vpool.State :=
  ⟨s.memory, [block p jobsPerThread worker], s.live worker, s.freed worker⟩

def State.store (s : State) (worker : Nat) (pool : Vpool.State) : State where
  memory := pool.memory
  live := Function.update s.live worker pool.live
  freed := Function.update s.freed worker pool.freed

def Writable (s : State) (i : Nat) : Prop :=
  (∃ worker < threadCount, ∃ e ∈ s.live worker, Extent.Has ⟨e, greentAdvise⟩ i) ∨
    ∀ worker < threadCount, ¬ (block p jobsPerThread worker).Has i

instance (s : State) (i : Nat) : Decidable (Writable p threadCount jobsPerThread s i) :=
  inferInstanceAs (Decidable (_ ∨ _))

def step (s : State) : Label → Option State
  | .alloc worker =>
    if worker < threadCount then
      some (s.store worker (Vpool.allocate (p.greenPool jobsPerThread worker)
        (s.pool p jobsPerThread worker) none))
    else none
  | .dealloc worker elem =>
    if worker < threadCount ∧ elem ∈ s.live worker then
      some (s.store worker (Vpool.deallocate (p.greenPool jobsPerThread worker)
        (s.pool p jobsPerThread worker) elem))
    else none
  | .write i value =>
    if Writable p threadCount jobsPerThread s i then
      some { s with memory := { s.memory with bytes := Function.update s.memory.bytes i value } }
    else none

def machine (pthread : Pthread) (memory : Nat) : Machine State Label where
  init s :=
    0 < memory ∧ 8 ∣ memory ∧
    memory + gtpoolrrAdvise pthread threadCount jobsPerThread ≤ sizeMax ∧
    gtpoolrrInit pthread threadCount jobsPerThread memory = some p ∧
    (∃ before, s.memory = gtpoolrrInitGreenThreads p threadCount jobsPerThread before) ∧
    s.live = (fun _ => []) ∧ s.freed = fun _ => []
  step := step p threadCount jobsPerThread

end Machine

/-- The address of a green thread can be packed with any flags, and recovered. -/
def Taggable (e : Nat) : Prop :=
  e ≠ 0 ∧ 8 ∣ e ∧ e < sizeMax ∧ ∀ withTimeout something somethingElse,
    ∃ x, greentPack (BitVec.ofNat 64 e) withTimeout something somethingElse = some (.ok, some x) ∧
      greentUnpack x = (.ok, some (BitVec.ofNat 64 e, withTimeout, something, somethingElse))

theorem taggable {e : Nat} (hnull : e ≠ 0) (halign : 8 ∣ e) (hlt : e < sizeMax) : Taggable e := by
  have hnat : (BitVec.ofNat 64 e).toNat = e := Nat.mod_eq_of_lt hlt
  refine ⟨hnull, halign, hlt, unpack_pack ?_ ?_⟩
  · intro h
    exact hnull (hnat.symm.trans (congrArg BitVec.toNat h))
  · refine BitVec.eq_of_toNat_eq ?_
    rw [BitVec.toNat_umod, hnat]
    exact Nat.mod_eq_zero_of_dvd halign

variable {pthread : Pthread} {p : Gtpoolrr} {threadCount jobsPerThread memory worker other : Nat}
  {s s' : State}

structure Own (p : Gtpoolrr) (jobsPerThread : Nat) (s : State) (worker : Nat) : Prop where
  inv : Vpool.Inv jobsPerThread greentAdvise .VPOOL_KIND_STATIC (p.greenPool jobsPerThread worker)
    (s.pool p jobsPerThread worker)
  width : (s.memory.pools (p.greenPool jobsPerThread worker)).elementSize = greentAdvise

structure Placed (p : Gtpoolrr) (threadCount jobsPerThread : Nat) : Prop where
  size : sizeofVpool + jobsPerThread * greentAdvise < sizeMax
  items : 0 < jobsPerThread
  align : ∀ worker < threadCount, 8 ∣ p.greenPool jobsPerThread worker
  within : ∀ worker < threadCount, 0 < p.greenPool jobsPerThread worker ∧
    (block p jobsPerThread worker).stop ≤ sizeMax
  apart : ∀ worker < threadCount, ∀ other < threadCount, worker ≠ other →
    (block p jobsPerThread worker).Apart (block p jobsPerThread other)

theorem placed (hsize : gtpoolrrTotal pthread threadCount jobsPerThread < sizeMax)
    (hthread : 8 ∣ pthread.sizeofThread) (hmemory : 0 < memory) (halign : 8 ∣ memory)
    (hstop : memory + gtpoolrrAdvise pthread threadCount jobsPerThread ≤ sizeMax)
    (hinit : gtpoolrrInit pthread threadCount jobsPerThread memory = some p) :
    Placed p threadCount jobsPerThread := by
  have hcounts : 0 < threadCount ∧ 0 < jobsPerThread := by
    rw [gtpoolrrInit] at hinit
    split_ifs at hinit
    omega
  obtain ⟨hthreads, hjobs⟩ := hcounts
  have h := gtpoolrr_fitting hthreads hsize
  obtain ⟨q, hq, hfills⟩ := gtpoolrr_fills hthreads hjobs hsize memory
  obtain rfl : p = q := Option.some.inj (hinit.symm.trans hq)
  have hbase : p.greenThreads = memory + sizeofGtpoolrr + threadCount * pthread.sizeofThread := by
    rw [gtpoolrrInit, if_neg (by omega)] at hinit
    obtain rfl := Option.some.inj hinit
    simp only [h.thread]
  have hpool (i : Nat) (hi : i < threadCount) : p.greenPool jobsPerThread i =
      p.greenThreads + i * (sizeofVpool + jobsPerThread * greentAdvise) := by
    rw [Gtpoolrr.greenPool, h.greenPools i (Nat.le_of_lt hi)]
  have hblock (i : Nat) (hi : i < threadCount) : block p jobsPerThread i =
      Extent.slot ⟨p.greenThreads, 0⟩ (sizeofVpool + jobsPerThread * greentAdvise) i := by
    rw [block, hpool i hi, h.greenPool]
    rfl
  refine ⟨?_, hjobs, fun i hi => ?_, fun i hi => ?_, fun i hi j hj hne => ?_⟩
  · have hone := Nat.le_mul_of_pos_left (sizeofVpool + jobsPerThread * greentAdvise) hthreads
    simp only [gtpoolrrTotal] at hsize
    omega
  · rw [hpool i hi, hbase]
    have hheader : 8 ∣ sizeofGtpoolrr := by decide
    have hwidth : 8 ∣ sizeofVpool + jobsPerThread * greentAdvise :=
      (Nat.dvd_add_right (by decide)).mpr (Nat.dvd_mul_left_of_dvd (by decide) _)
    exact Nat.dvd_add (Nat.dvd_add (Nat.dvd_add halign hheader)
      (Nat.dvd_mul_left_of_dvd hthread _)) (Nat.dvd_mul_left_of_dvd hwidth _)
  · have hregion : (⟨p.greenPool jobsPerThread i, sizeofVpool + jobsPerThread * greentAdvise⟩ :
        Extent) ∈ p.regions pthread threadCount jobsPerThread := by
      refine List.mem_cons_of_mem _ (List.mem_cons_of_mem _ (List.mem_append_left _ ?_))
      exact List.mem_map.mpr ⟨i, List.mem_range.mpr hi, rfl⟩
    obtain ⟨hstart, hend⟩ := hfills.within _ hregion
    rw [block, h.greenPool]
    exact ⟨Nat.lt_of_lt_of_le hmemory hstart, Nat.le_trans hend hstop⟩
  · rw [hblock i hi, hblock j hj]
    exact Extent.slot_apart hne

namespace Own

variable (h : Own p jobsPerThread s worker)
include h

theorem elsewhere (hpool : s'.memory.pools (p.greenPool jobsPerThread worker) =
      s.memory.pools (p.greenPool jobsPerThread worker))
    (hbytes : ∀ i, (block p jobsPerThread worker).Has i → s'.memory.bytes i = s.memory.bytes i)
    (hlive : s'.live worker = s.live worker) (hfreed : s'.freed worker = s.freed worker) :
    Own p jobsPerThread s' worker := by
  refine ⟨?_, by rw [hpool, h.width]⟩
  have hframe := h.inv.frame hpool fun i _ hin => by
    obtain ⟨b, hb, hi⟩ := hin
    rw [List.mem_singleton.mp hb] at hi
    exact hbytes i hi
  simp only [State.pool, hlive, hfreed]
  exact hframe

theorem elem_within {e : Nat} (he : e ∈ s.live worker) :
    Extent.Within ⟨e, greentAdvise⟩ (block p jobsPerThread worker) := by
  have hslot := h.inv.layout.slot e (List.mem_append_right _ he)
  obtain ⟨b, hb, -, -, hwithin⟩ := hslot.exists_within
  have hwithin := hwithin.trans (h.inv.layout.body_within hb)
  rw [List.mem_singleton.mp hb] at hwithin
  simp only [State.pool, h.width] at hwithin
  exact hwithin

theorem not_grows : ¬ Vpool.Grows s.memory (p.greenPool jobsPerThread worker) := by
  intro hgrows
  have hkind := h.inv.ofKind.symm.trans hgrows.2.2
  cases hkind

theorem granted : (s.pool p jobsPerThread worker).granted (p.greenPool jobsPerThread worker) none =
    [] := by
  have hgrows : ¬ Vpool.Grows (s.pool p jobsPerThread worker).memory
    (p.greenPool jobsPerThread worker) := h.not_grows
  rw [Vpool.State.granted, if_neg hgrows]

end Own

theorem State.store_pool {pool : Vpool.State} (hblocks : pool.blocks = [block p jobsPerThread worker]) :
    (s.store worker pool).pool p jobsPerThread worker = pool := by
  simp only [State.pool, State.store, Function.update_self, ← hblocks]

namespace Placed

variable (h : Placed p threadCount jobsPerThread)
include h

theorem advise : vpoolAdvise jobsPerThread greentAdvise =
    sizeofVpool + jobsPerThread * greentAdvise :=
  Vpool.advise_eq (by decide) h.size

theorem pool_ne (hworker : worker < threadCount) (hother : other < threadCount)
    (hne : other ≠ worker) :
    p.greenPool jobsPerThread other ≠ p.greenPool jobsPerThread worker := by
  intro heq
  have hapart := h.apart _ hother _ hworker hne
  have hpos : 0 < sizeofVpool := by decide
  simp only [block, heq, h.advise, Extent.Apart, Extent.stop] at hapart
  omega

theorem elem_taggable (hworker : worker < threadCount) (hown : Own p jobsPerThread s worker)
    {e : Nat} (he : e ∈ s.live worker) : Taggable e := by
  have hslot := hown.inv.layout.slot e (List.mem_append_right _ he)
  have hnull := hown.inv.layout.slot_ne_zero hslot
  have hlt := hown.inv.layout.slot_lt hslot (Nat.lt_of_lt_of_le (by decide) hown.inv.layout.width)
  obtain ⟨b, hb, i, hi, -⟩ := hslot
  rw [List.mem_singleton.mp hb] at hi
  simp only [State.pool, hown.width] at hi
  have helem : p.greenPool jobsPerThread worker + sizeofVpool + i * greentAdvise = e :=
    congrArg Extent.start hi
  refine taggable hnull ?_ hlt
  rw [← helem]
  exact Nat.dvd_add (Nat.dvd_add (h.align worker hworker) (by decide))
    (Nat.dvd_mul_left_of_dvd (by decide) _)

section Steps

variable (hall : ∀ worker < threadCount, Own p jobsPerThread s worker)
  (hworker : worker < threadCount)
include hall hworker

theorem store {pool : Vpool.State}
    (hinv : Vpool.Inv jobsPerThread greentAdvise .VPOOL_KIND_STATIC
      (p.greenPool jobsPerThread worker) pool)
    (hblocks : pool.blocks = [block p jobsPerThread worker])
    (hwidth : (pool.memory.pools (p.greenPool jobsPerThread worker)).elementSize = greentAdvise)
    (hpools : ∀ b, b ≠ p.greenPool jobsPerThread worker →
      pool.memory.pools b = s.memory.pools b)
    (hbytes : ∀ i, ¬ (block p jobsPerThread worker).Has i →
      pool.memory.bytes i = s.memory.bytes i) :
    ∀ other < threadCount, Own p jobsPerThread (s.store worker pool) other := by
  intro other hother
  by_cases heq : other = worker
  · subst heq
    refine ⟨?_, hwidth⟩
    rw [State.store_pool hblocks]
    exact hinv
  · refine (hall other hother).elsewhere (hpools _ (h.pool_ne hworker hother heq)) ?_
      (Function.update_of_ne heq _ _) (Function.update_of_ne heq _ _)
    exact fun i hi => hbytes i ((h.apart other hother worker hworker heq).not_has hi)

theorem allocate : ∀ other < threadCount, Own p jobsPerThread
    (s.store worker (Vpool.allocate (p.greenPool jobsPerThread worker)
      (s.pool p jobsPerThread worker) none)) other := by
  have hown := hall worker hworker
  have hgranted := hown.granted
  have hstays : ¬ Vpool.Grows s.memory (p.greenPool jobsPerThread worker) ∨
    (none : Option Nat) = none := .inr rfl
  obtain ⟨hinv, -⟩ := hown.inv.allocate_none hown.not_grows
  obtain ⟨stored, nextFree, hpools⟩ := Vpool.alloc_stays 1 hstays
  have hblocks : (Vpool.allocate (p.greenPool jobsPerThread worker)
      (s.pool p jobsPerThread worker) none).blocks = [block p jobsPerThread worker] := by
    simp only [Vpool.allocate, hgranted, List.nil_append, ite_self]
    rfl
  have hwidth : ((Vpool.allocate (p.greenPool jobsPerThread worker)
      (s.pool p jobsPerThread worker) none).memory.pools
        (p.greenPool jobsPerThread worker)).elementSize = greentAdvise := by
    simp only [Vpool.allocate, State.pool, hpools, Function.update_self, hown.width]
  refine h.store hall hworker hinv hblocks hwidth (fun b hb => ?_) fun i hi => ?_
  · simp only [Vpool.allocate, State.pool, hpools, Function.update_of_ne hb]
  · have hnew : Own p jobsPerThread (s.store worker (Vpool.allocate
        (p.greenPool jobsPerThread worker) (s.pool p jobsPerThread worker) none)) worker :=
      ⟨by rw [State.store_pool hblocks]; exact hinv, hwidth⟩
    refine Vpool.alloc_frame 1 hstays fun e he hhas => hi ?_
    have hmem : e ∈ (s.store worker (Vpool.allocate (p.greenPool jobsPerThread worker)
        (s.pool p jobsPerThread worker) none)).live worker := by
      have he : (vpoolAlloc none 2 s.memory (p.greenPool jobsPerThread worker)).2 = some e := he
      simp [State.store, Vpool.allocate, State.pool, he]
    refine (hnew.elem_within hmem).has ?_
    rw [← hown.width]
    exact hhas

theorem deallocate {elem : Nat} (hlive : elem ∈ s.live worker) :
    ∀ other < threadCount, Own p jobsPerThread
      (s.store worker (Vpool.deallocate (p.greenPool jobsPerThread worker)
        (s.pool p jobsPerThread worker) elem)) other := by
  have hown := hall worker hworker
  have hinv := hown.inv.deallocate hlive
  have hpool := hown.inv.pool_ne_zero
  have helem := hown.inv.layout.slot_ne_zero
    (hown.inv.layout.slot elem (List.mem_append_right _ hlive))
  have hdealloc : vpoolDealloc s.memory _ elem = _ := Vpool.dealloc_eq hpool helem
  refine h.store hall hworker hinv rfl ?_ (fun b hb => ?_) fun i hi => ?_
  · simp only [Vpool.deallocate, State.pool, hdealloc, Function.update_self, hown.width]
  · simp only [Vpool.deallocate, State.pool, hdealloc, Function.update_of_ne hb]
  · refine Vpool.dealloc_frame hpool helem fun hin => hi ?_
    have hpointer : sizeofPointer ≤ greentAdvise := by decide
    exact (hown.elem_within hlive).has
      (Extent.Within.has (Extent.head_within (a := ⟨elem, greentAdvise⟩) hpointer) hin)

end Steps

theorem write {i : Nat} {value : UInt8}
    (hall : ∀ worker < threadCount, Own p jobsPerThread s worker)
    (hw : Writable p threadCount jobsPerThread s i) :
    ∀ worker < threadCount, Own p jobsPerThread
      { s with memory := { s.memory with bytes := Function.update s.memory.bytes i value } }
      worker := by
  intro worker hworker
  have hown := hall worker hworker
  refine ⟨hown.inv.frame rfl fun j hfree hin => Function.update_of_ne ?_ _ _, hown.width⟩
  rintro rfl
  obtain ⟨b, hb, hhas⟩ := hin
  rw [List.mem_singleton.mp hb] at hhas
  rcases hw with ⟨other, hother, e, he, hj⟩ | hout
  · by_cases heq : other = worker
    · subst heq
      refine hfree e he ?_
      simp only [Vpool.State.elem, State.pool, hown.width]
      exact hj
    · have hwithin := ((hall other hother).elem_within he).has hj
      exact (h.apart other hother worker hworker heq).not_has hwithin hhas
  · exact hout worker hworker hhas

theorem init {before : VpoolMemory} (n : Nat) (hn : n ≤ threadCount) :
    ∀ worker < n, Own p jobsPerThread
      ⟨gtpoolrrInitGreenThreads p n jobsPerThread before, fun _ => [], fun _ => []⟩ worker := by
  induction n with
  | zero => exact fun _ hlt => absurd hlt (Nat.not_lt_zero _)
  | succ n ih =>
    have hmemory : gtpoolrrInitGreenThreads p (n + 1) jobsPerThread before =
        (vpoolInit (gtpoolrrInitGreenThreads p n jobsPerThread before)
          (p.greenPool jobsPerThread n) jobsPerThread greentAdvise .VPOOL_KIND_STATIC).1 := by
      simp only [gtpoolrrInitGreenThreads, List.range_succ, List.foldl_append, List.foldl_cons,
        List.foldl_nil]
    have hinit := Vpool.init_eq (gtpoolrrInitGreenThreads p n jobsPerThread before)
      (p.greenPool jobsPerThread n) 0 .VPOOL_KIND_STATIC h.items
      (show sizeofPointer ≤ greentAdvise by decide) (.inr rfl)
    obtain ⟨hpos, hstop⟩ := h.within n hn
    intro worker hworker
    rcases Nat.lt_succ_iff_lt_or_eq.mp hworker with hlt | rfl
    · have hne := h.pool_ne hn (Nat.lt_trans hlt hn) (Nat.ne_of_lt hlt)
      have hapart := h.apart worker (Nat.lt_trans hlt hn) n hn (Nat.ne_of_lt hlt)
      refine (ih (Nat.le_of_succ_le hn) worker hlt).elsewhere ?_ (fun i hi => ?_) rfl rfl
      · rw [hmemory, vpoolInit, hinit]
        exact Function.update_of_ne hne _ _
      · rw [hmemory, vpoolInit, hinit]
        exact memset_outside (hapart.not_has hi)
    · have hcreate := Vpool.create_of_init hinit
      rw [hmemory, vpoolInit, hinit]
      refine ⟨Vpool.inv_init h.size ⟨⟨hpos, hstop, by simp⟩, ⟨_, hcreate⟩, rfl, rfl, rfl⟩, ?_⟩
      simp only [Function.update_self]

end Placed

def Sane (p : Gtpoolrr) (threadCount jobsPerThread : Nat) (s : State) : Prop :=
  Placed p threadCount jobsPerThread ∧ ∀ worker < threadCount, Own p jobsPerThread s worker

def AllocLaw (p : Gtpoolrr) (jobsPerThread : Nat) (s : State) : Label → Prop
  | .alloc worker => ∀ e,
    (vpoolAlloc none 2 s.memory (p.greenPool jobsPerThread worker)).2 = some e → Taggable e
  | _ => True

theorem sane_init (hsize : gtpoolrrTotal pthread threadCount jobsPerThread < sizeMax)
    (hthread : 8 ∣ pthread.sizeofThread)
    (hi : (machine p threadCount jobsPerThread pthread memory).init s) :
    Sane p threadCount jobsPerThread s := by
  obtain ⟨memory', live, freed⟩ := s
  obtain ⟨hmemory, halign, hstop, hinit, ⟨before, hs⟩, hlive, hfreed⟩ := hi
  have h := placed hsize hthread hmemory halign hstop hinit
  simp only at hs hlive hfreed
  subst hs hlive hfreed
  exact ⟨h, h.init threadCount (Nat.le_refl _)⟩

theorem sane_step (h : Sane p threadCount jobsPerThread s) {l : Label}
    (hs : step p threadCount jobsPerThread s l = some s') : Sane p threadCount jobsPerThread s' := by
  obtain ⟨hplaced, hall⟩ := h
  refine ⟨hplaced, ?_⟩
  cases l with
  | alloc worker =>
    obtain ⟨hworker, hs⟩ := Option.ite_none_right_eq_some.mp hs
    cases hs
    exact hplaced.allocate hall hworker
  | dealloc worker elem =>
    obtain ⟨⟨hworker, hlive⟩, hs⟩ := Option.ite_none_right_eq_some.mp hs
    cases hs
    exact hplaced.deallocate hall hworker hlive
  | write i value =>
    obtain ⟨hw, hs⟩ := Option.ite_none_right_eq_some.mp hs
    cases hs
    exact hplaced.write hall hw

theorem alloc_next {tr : List (State × Label)}
    (hr : (machine p threadCount jobsPerThread pthread memory).Run tr s)
    (hworker : worker < threadCount) :
    ∃ s', (machine p threadCount jobsPerThread pthread memory).Run ((s, .alloc worker) :: tr) s' :=
  ⟨_, hr.next (if_pos hworker)⟩

theorem alloc_law (h : Sane p threadCount jobsPerThread s) {l : Label}
    (hs : step p threadCount jobsPerThread s l = some s') : AllocLaw p jobsPerThread s l := by
  have hsane := sane_step h hs
  cases l with
  | dealloc worker elem => trivial
  | write i value => trivial
  | alloc worker =>
    obtain ⟨hworker, hs⟩ := Option.ite_none_right_eq_some.mp hs
    cases hs
    intro e he
    refine hsane.1.elem_taggable hworker (hsane.2 worker hworker) ?_
    simp [State.store, Vpool.allocate, State.pool, he]

/-- As long as no size wraps, every green thread handed out to a worker can be packed with
any flags and recovered; and what is unpacked packs to the same word. -/
theorem tags_run (hsize : gtpoolrrTotal pthread threadCount jobsPerThread < sizeMax)
    (hthread : 8 ∣ pthread.sizeofThread) {tr : List (State × Label)}
    (hr : (machine p threadCount jobsPerThread pthread memory).Run tr s) :
    (∀ q ∈ tr, AllocLaw p jobsPerThread q.1 q.2) ∧
      ∀ x green withTimeout something somethingElse,
        greentUnpack x = (.ok, some (green, withTimeout, something, somethingElse)) → green ≠ 0 →
          greentPack green withTimeout something somethingElse = some (.ok, some x) := by
  refine ⟨?_, fun x green a b c hx hgreen => pack_unpack hx hgreen⟩
  exact hr.steps (I := Sane p threadCount jobsPerThread) (G := fun _ _ => True)
    (L := AllocLaw p jobsPerThread) (fun s hi => sane_init hsize hthread hi)
    (fun s l s' h _ hs => sane_step h hs) (fun s l s' h _ hs => alloc_law h hs)
    fun _ _ => trivial

theorem tags_run_two :
    ∃ tr s, (machine ⟨4096, 4208, 4224, 6816, 6984, 7096, 7128, 7240, 7352, 7360⟩ 2 1 ⟨8, 48, 40⟩
        4096).Run tr s ∧
      s.live 1 = [5576] ∧ s.live 0 = [4280] ∧
      (∀ q ∈ tr, AllocLaw ⟨4096, 4208, 4224, 6816, 6984, 7096, 7128, 7240, 7352, 7360⟩ 1 q.1 q.2) ∧
      ∀ x green withTimeout something somethingElse,
        greentUnpack x = (.ok, some (green, withTimeout, something, somethingElse)) → green ≠ 0 →
          greentPack green withTimeout something somethingElse = some (.ok, some x) := by
  obtain ⟨tr, s, hr, hs⟩ := Machine.exists_run_of_exec
    (machine ⟨4096, 4208, 4224, 6816, 6984, 7096, 7128, 7240, 7352, 7360⟩ 2 1 ⟨8, 48, 40⟩ 4096)
    ⟨gtpoolrrInitGreenThreads ⟨4096, 4208, 4224, 6816, 6984, 7096, 7128, 7240, 7352, 7360⟩ 2 1
      ⟨fun _ => ⟨0, 0, 0, 0, 0, .VPOOL_KIND_STATIC, 0⟩, fun _ => 7⟩, fun _ => [], fun _ => []⟩
    [.alloc 1, .dealloc 1 5576, .alloc 1, .alloc 0] (fun s => s.live 1 = [5576] ∧ s.live 0 = [4280])
    ⟨by decide, by decide, by decide, rfl, ⟨_, rfl⟩, rfl, rfl⟩ (by decide)
  simp only [decide_eq_true_eq] at hs
  exact ⟨tr, s, hr, hs.1, hs.2, tags_run (by decide) (by decide) hr⟩

/-- The sizes for `2 ^ 61` jobs wrap to those of the headers: the green threads of two
workers overlap, and what one of them holds becomes the free list of the other. -/
theorem not_tags_wrapped :
    ¬ ∀ (pthread : Pthread) (p : Gtpoolrr) (threadCount jobsPerThread memory : Nat)
      (tr : List (State × Label)) (s : State), 8 ∣ pthread.sizeofThread →
        (machine p threadCount jobsPerThread pthread memory).Run tr s →
          (∀ q ∈ tr, AllocLaw p jobsPerThread q.1 q.2) ∧
            ∀ x green withTimeout something somethingElse,
              greentUnpack x = (.ok, some (green, withTimeout, something, somethingElse)) →
                green ≠ 0 →
                greentPack green withTimeout something somethingElse = some (.ok, some x) := by
  intro hlaw
  obtain ⟨tr, s, hr, hs⟩ := Machine.exists_run_of_exec
    (machine ⟨4096, 4208, 4224, 4336, 4392, 4488, 4520, 4616, 4712, 4720⟩ 2 (2 ^ 61) ⟨8, 48, 40⟩
      4096)
    ⟨gtpoolrrInitGreenThreads ⟨4096, 4208, 4224, 4336, 4392, 4488, 4520, 4616, 4712, 4720⟩ 2
      (2 ^ 61) ⟨fun _ => ⟨0, 0, 0, 0, 0, .VPOOL_KIND_STATIC, 0⟩, fun _ => 7⟩, fun _ => [],
      fun _ => []⟩
    [.alloc 1, .dealloc 1 4336, .alloc 0, .write 4336 1, .write 4337 16, .alloc 1]
    (fun s => (vpoolAlloc none 2 s.memory 4280).2 = some 4097)
    ⟨by decide, by decide, by decide, rfl, ⟨_, rfl⟩, rfl, rfl⟩ (by decide)
  simp only [decide_eq_true_eq] at hs
  obtain ⟨s', hr⟩ := alloc_next hr (show 1 < 2 by decide)
  obtain ⟨-, halign, -⟩ := (hlaw _ _ _ _ _ _ _ (by decide) hr).1 _ List.mem_cons_self 4097 hs
  exact absurd halign (by decide)

end Greent

end Dert
