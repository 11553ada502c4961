import Dert.Base.Ram

namespace Dert

open Library Library.Memory

def sizeofFsemaphore : Nat := sizeofPointer * 3

def sizeofFmutex : Nat := 4

def fmutexAdvise : Nat := 1 * sizeofFmutex

def fsemaphoreAdvise : Nat := 1 * (1 * sizeofFsemaphore + fmutexAdvise)

def fsemaphoreAdvisev (numSems : Nat) : Nat :=
  sizeT (numSems * (1 * sizeofFsemaphore + fmutexAdvise))

def fmutexInit (m : Ram) (dest memory : Nat) : Ram × Ret :=
  if sizeT dest = 0 ∨ sizeT memory = 0 then (m, .EINVAL)
  else (((m.memset memory 0 fmutexAdvise).setField dest 0 memory).memset memory 0 sizeofFmutex, .ok)

def fsemaphoreInitvLoop (val max sems : Nat) : Nat → Nat → Nat → Ram → Ram × Ret
  | 0, _, _, m => (m, .ok)
  | rounds + 1, i, memory, m =>
    let memory := memory + sizeofFsemaphore
    match fmutexInit m (sems + sizeofFsemaphore * i) memory with
    | (m, .ok) =>
      let memory := memory + fmutexAdvise
      let m := m.setField (sems + sizeofFsemaphore * i) 2 max
      let m := m.setField (sems + sizeofFsemaphore * i) 1 val
      fsemaphoreInitvLoop val max sems rounds (i + 1) (memory + fsemaphoreAdvise) m
    | (m, _) => (m, .EINVAL)

def fsemaphoreInitv (m : Ram) (numSems memory val max : Nat) : Ram × Ret :=
  if memory = 0 ∨ max = 0 then (m, .EINVAL)
  else
    fsemaphoreInitvLoop val max memory numSems 0 memory
      (m.memset memory 0 (fsemaphoreAdvisev numSems))

namespace Fsemaphore

def semExtent (memory i : Nat) : Extent := ⟨memory + sizeofFsemaphore * i, sizeofFsemaphore⟩

def mutexExtent (m : Ram) (memory i : Nat) : Extent :=
  ⟨m.field (memory + sizeofFsemaphore * i) 0, sizeofFmutex⟩

structure LaidOut (m : Ram) (memory numSems : Nat) : Prop where
  inside : ∀ i < numSems,
    (mutexExtent m memory i).Within ⟨memory, fsemaphoreAdvisev numSems⟩
  apart : ∀ i < numSems, ∀ j < numSems, i ≠ j →
    (mutexExtent m memory i).Apart (mutexExtent m memory j)
  clear : ∀ i < numSems, ∀ j < numSems,
    (mutexExtent m memory i).Apart (semExtent memory j)
  alone : ∀ i < numSems, ∀ j < numSems, i ≠ j → ∀ m',
    Confined [mutexExtent m memory i, semExtent memory i] m m' →
      Agree (semExtent memory j) m m' ∧ Agree (mutexExtent m memory j) m m'

variable {m : Ram} {val max memory numSems sems rounds i j ptr : Nat} {a : Extent}

def initvRound (m : Ram) (val max sem mutex : Nat) : Ram :=
  ((((m.memset mutex 0 fmutexAdvise).setField sem 0 mutex).memset mutex 0 sizeofFmutex).setField
    sem 2 max).setField sem 1 val

theorem initvLoop_succ
    (h : (fsemaphoreInitvLoop val max sems (rounds + 1) i ptr m).2 = .ok) :
    fsemaphoreInitvLoop val max sems (rounds + 1) i ptr m
      = fsemaphoreInitvLoop val max sems rounds (i + 1) (ptr + 56)
          (initvRound m val max (sems + sizeofFsemaphore * i) (ptr + sizeofFsemaphore)) := by
  by_cases hnull : sizeT (sems + sizeofFsemaphore * i) = 0 ∨ sizeT (ptr + sizeofFsemaphore) = 0
  · simp [fsemaphoreInitvLoop, fmutexInit, hnull] at h
  · rw [fsemaphoreInitvLoop, fmutexInit, if_neg hnull]
    rfl

theorem initvRound_confined (m : Ram) (val max sem mutex : Nat) :
    Confined [⟨sem, sizeofPointer * 3⟩, ⟨mutex, sizeofFmutex⟩] m
      (initvRound m val max sem mutex) := by
  have hmember (m : Ram) (j value : Nat) (hj : j < 3) :
      Confined [⟨sem, sizeofPointer * 3⟩, ⟨mutex, sizeofFmutex⟩] m (m.setField sem j value) :=
    Ram.confined_setField hj ⟨_, List.mem_cons_self, rfl⟩
  have hword (m : Ram) :
      Confined [⟨sem, sizeofPointer * 3⟩, ⟨mutex, sizeofFmutex⟩] m
        (m.memset mutex 0 sizeofFmutex) :=
    confined_write ⟨⟨mutex, sizeofFmutex⟩, by simp, Extent.Within.refl _⟩
  exact ((((hword m).trans (hmember _ 0 mutex (by decide))).trans (hword _)).trans
    (hmember _ 2 max (by decide))).trans (hmember _ 1 val (by decide))

theorem initvRound_agree {sem mutex : Nat} (hsem : a.stop ≤ sem) (hmutex : a.stop ≤ mutex) :
    Agree a m (initvRound m val max sem mutex) := by
  refine (initvRound_confined m val max sem mutex).agree fun b hb => ?_
  simp only [List.mem_cons, List.not_mem_nil, or_false] at hb
  rcases hb with rfl | rfl
  · exact .inr hsem
  · exact .inr hmutex

theorem initvRound_mutex {sem mutex : Nat} (h : sem + sizeofFsemaphore ≤ mutex) :
    (initvRound m val max sem mutex).field sem 0 = sizeT mutex := by
  rw [initvRound]
  have hmember (m : Ram) (j value : Nat) (hj : 0 < j) :
      (m.setField sem j value).field sem 0 = m.field sem 0 := by
    refine Ram.field_congr (Nat.lt_succ_self 0) (agree_write (.inr ?_))
    dsimp only [Extent.stop, sizeofPointer]
    omega
  rw [hmember _ 1 val (by decide), hmember _ 2 max (by decide)]
  refine (Ram.field_congr (Nat.lt_succ_self 0) (agree_write (.inr ?_))).trans Ram.field_setField
  dsimp only [Extent.stop, sizeofPointer, sizeofFsemaphore] at *
  omega

theorem initvLoop_agree (h : (fsemaphoreInitvLoop val max sems rounds i ptr m).2 = .ok)
    (hsem : a.stop ≤ sems + sizeofFsemaphore * i) (hptr : a.stop ≤ ptr) :
    Agree a m (fsemaphoreInitvLoop val max sems rounds i ptr m).1 := by
  induction rounds generalizing i ptr m with
  | zero => exact fun _ _ => rfl
  | succ rounds ih =>
    have hsucc := initvLoop_succ h
    rw [hsucc] at h ⊢
    have hround : Agree a m
        (initvRound m val max (sems + sizeofFsemaphore * i) (ptr + sizeofFsemaphore)) :=
      initvRound_agree hsem (Nat.le_trans hptr (Nat.le_add_right ..))
    have hnext : a.stop ≤ sems + sizeofFsemaphore * (i + 1) :=
      Nat.le_trans hsem (Nat.add_le_add_left (Nat.mul_le_mul_left _ (Nat.le_succ i)) sems)
    have hrest := ih h hnext (Nat.le_trans hptr (Nat.le_add_right ..))
    exact fun x hx => (hrest x hx).trans (hround x hx)

theorem initvLoop_mutex (h : (fsemaphoreInitvLoop val max sems rounds i ptr m).2 = .ok)
    (hptr : sems + sizeofFsemaphore * i ≤ ptr) (hj : j < rounds) :
    (fsemaphoreInitvLoop val max sems rounds i ptr m).1.field (sems + sizeofFsemaphore * (i + j)) 0
      = sizeT (ptr + 56 * j + sizeofFsemaphore) := by
  induction rounds generalizing i ptr m j with
  | zero => exact absurd hj (Nat.not_lt_zero j)
  | succ rounds ih =>
    have hsucc := initvLoop_succ h
    rw [hsucc] at h ⊢
    have hnext : sems + sizeofFsemaphore * (i + 1) ≤ ptr + 56 := by
      dsimp only [sizeofFsemaphore, sizeofPointer] at *
      omega
    cases j with
    | zero =>
      have hstop : sems + sizeofFsemaphore * i + sizeofPointer * 3
          ≤ sems + sizeofFsemaphore * (i + 1) := by
        rw [Nat.mul_succ, ← Nat.add_assoc]
        exact Nat.le_refl _
      have hleft := Ram.field_congr (j := 0) (by decide : 0 < 3)
        (initvLoop_agree (a := ⟨sems + sizeofFsemaphore * i, sizeofPointer * 3⟩) h hstop
          (Nat.le_trans hstop hnext))
      exact hleft.trans (initvRound_mutex (Nat.add_le_add_right hptr _))
    | succ j =>
      rw [show i + (j + 1) = i + 1 + j by omega, ih h hnext (Nat.lt_of_succ_lt_succ hj),
        show ptr + 56 + 56 * j = ptr + 56 * (j + 1) by omega]

theorem initv_mutex (h : (fsemaphoreInitv m numSems memory val max).2 = .ok) (hj : j < numSems) :
    mutexExtent (fsemaphoreInitv m numSems memory val max).1 memory j
      = ⟨sizeT (memory + 56 * j + sizeofFsemaphore), sizeofFmutex⟩ := by
  by_cases hnull : memory = 0 ∨ max = 0
  · simp [fsemaphoreInitv, hnull] at h
  · rw [fsemaphoreInitv, if_neg hnull] at h ⊢
    have hmutex := initvLoop_mutex h (Nat.le_refl _) hj
    rw [Nat.zero_add] at hmutex
    rw [mutexExtent, hmutex]

theorem laidOut_one (h : mutexExtent m memory 0 = ⟨memory + sizeofFsemaphore, sizeofFmutex⟩) :
    LaidOut m memory 1 where
  inside i hi := by
    obtain rfl := Nat.lt_one_iff.mp hi
    rw [h]
    exact ⟨Nat.le_add_right .., Nat.le_refl _⟩
  apart i hi j hj hij := absurd ((Nat.lt_one_iff.mp hi).trans (Nat.lt_one_iff.mp hj).symm) hij
  clear i hi j hj := by
    obtain rfl := Nat.lt_one_iff.mp hi
    obtain rfl := Nat.lt_one_iff.mp hj
    rw [h]
    exact .inr (Nat.le_refl _)
  alone i hi j hj hij := absurd ((Nat.lt_one_iff.mp hi).trans (Nat.lt_one_iff.mp hj).symm) hij

/-- The first mutex is where the second semaphore is. -/
theorem not_laidOut (hnum : 1 < numSems) (hmemory : memory < sizeMax)
    (h : mutexExtent m memory 0 = ⟨sizeT (memory + sizeofFsemaphore), sizeofFmutex⟩) :
    ¬LaidOut m memory numSems := by
  intro hlaid
  have hinside := (hlaid.inside 0 (Nat.zero_lt_of_lt hnum)).1
  have hclear := hlaid.clear 0 (Nat.zero_lt_of_lt hnum) 1 hnum
  rw [h] at hinside hclear
  rcases Nat.lt_or_ge (memory + sizeofFsemaphore) sizeMax with hlt | hge
  · rw [sizeT_of_lt hlt] at hclear
    simp only [Extent.Apart, Extent.stop, semExtent, sizeofFsemaphore, sizeofPointer,
      sizeofFmutex] at hclear
    omega
  · have hwrap : sizeT (memory + sizeofFsemaphore) = memory + sizeofFsemaphore - sizeMax := by
      rw [sizeT, Nat.mod_eq_sub_mod hge]
      exact Nat.mod_eq_of_lt (by dsimp only [sizeofFsemaphore, sizeofPointer, sizeMax] at *; omega)
    have hbefore : memory ≤ memory + sizeofFsemaphore - sizeMax := hwrap ▸ hinside
    dsimp only [sizeofFsemaphore, sizeofPointer, sizeMax] at hbefore hmemory hge
    omega

/-- The layout is safe for one semaphore only. -/
theorem laidOut_iff (hnum : 0 < numSems) (hmemory : memory < sizeMax)
    (hblock : memory + fsemaphoreAdvisev numSems ≤ sizeMax)
    (h : (fsemaphoreInitv m numSems memory val max).2 = .ok) :
    LaidOut (fsemaphoreInitv m numSems memory val max).1 memory numSems ↔ numSems = 1 := by
  have hmutex := initv_mutex h hnum
  constructor
  · intro hlaid
    by_contra hne
    exact not_laidOut (by omega) hmemory hmutex hlaid
  · rintro rfl
    have hlt : memory + sizeofFsemaphore < sizeMax := by
      have hadvise : fsemaphoreAdvisev 1 = 28 := by decide
      rw [hadvise] at hblock
      dsimp only [sizeofFsemaphore, sizeofPointer]
      omega
    rw [Nat.mul_zero, Nat.add_zero, sizeT_of_lt hlt] at hmutex
    exact laidOut_one hmutex

def blank : Ram := { cells := fun _ => 0, written := [] }

theorem laidOut_single : LaidOut (fsemaphoreInitv blank 1 64 0 1).1 64 1 :=
  (laidOut_iff (by decide) (by decide) (by decide) rfl).mpr rfl

theorem not_laidOut_pair :
    (fsemaphoreInitv blank 2 64 0 1).2 = .ok ∧
      ¬LaidOut (fsemaphoreInitv blank 2 64 0 1).1 64 2 :=
  ⟨rfl, not_laidOut (by decide) (by decide) (initv_mutex rfl (by decide))⟩

end Fsemaphore

end Dert
