import Dert.Queue.RawQueueLaws
import Dert.Queue.TbufLaws
import Dert.Queue.VstackLaws

universe u v w

namespace Dert

open Library Library.Memory RawQueue

variable {ρ : Type u} {Call : Type v} {Reply : Type w} {num sizeofHeader size elemSize cap : Nat}

/-- An `initv` fits `num` structures into a block of `advisev` bytes, where calls on one do
not interfere with the others: each is as one that an `init` sets up on its own. -/
def Separates (R : Resident UInt8 Place Call Reply) (num sizeofHeader size advise advisev : Nat)
    (init initv : Ram → Nat → Ram × ρ × Option Nat) (ok : ρ) : Prop :=
  ∀ m memory, 0 < memory → memory + advisev ≤ sizeMax →
    ∃ m₀, initv m memory = (m₀, ok, some memory) ∧ Confined [⟨memory, advisev⟩] m m₀ ∧
      R.SideBySide (fun i : Fin num => initvPlace sizeofHeader size num memory i)
        ⟨memory, advisev⟩ m₀ fun p m' =>
          p.header + advise ≤ sizeMax ∧ p.elems = p.header + sizeofHeader ∧
            ∃ m, init m p.header = (m', ok, some p.header)

theorem separates_of_refines {S : Type*} {R : Resident UInt8 Place Call Reply}
    {Rep : Place → Ram → S → Prop} {model : S → Call → S × Reply} {s₀ : S}
    {advise advisev : Nat} {init initv : Ram → Nat → Ram × ρ × Option Nat} {ok : ρ}
    (h : R.Refines Rep model) (hextents : R.extents = Place.extents sizeofHeader size)
    (hadvisev : advisev = num * (sizeofHeader + size))
    (hinitv : ∀ m memory, 0 < memory → memory + num * (sizeofHeader + size) ≤ sizeMax →
      (initv m memory).2 = (ok, some memory) ∧
        Confined [⟨memory, num * (sizeofHeader + size)⟩] m (initv m memory).1 ∧
        ∀ i < num, Rep (initvPlace sizeofHeader size num memory i) (initv m memory).1 s₀)
    (hinit : ∀ p m m', p.header + advise ≤ sizeMax → p.elems = p.header + sizeofHeader →
      init m p.header = (m', ok, some p.header) → Rep p m' s₀) :
    Separates R num sizeofHeader size advise advisev init initv ok := by
  intro m memory hmemory hblock
  subst hadvisev
  obtain ⟨hresult, hconfined, hrep⟩ := hinitv m memory hmemory hblock
  have hapart (i j : Fin num) (hij : i ≠ j) :
      ∀ a ∈ R.extents (initvPlace sizeofHeader size num memory i),
      ∀ b ∈ R.extents (initvPlace sizeofHeader size num memory j), a.Apart b := by
    intro a ha b hb
    rw [hextents] at ha hb
    exact initvPlace_apart i.isLt j.isLt (fun heq => hij (Fin.ext heq)) ha hb
  have hwithin (i : Fin num) : ∀ a ∈ R.extents (initvPlace sizeofHeader size num memory i),
      a.Within ⟨memory, num * (sizeofHeader + size)⟩ := by
    intro a ha
    rw [hextents] at ha
    exact initvPlace_within i.isLt ha
  refine ⟨(initv m memory).1, Prod.ext rfl hresult, hconfined,
    h.sideBySide hapart hwithin (fun i => hrep i i.isLt) ?_⟩
  rintro p m' ⟨hroom, helems, m, hset⟩
  exact hinit p m m' hroom helems hset

section Kinds

variable (hnum : 0 < num) (hsize : 0 < elemSize) (hcap : 0 < cap)
include hnum hsize hcap

theorem vqueues_separates (hfits : num * (sizeofVqueue + elemSize * cap) < sizeMax) :
    Separates (vqueues elemSize cap) num sizeofVqueue (elemSize * cap)
      (vqueueAdvise elemSize cap) (vqueueAdvisev num elemSize cap)
      (fun m memory => RawQueue.vqueueInit m memory elemSize cap)
      (fun m memory => RawQueue.vqueueInitv m num memory elemSize cap) .ok := by
  have hone := Nat.le_mul_of_pos_left (sizeofVqueue + elemSize * cap) hnum
  have hadvise : vqueueAdvise elemSize cap = _ := advise_eq (Nat.lt_of_le_of_lt hone hfits)
  refine separates_of_refines (vqueues_refines elemSize cap) rfl (advisev_eq hnum hfits)
    (fun m memory hmemory hblock => initv_eq m hmemory hsize hcap hnum hfits hblock)
    fun p m m' hroom helems hset => ?_
  rw [hadvise] at hroom
  exact init_rep hsize hcap hroom hset helems

theorem aqueues_separates (hfits : num * (sizeofAqueue + elemSize * cap) < sizeMax) :
    Separates (aqueues elemSize cap) num sizeofAqueue (elemSize * cap)
      (aqueueAdvise elemSize cap) (aqueueAdvisev num elemSize cap)
      (fun m memory => RawQueue.aqueueInit m memory elemSize cap)
      (fun m memory => RawQueue.aqueueInitv m num memory elemSize cap) .ok := by
  have hone := Nat.le_mul_of_pos_left (sizeofAqueue + elemSize * cap) hnum
  have hadvise : aqueueAdvise elemSize cap = _ := advise_eq (Nat.lt_of_le_of_lt hone hfits)
  refine separates_of_refines (aqueues_refines elemSize cap) rfl (advisev_eq hnum hfits)
    (fun m memory hmemory hblock => initv_eq m hmemory hsize hcap hnum hfits hblock)
    fun p m m' hroom helems hset => ?_
  rw [hadvise] at hroom
  exact init_rep hsize hcap hroom hset helems

theorem vstacks_separates (hfits : num * (sizeofVstack + elemSize * cap) < sizeMax) :
    Separates (Vstack.vstacks elemSize cap) num sizeofVstack (elemSize * cap)
      (vstackAdvise elemSize cap) (vstackAdvisev num elemSize cap)
      (fun m memory => vstackInit m memory elemSize cap)
      (fun m memory => vstackInitv m num memory elemSize cap) 0 := by
  have hone := Nat.le_mul_of_pos_left (sizeofVstack + elemSize * cap) hnum
  have hadvise := Vstack.vstackAdvise_eq (Nat.lt_of_le_of_lt hone hfits)
  refine separates_of_refines (Vstack.vstacks_refines elemSize cap) rfl
    (Vstack.vstackAdvisev_eq hnum hfits)
    (fun m memory hmemory hblock =>
      Vstack.vstackInitv_eq m hmemory hsize hcap hnum hfits hblock)
    fun p m m' hroom helems hset => ?_
  rw [hadvise] at hroom
  exact Vstack.vstackInit_rep hsize hcap hroom hset helems

omit hsize in
theorem tbufs_separates (hfits : num * (sizeofTbuf + (cap + cap)) < sizeMax) :
    Separates (Tbuf.tbufs cap) num sizeofTbuf (cap + cap) (tbufAdvise cap) (tbufAdvisev num cap)
      (fun m memory => tbufInit m memory cap) (fun m memory => tbufInitv m num memory cap)
      .ok := by
  have hone := Nat.le_mul_of_pos_left (sizeofTbuf + (cap + cap)) hnum
  have hadvise := Tbuf.tbufAdvise_eq (Nat.lt_of_le_of_lt hone hfits)
  refine separates_of_refines (Tbuf.tbufs_refines cap) rfl (Tbuf.tbufAdvisev_eq hnum hfits)
    (fun m memory hmemory hblock => Tbuf.tbufInitv_eq m hmemory hcap hfits hblock)
    fun p m m' hroom helems hset => ?_
  rw [hadvise] at hroom
  exact Tbuf.tbufInit_rep hcap hroom hset helems

end Kinds

/-- Queues, stacks and twin buffers set up side by side do not interfere. -/
theorem initv_separates (num elemSize cap : Nat) (hnum : 0 < num) (hsize : 0 < elemSize)
    (hcap : 0 < cap) :
    (num * (sizeofVqueue + elemSize * cap) < sizeMax →
      Separates (vqueues elemSize cap) num sizeofVqueue (elemSize * cap)
        (vqueueAdvise elemSize cap) (vqueueAdvisev num elemSize cap)
        (fun m memory => RawQueue.vqueueInit m memory elemSize cap)
        (fun m memory => RawQueue.vqueueInitv m num memory elemSize cap) .ok) ∧
    (num * (sizeofAqueue + elemSize * cap) < sizeMax →
      Separates (aqueues elemSize cap) num sizeofAqueue (elemSize * cap)
        (aqueueAdvise elemSize cap) (aqueueAdvisev num elemSize cap)
        (fun m memory => RawQueue.aqueueInit m memory elemSize cap)
        (fun m memory => RawQueue.aqueueInitv m num memory elemSize cap) .ok) ∧
    (num * (sizeofVstack + elemSize * cap) < sizeMax →
      Separates (Vstack.vstacks elemSize cap) num sizeofVstack (elemSize * cap)
        (vstackAdvise elemSize cap) (vstackAdvisev num elemSize cap)
        (fun m memory => vstackInit m memory elemSize cap)
        (fun m memory => vstackInitv m num memory elemSize cap) 0) ∧
    (num * (sizeofTbuf + (cap + cap)) < sizeMax →
      Separates (Tbuf.tbufs cap) num sizeofTbuf (cap + cap) (tbufAdvise cap) (tbufAdvisev num cap)
        (fun m memory => tbufInit m memory cap) (fun m memory => tbufInitv m num memory cap)
        .ok) :=
  ⟨vqueues_separates hnum hsize hcap, aqueues_separates hnum hsize hcap,
    vstacks_separates hnum hsize hcap, tbufs_separates hnum hcap⟩

theorem initv_separates_two :
    Separates (vqueues 8 4) 2 sizeofVqueue 32 (vqueueAdvise 8 4) (vqueueAdvisev 2 8 4)
        (fun m memory => RawQueue.vqueueInit m memory 8 4)
        (fun m memory => RawQueue.vqueueInitv m 2 memory 8 4) .ok ∧
      Separates (aqueues 8 4) 2 sizeofAqueue 32 (aqueueAdvise 8 4) (aqueueAdvisev 2 8 4)
        (fun m memory => RawQueue.aqueueInit m memory 8 4)
        (fun m memory => RawQueue.aqueueInitv m 2 memory 8 4) .ok ∧
      Separates (Vstack.vstacks 8 4) 2 sizeofVstack 32 (vstackAdvise 8 4) (vstackAdvisev 2 8 4)
        (fun m memory => vstackInit m memory 8 4) (fun m memory => vstackInitv m 2 memory 8 4) 0 ∧
      Separates (Tbuf.tbufs 4) 2 sizeofTbuf 8 (tbufAdvise 4) (tbufAdvisev 2 4)
        (fun m memory => tbufInit m memory 4) (fun m memory => tbufInitv m 2 memory 4) .ok := by
  obtain ⟨hvqueue, haqueue, hvstack, htbuf⟩ :=
    initv_separates 2 8 4 (by decide) (by decide) (by decide)
  exact ⟨hvqueue (by decide), haqueue (by decide), hvstack (by decide), htbuf (by decide)⟩

example :
    let m := (RawQueue.vqueueInitv ⟨fun _ => 7, []⟩ 2 1000 1 3).1
    let calls : List RawQueue.Vqueue.Call := [.op (.enqueueSome [[1], [2]] false), .op .dequeue,
      .op (.enqueueSome [[3], [4], [5]] false), .op (.dequeueSome 3)]
    (replies (RawQueue.Vqueue.call (initvPlace sizeofVqueue 3 2 1000 1)) m calls).map (·.dest) =
      [[], [1], [], [2, 3, 4]] := by
  decide +kernel

end Dert
