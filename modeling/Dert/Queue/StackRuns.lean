import Dert.Queue.SideBySide

universe v w x

namespace Dert

open Library Library.Resident

section Runs

variable {Call : Type v} {Reply : Type w} {S : Type x} {R : Resident UInt8 Place Call Reply}
  {Rep : Place → Ram → S → Prop} {model : S → Call → S × Reply} {s₀ : S}
  {num sizeofHeader size memory : Nat}

theorem returned_eq {m : Ram} (h : R.Refines Rep model)
    (hextents : R.extents = Place.extents sizeofHeader size)
    (hrep : ∀ i < num, Rep (initvPlace sizeofHeader size num memory i) m s₀)
    {tr : List (Shared UInt8 (Fin num) × Fin num × Call)} {s : Shared UInt8 (Fin num)}
    (hr : (R.machine (fun i : Fin num => initvPlace sizeofHeader size num memory i) m).Run tr s)
    (i : Fin num) :
    R.returned (fun i : Fin num => initvPlace sizeofHeader size num memory i) i tr =
      replies model s₀ (calls i tr) := by
  have hapart (i j : Fin num) (hij : i ≠ j) :
      ∀ a ∈ R.extents (initvPlace sizeofHeader size num memory i),
      ∀ b ∈ R.extents (initvPlace sizeofHeader size num memory j), a.Apart b := by
    intro a ha b hb
    rw [hextents] at ha hb
    exact initvPlace_apart i.isLt j.isLt (fun heq => hij (Fin.ext heq)) ha hb
  exact (h.run hapart (fun i => hrep i i.isLt) hr i).returned

end Runs

section Stacks

variable {num elemSize cap memory : Nat}

/-- The stacks that `vstack_initv` sets up, used in any order until each is deinitialised: each
behaves as a last-in first-out list of at most `cap` elements. -/
theorem Vstack.stacks_run (m : Ram) (hmemory : 0 < memory) (hsize : 0 < elemSize)
    (hcap : 0 < cap) (hblock : memory + num * (sizeofVstack + elemSize * cap) < sizeMax)
    {tr : List (Shared UInt8 (Fin num) × Fin num × Vstack.Call)} {s : Shared UInt8 (Fin num)}
    (hr : ((Vstack.vstacks elemSize cap).machine
      (fun i : Fin num => initvPlace sizeofVstack (elemSize * cap) num memory i)
      (vstackInitv m num memory elemSize cap).1).Run tr s) (i : Fin num) :
    (Vstack.vstacks elemSize cap).returned
        (fun i : Fin num => initvPlace sizeofVstack (elemSize * cap) num memory i) i tr =
      replies (Vstack.Spec.call elemSize) (Vstack.Spec.empty : Vstack.Spec cap) (calls i tr) :=
  returned_eq (Vstack.vstacks_refines elemSize cap) rfl
    (Vstack.vstackInitv_eq m hmemory hsize hcap (Nat.zero_lt_of_lt i.isLt) (by omega)
      (by omega)).2.2 hr i

theorem Vstack.stacks_run_two :
    ∃ (tr : List (Shared UInt8 (Fin 2) × Fin 2 × Vstack.Call)) (s : Shared UInt8 (Fin 2)),
      ((Vstack.vstacks 1 2).machine (fun i : Fin 2 => initvPlace sizeofVstack 2 2 1000 i)
        (vstackInitv ⟨fun _ => 7, []⟩ 2 1000 1 2).1).Run tr s ∧
      (Vstack.vstacks 1 2).returned (fun i : Fin 2 => initvPlace sizeofVstack 2 2 1000 i) 0 tr =
        [⟨0, none, []⟩, ⟨0, none, []⟩, ⟨2, none, []⟩, ⟨0, none, [6]⟩, ⟨0, some 1, []⟩] := by
  obtain ⟨tr, s, hr, htr⟩ := ((Vstack.vstacks 1 2).machine
    (fun i : Fin 2 => initvPlace sizeofVstack 2 2 1000 i)
    (vstackInitv ⟨fun _ => 7, []⟩ 2 1000 1 2).1).exists_run_of_record
    ⟨(vstackInitv ⟨fun _ => 7, []⟩ 2 1000 1 2).1, []⟩
    [(0, .push [5]), (1, .push [8]), (0, .push [6]), (0, .push [9]), (1, .pop), (0, .pop),
      (0, .len)]
    (fun tr _ => replies (Vstack.Spec.call 1) (Vstack.Spec.empty : Vstack.Spec 2) (calls 0 tr) =
      [⟨0, none, []⟩, ⟨0, none, []⟩, ⟨2, none, []⟩, ⟨0, none, [6]⟩, ⟨0, some 1, []⟩])
    rfl (by decide)
  rw [decide_eq_true_eq] at htr
  refine ⟨tr, s, hr, ?_⟩
  rw [← htr]
  exact stacks_run ⟨fun _ => 7, []⟩ (by decide) (by decide) (by decide) (by decide) hr 0

/-- The twin buffers that `tbuf_initv` sets up, used in any order until each is deinitialised:
each behaves as two lists of at most `cap` bytes that a swap exchanges. -/
theorem Tbuf.twins_run (m : Ram) (hmemory : 0 < memory) (hcap : 0 < cap)
    (hblock : memory + num * (sizeofTbuf + (cap + cap)) < sizeMax)
    {tr : List (Shared UInt8 (Fin num) × Fin num × Tbuf.Call)} {s : Shared UInt8 (Fin num)}
    (hr : ((Tbuf.tbufs cap).machine
      (fun i : Fin num => initvPlace sizeofTbuf (cap + cap) num memory i)
      (tbufInitv m num memory cap).1).Run tr s) (i : Fin num) :
    (Tbuf.tbufs cap).returned
        (fun i : Fin num => initvPlace sizeofTbuf (cap + cap) num memory i) i tr =
      replies Tbuf.Spec.call (Tbuf.Spec.empty : Tbuf.Spec cap) (calls i tr) :=
  returned_eq (Tbuf.tbufs_refines cap) rfl
    (Tbuf.tbufInitv_eq m hmemory hcap (by omega) (by omega)).2.2 hr i

theorem Tbuf.twins_run_swapped :
    ∃ (tr : List (Shared UInt8 (Fin 2) × Fin 2 × Tbuf.Call)) (s : Shared UInt8 (Fin 2)),
      ((Tbuf.tbufs 3).machine (fun i : Fin 2 => initvPlace sizeofTbuf 6 2 1000 i)
        (tbufInitv ⟨fun _ => 7, []⟩ 2 1000 3).1).Run tr s ∧
      (Tbuf.tbufs 3).returned (fun i : Fin 2 => initvPlace sizeofTbuf 6 2 1000 i) 1 tr =
        [⟨.ok, some 2, []⟩, ⟨.ok, none, []⟩, ⟨.ok, some 3, []⟩, ⟨.ok, some 2, []⟩,
          ⟨.ok, none, [5, 6]⟩] := by
  obtain ⟨tr, s, hr, htr⟩ := ((Tbuf.tbufs 3).machine
    (fun i : Fin 2 => initvPlace sizeofTbuf 6 2 1000 i)
    (tbufInitv ⟨fun _ => 7, []⟩ 2 1000 3).1).exists_run_of_record
    ⟨(tbufInitv ⟨fun _ => 7, []⟩ 2 1000 3).1, []⟩
    [(1, .fill .A [5, 6]), (0, .fill .B [9]), (1, .swap), (1, .unused .A), (0, .swap),
      (1, .pointer .B), (1, .stored .B)]
    (fun tr _ => replies Tbuf.Spec.call (Tbuf.Spec.empty : Tbuf.Spec 3) (calls 1 tr) =
      [⟨.ok, some 2, []⟩, ⟨.ok, none, []⟩, ⟨.ok, some 3, []⟩, ⟨.ok, some 2, []⟩,
        ⟨.ok, none, [5, 6]⟩])
    rfl (by decide)
  rw [decide_eq_true_eq] at htr
  refine ⟨tr, s, hr, ?_⟩
  rw [← htr]
  exact twins_run ⟨fun _ => 7, []⟩ (by decide) (by decide) (by decide) hr 1

end Stacks

end Dert
