import Dert.Library.Extent
import Mathlib.Data.List.Basic

universe u

namespace Dert.Library

structure Memory (β : Type u) where
  cells : Nat → β
  written : List Extent

namespace Memory

variable {β : Type u} {m m' m'' : Memory β} {l l' : List Extent} {a b : Extent}

def write (m : Memory β) (a : Extent) (f : Nat → β) : Memory β where
  cells i := if a.Has i then f i else m.cells i
  written := a :: m.written

def Agree (a : Extent) (m m' : Memory β) : Prop := ∀ i, a.Has i → m'.cells i = m.cells i

/-- From one memory to the other, only extents of the list were written. -/
structure Confined (l : List Extent) (m m' : Memory β) : Prop where
  log : ∃ new, m'.written = new ++ m.written ∧ ∀ w ∈ new, ∃ a ∈ l, w.Within a
  kept : ∀ i, (∀ a ∈ l, ¬ a.Has i) → m'.cells i = m.cells i

theorem write_inside {f : Nat → β} {i : Nat} (h : a.Has i) : (m.write a f).cells i = f i :=
  if_pos h

theorem write_outside {f : Nat → β} {i : Nat} (h : ¬ a.Has i) :
    (m.write a f).cells i = m.cells i := if_neg h

theorem agree_write {f : Nat → β} (h : a.Apart b) : Agree b m (m.write a f) :=
  fun _ hi => write_outside (h.symm.not_has hi)

theorem Agree.mono (h : Agree a m m') (hb : b.Within a) : Agree b m m' :=
  fun i hi => h i (hb.has hi)

theorem Confined.refl (l : List Extent) (m : Memory β) : Confined l m m where
  log := ⟨[], rfl, by simp⟩
  kept _ _ := rfl

theorem Confined.trans (h : Confined l m m') (h' : Confined l m' m'') : Confined l m m'' where
  log := by
    obtain ⟨new, hlog, hnew⟩ := h.log
    obtain ⟨new', hlog', hnew'⟩ := h'.log
    refine ⟨new' ++ new, by rw [hlog', hlog, List.append_assoc], fun w hw => ?_⟩
    exact (List.mem_append.mp hw).elim (hnew' w) (hnew w)
  kept i hi := (h'.kept i hi).trans (h.kept i hi)

theorem confined_write {f : Nat → β} (h : ∃ b ∈ l, a.Within b) : Confined l m (m.write a f) where
  log := ⟨[a], rfl, fun w hw => by rwa [List.mem_singleton.mp hw]⟩
  kept i hi := by
    obtain ⟨b, hb, hwithin⟩ := h
    exact write_outside fun ha => hi b hb (hwithin.has ha)

theorem Confined.mono (h : Confined l m m') (hl : ∀ a ∈ l, ∃ b ∈ l', a.Within b) :
    Confined l' m m' where
  log := by
    obtain ⟨new, hlog, hnew⟩ := h.log
    refine ⟨new, hlog, fun w hw => ?_⟩
    obtain ⟨a, ha, hwa⟩ := hnew w hw
    obtain ⟨b, hb, hab⟩ := hl a ha
    exact ⟨b, hb, hwa.trans hab⟩
  kept i hi := by
    refine h.kept i fun a ha hai => ?_
    obtain ⟨b, hb, hab⟩ := hl a ha
    exact hi b hb (hab.has hai)

theorem Confined.agree (h : Confined l m m') (hb : ∀ a ∈ l, a.Apart b) : Agree b m m' :=
  fun i hi => h.kept i fun a ha => (hb a ha).symm.not_has hi

end Memory

end Dert.Library
