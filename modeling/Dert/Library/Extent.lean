import Mathlib.Data.Nat.Basic

namespace Dert.Library

/-- `size` addresses from `start` on. -/
structure Extent where
  start : Nat
  size : Nat
  deriving DecidableEq

namespace Extent

def stop (a : Extent) : Nat := a.start + a.size

def Apart (a b : Extent) : Prop := a.stop ≤ b.start ∨ b.stop ≤ a.start

def Within (a b : Extent) : Prop := b.start ≤ a.start ∧ a.stop ≤ b.stop

def Has (a : Extent) (i : Nat) : Prop := a.start ≤ i ∧ i < a.stop

instance (a b : Extent) : Decidable (a.Apart b) := inferInstanceAs (Decidable (_ ∨ _))

instance (a b : Extent) : Decidable (a.Within b) := inferInstanceAs (Decidable (_ ∧ _))

instance (a : Extent) (i : Nat) : Decidable (a.Has i) := inferInstanceAs (Decidable (_ ∧ _))

def head (a : Extent) (size : Nat) : Extent := ⟨a.start, size⟩

def body (a : Extent) (size : Nat) : Extent := ⟨a.start + size, a.size - size⟩

def slot (a : Extent) (width i : Nat) : Extent := ⟨a.start + i * width, width⟩

variable {a b c d : Extent} {i j width size : Nat}

theorem Apart.symm (h : a.Apart b) : b.Apart a := Or.symm h

theorem Apart.mono (h : a.Apart b) (hc : c.Within a) (hd : d.Within b) : c.Apart d := by
  obtain ⟨hc, hc'⟩ := hc
  obtain ⟨hd, hd'⟩ := hd
  simp only [Apart, stop] at *
  omega

theorem Apart.not_has (h : a.Apart b) (hi : a.Has i) : ¬ b.Has i := by
  simp only [Apart, Has, stop] at *
  omega

theorem Within.refl (a : Extent) : a.Within a := ⟨Nat.le_refl _, Nat.le_refl _⟩

theorem Within.trans (h : a.Within b) (h' : b.Within c) : a.Within c :=
  ⟨Nat.le_trans h'.1 h.1, Nat.le_trans h.2 h'.2⟩

theorem Within.has (h : a.Within b) (hi : a.Has i) : b.Has i :=
  ⟨Nat.le_trans h.1 hi.1, Nat.lt_of_lt_of_le hi.2 h.2⟩

theorem head_within (h : size ≤ a.size) : (a.head size).Within a := by
  simp only [head, Within, stop]
  omega

theorem body_within (h : size ≤ a.size) : (a.body size).Within a := by
  simp only [body, Within, stop]
  omega

theorem body_apart_head (a : Extent) (size : Nat) : (a.body size).Apart (a.head size) :=
  Or.inr (Nat.le_refl _)

theorem slot_within (h : (i + 1) * width ≤ a.size) : (a.slot width i).Within a := by
  rw [Nat.add_mul, Nat.one_mul] at h
  simp only [slot, Within, stop]
  omega

theorem pieces_within {start n k : Nat} (h : i + k ≤ n) :
    Within ⟨start + width * i, width * k⟩ ⟨start, width * n⟩ := by
  have hle := Nat.mul_le_mul_left width h
  rw [Nat.mul_add] at hle
  refine ⟨Nat.le_add_right _ _, ?_⟩
  dsimp only [stop]
  omega

theorem piece_within {start n : Nat} (h : i < n) :
    Within ⟨start + width * i, width⟩ ⟨start, width * n⟩ := by
  have hwithin : Within ⟨start + width * i, width * 1⟩ ⟨start, width * n⟩ := pieces_within h
  rwa [Nat.mul_one] at hwithin

theorem slot_stop_le (h : i < j) : (a.slot width i).stop ≤ (a.slot width j).start := by
  have hle := Nat.mul_le_mul_right width h
  rw [Nat.succ_mul] at hle
  simp only [slot, stop]
  omega

theorem slot_apart (h : i ≠ j) : (a.slot width i).Apart (a.slot width j) :=
  (Nat.lt_or_gt_of_ne h).imp slot_stop_le slot_stop_le

end Extent

end Dert.Library
