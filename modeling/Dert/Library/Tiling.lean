import Dert.Library.Extent
import Mathlib.Data.List.Basic

namespace Dert.Library.Extent

def Tiles : Nat → List Extent → Nat → Prop
  | start, [], stop => start = stop
  | start, a :: rest, stop => a.start = start ∧ Tiles a.stop rest stop

/-- The extents share no address, lie in the block and end where it ends. -/
structure Fills (block : Extent) (l : List Extent) : Prop where
  apart : l.Pairwise Apart
  within : ∀ a ∈ l, a.Within block
  ends : ∃ a, l.getLast? = some a ∧ a.stop = block.stop

variable {start middle stop n width : Nat} {l r : List Extent} {a b : Extent}

theorem tiles_nil : Tiles start [] stop ↔ start = stop := Iff.rfl

theorem Tiles.append (h : Tiles start l middle) (h' : Tiles middle r stop) :
    Tiles start (l ++ r) stop := by
  induction l generalizing start with
  | nil =>
    obtain rfl : start = middle := h
    exact h'
  | cons a l ih => exact ⟨h.1, ih h.2⟩

theorem Tiles.le (h : Tiles start l stop) : start ≤ stop := by
  induction l generalizing start with
  | nil => exact Nat.le_of_eq h
  | cons a l ih =>
    obtain ⟨rfl, h⟩ := h
    exact Nat.le_trans (Nat.le_add_right _ _) (ih h)

theorem Tiles.within (h : Tiles start l stop) (ha : a ∈ l) : start ≤ a.start ∧ a.stop ≤ stop := by
  induction l generalizing start with
  | nil => cases ha
  | cons b l ih =>
    obtain ⟨rfl, h⟩ := h
    rcases List.mem_cons.mp ha with rfl | ha
    · exact ⟨Nat.le_refl _, h.le⟩
    · obtain ⟨hstart, hstop⟩ := ih h ha
      exact ⟨Nat.le_trans (Nat.le_add_right _ _) hstart, hstop⟩

theorem Tiles.apart (h : Tiles start l stop) : l.Pairwise Apart := by
  induction l generalizing start with
  | nil => exact List.Pairwise.nil
  | cons a l ih => exact List.Pairwise.cons (fun b hb => Or.inl (h.2.within hb).1) (ih h.2)

theorem Tiles.last (h : Tiles start l stop) (hne : l ≠ []) :
    ∃ a, l.getLast? = some a ∧ a.stop = stop := by
  induction l generalizing start with
  | nil => exact absurd rfl hne
  | cons a l ih =>
    cases l with
    | nil => exact ⟨a, rfl, h.2⟩
    | cons b l =>
      obtain ⟨c, hc, hstop⟩ := ih h.2 (List.cons_ne_nil b l)
      exact ⟨c, by rw [List.getLast?_cons_cons, hc], hstop⟩

theorem Tiles.fills (h : Tiles a.start l a.stop) (hne : l ≠ []) : a.Fills l where
  apart := h.apart
  within _ hb := h.within hb
  ends := h.last hne

theorem Fills.only {block : Extent} (h : block.Fills l) (ha : a ∈ l) (hb : b.Within a) :
    b.Within block ∧ ∀ c ∈ l.erase a, b.Apart c := by
  refine ⟨hb.trans (h.within a ha), fun c hc => ?_⟩
  have hpairwise : (a :: l.erase a).Pairwise Apart :=
    h.apart.perm (List.perm_cons_erase ha) Apart.symm
  have hapart := (List.pairwise_cons.mp hpairwise).1 c hc
  exact hapart.mono hb (Within.refl c)

theorem tiles_pieces (start width n : Nat) :
    Tiles start ((List.range n).map fun i => ⟨start + i * width, width⟩) (start + n * width) := by
  induction n with
  | zero => exact (Nat.add_zero start).symm.trans (by rw [Nat.zero_mul])
  | succ n ih =>
    rw [List.range_succ, List.map_append]
    refine ih.append ⟨rfl, ?_⟩
    rw [Nat.succ_mul, ← Nat.add_assoc]
    rfl

end Dert.Library.Extent
