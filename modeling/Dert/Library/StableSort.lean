import Mathlib.Order.Lattice
import Mathlib.Data.List.Basic

universe u v

namespace Dert.Library.StableSort

variable {α : Type u} {β : Type v} [LinearOrder α] [LinearOrder β]

/-- A smaller key comes first, and of two equal keys that of the smaller element. -/
def Before (key : α → β) (a b : α) : Prop := key a < key b ∨ key a = key b ∧ a < b

variable {key : α → β} {a b : α} {l s : List α}

theorem Before.of_le (hkey : key a ≤ key b) (hab : a < b) : Before key a b :=
  (lt_or_eq_of_le hkey).imp_right fun heq => ⟨heq, hab⟩

theorem Before.asymm (hab : Before key a b) : ¬ Before key b a := by
  rintro (hlt | ⟨heq, hlt⟩)
  · rcases hab with h | ⟨h, -⟩
    · exact lt_asymm h hlt
    · exact ne_of_gt hlt h
  · rcases hab with h | ⟨-, h⟩
    · exact ne_of_gt h heq
    · exact lt_asymm h hlt

theorem pairwise_before_mergeSort (hl : l.Pairwise (· < ·)) :
    (l.mergeSort fun a b => key a ≤ key b).Pairwise (Before key) := by
  induction l with
  | nil => simp
  | cons a l ih =>
    obtain ⟨ha, hl⟩ := List.pairwise_cons.mp hl
    have htrans : ∀ a b c : α, decide (key a ≤ key b) → decide (key b ≤ key c) →
        decide (key a ≤ key c) := by
      simpa using fun a b c => le_trans
    have htotal : ∀ a b : α, decide (key a ≤ key b) || decide (key b ≤ key a) := by
      simpa using fun a b => le_total (key a) (key b)
    obtain ⟨l₁, l₂, hsort, hrest, hbefore⟩ := List.mergeSort_cons htrans htotal a l
    have hsorted := List.pairwise_mergeSort htrans htotal (a :: l)
    have hmem : ∀ c ∈ l₂, a < c := by
      intro c hc
      have hc' : c ∈ l.mergeSort fun a b => key a ≤ key b := by
        rw [hrest]
        exact List.mem_append_right l₁ hc
      exact ha c (List.mem_mergeSort.mp hc')
    have ih := ih hl
    rw [hrest] at ih
    rw [hsort] at hsorted ⊢
    obtain ⟨-, hsorted, -⟩ := List.pairwise_append.mp hsorted
    obtain ⟨h₁, h₂, h₁₂⟩ := List.pairwise_append.mp ih
    refine List.pairwise_append.mpr ⟨h₁, List.pairwise_cons.mpr ⟨fun c hc => ?_, h₂⟩, ?_⟩
    · have hkey := (List.pairwise_cons.mp hsorted).1 c hc
      exact .of_le (by simpa using hkey) (hmem c hc)
    · intro b hb c hc
      rcases List.mem_cons.mp hc with rfl | hc
      · have hkey := hbefore b hb
        exact .inl (by simpa using hkey)
      · exact h₁₂ b hb c hc

theorem eq_mergeSort (hperm : s.Perm l) (hs : s.Pairwise (Before key)) (hl : l.Pairwise (· < ·)) :
    s = l.mergeSort fun a b => key a ≤ key b := by
  refine List.Perm.eq_of_pairwise ?_ hs (pairwise_before_mergeSort hl)
    (hperm.trans (List.mergeSort_perm l _).symm)
  intro a b _ _ hab hba
  exact absurd hba hab.asymm

end Dert.Library.StableSort
