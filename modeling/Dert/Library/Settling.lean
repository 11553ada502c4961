import Dert.Library.Machine

universe u v

namespace Dert.Library.Machine

variable {State : Type u} {Label : Type v} {M : Machine State Label} {I : State → Prop}
  {G : State → Label → Prop} {Q : Label → Prop} {rank : State → Nat} {counts : State → Label → Bool}
  {s s' : State} {later : List (State × Label)}

/-- The steps that meet `G` keep `I`, and the rank pays for those that count. -/
def Spends (M : Machine State Label) (I : State → Prop) (G : State → Label → Prop)
    (rank : State → Nat) (counts : State → Label → Bool) : Prop :=
  ∀ s l s', I s → G s l → M.step s l = some s' → I s' ∧ rank s' + (counts s l).toNat ≤ rank s

theorem Spends.count_le (h : M.Spends I G rank counts) (hi : I s) (hl : (M.after s).Run later s')
    (hg : ∀ p ∈ later, G p.1 p.2) :
    I s' ∧ later.countP (fun p => counts p.1 p.2) + rank s' ≤ rank s := by
  induction hl with
  | start hs =>
    cases hs
    exact ⟨hi, by simp⟩
  | @next _ t l _ _ hs ih =>
    obtain ⟨hi', hle⟩ := ih fun p hp => hg p (List.mem_cons_of_mem _ hp)
    obtain ⟨hi'', hpaid⟩ := h _ _ _ hi' (hg _ List.mem_cons_self) hs
    refine ⟨hi'', ?_⟩
    cases hcounts : counts t l with
    | true =>
      simp only [hcounts, Bool.toNat_true] at hpaid
      rw [List.countP_cons_of_pos (by simp [hcounts])]
      omega
    | false =>
      simp only [hcounts, Bool.toNat_false] at hpaid
      rw [List.countP_cons_of_neg (by simp [hcounts])]
      omega

def Uses (M : Machine State Label) (I : State → Prop) (G : State → Label → Prop)
    (rank : State → Nat) : Prop :=
  ∀ s l s', I s → G s l → M.step s l = some s' → I s' ∧ rank s' < rank s

def Rests (M : Machine State Label) (Q : Label → Prop) (s : State) : Prop :=
  ∀ l, Q l → M.step s l = none

theorem Uses.length_le (h : M.Uses I G rank) (hi : I s) (hl : (M.after s).Run later s')
    (hg : ∀ p ∈ later, G p.1 p.2) : I s' ∧ later.length + rank s' ≤ rank s := by
  have hspends : M.Spends I G rank fun _ _ => true := fun s l s' hi hg hs =>
    ⟨(h s l s' hi hg hs).1, (h s l s' hi hg hs).2⟩
  simpa using hspends.count_le hi hl hg

end Dert.Library.Machine
