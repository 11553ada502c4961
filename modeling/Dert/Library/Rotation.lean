import Mathlib.Data.Int.CardIntervalMod

namespace Dert.Library

variable {n : Nat}

def Rotates (l : List (Fin n)) : Prop :=
  ∃ start, ∀ k i, l[k]? = some i → i.val = (start + k) % n

theorem rotates_nil : Rotates ([] : List (Fin n)) := ⟨0, by simp⟩

theorem rotates_singleton (i : Fin n) : Rotates [i] := by
  refine ⟨i.val, fun k j h => ?_⟩
  cases k with
  | zero =>
    cases h
    exact (Nat.mod_eq_of_lt i.isLt).symm
  | succ k => simp at h

theorem rotates_append_singleton {l : List (Fin n)} {last i : Fin n}
    (hlast : l.getLast? = some last) :
    Rotates (l ++ [i]) ↔ Rotates l ∧ i.val ≡ last.val + 1 [MOD n] := by
  have hpos : 0 < l.length := by
    cases l with
    | nil => cases hlast
    | cons => simp
  have hlast : l[l.length - 1]? = some last := by rwa [← List.getLast?_eq_getElem?]
  have hnext {start : Nat} (h : last.val = (start + (l.length - 1)) % n) :
      last.val + 1 ≡ start + l.length [MOD n] := by
    have hmod := (Nat.mod_modEq (start + (l.length - 1)) n).add_right 1
    rw [← h] at hmod
    rwa [show start + l.length = start + (l.length - 1) + 1 by omega]
  constructor
  · rintro ⟨start, h⟩
    have hl : ∀ k j, l[k]? = some j → j.val = (start + k) % n := fun k j hj => by
      refine h k j ?_
      rw [List.getElem?_append_left (List.getElem?_eq_some_iff.mp hj).1, hj]
    have hi : i.val = (start + l.length) % n := h l.length i (by simp)
    refine ⟨⟨start, hl⟩, ?_⟩
    rw [hi]
    exact (Nat.mod_modEq _ n).trans (hnext (hl _ _ hlast)).symm
  · rintro ⟨⟨start, hl⟩, hi⟩
    refine ⟨start, fun k j hj => ?_⟩
    rcases Nat.lt_trichotomy k l.length with hk | rfl | hk
    · exact hl k j (by rwa [List.getElem?_append_left hk] at hj)
    · have hij : i = j := by simpa using hj
      subst hij
      have hmod := hi.trans (hnext (hl _ _ hlast))
      rwa [Nat.ModEq, Nat.mod_eq_of_lt i.isLt] at hmod
    · have hout : (l ++ [i]).length ≤ k := by simpa using Nat.succ_le_of_lt hk
      rw [List.getElem?_eq_none hout] at hj
      cases hj

theorem count_of_rotation {l : List (Fin n)} {start : Nat}
    (h : ∀ k i, l[k]? = some i → i.val = (start + k) % n) (i : Fin n) :
    l.count i = Nat.count (fun k => (start + k) % n = i.val) l.length := by
  induction l using List.reverseRecOn with
  | nil => simp
  | append_singleton l j ih =>
    have hl : ∀ k i, l[k]? = some i → i.val = (start + k) % n := fun k i hi =>
      h k i (by rw [List.getElem?_append_left (List.getElem?_eq_some_iff.mp hi).1, hi])
    have hj : j.val = (start + l.length) % n := h l.length j (by simp)
    rw [List.count_append, ih hl, List.length_append, List.length_singleton, Nat.count_succ,
      List.count_singleton, ← hj]
    simp only [beq_iff_eq, Fin.ext_iff]

theorem turn_modEq (start i : Nat) (hn : 0 < n) : start + (i + (n - start % n)) ≡ i [MOD n] := by
  have hmod := Nat.mod_lt start hn
  have hdiv := Nat.div_add_mod start n
  calc start + (i + (n - start % n))
    _ = i + n * (start / n + 1) := by rw [Nat.mul_add]; omega
    _ ≡ i [MOD n] := by simp [Nat.ModEq]

theorem Rotates.balanced {l : List (Fin n)} (h : Rotates l) (i j : Fin n) :
    l.count i ≤ l.count j + 1 := by
  obtain ⟨start, h⟩ := h
  have hn : 0 < n := i.pos
  have hcount (i : Fin n) : ∃ v, l.count i = l.length / n + if v % n < l.length % n then 1 else 0 := by
    refine ⟨i.val + (n - start % n), ?_⟩
    rw [count_of_rotation h, ← Nat.count_modEq_card _ hn]
    congr 1
    funext k
    have hshift := turn_modEq start i.val hn
    have hiff : start + k ≡ i.val [MOD n] ↔ k ≡ i.val + (n - start % n) [MOD n] :=
      ⟨fun hk => Nat.ModEq.add_left_cancel' start (hk.trans hshift.symm),
        fun hk => (hk.add_left start).trans hshift⟩
    rw [← hiff, Nat.ModEq, Nat.mod_eq_of_lt i.isLt]
  obtain ⟨v, hi⟩ := hcount i
  obtain ⟨w, hj⟩ := hcount j
  rw [hi, hj]
  split_ifs <;> omega

/-- A counter modulo `M` begins at `n` different entries in `n` steps exactly when it does not
overflow in between, or the overflow keeps its place. -/
theorem wrapped_injective_iff {M r : Nat} (hr : r < M) :
    (∀ i < n, ∀ j < n, (r + i) % M % n = (r + j) % M % n → i = j) ↔ r + n ≤ M ∨ n ∣ M := by
  constructor
  · intro hinj
    by_contra hwraps
    obtain ⟨hover, hdvd⟩ := not_or.mp hwraps
    have hn : 0 < n := by omega
    have hc : 0 < M % n := Nat.pos_of_ne_zero fun h => hdvd (Nat.dvd_of_mod_eq_zero h)
    have hcn := Nat.mod_lt M hn
    have hM := Nat.div_add_mod M n
    -- the overflow comes in step `M - r`, and goes from place `M % n - 1` to place 0
    by_cases hle : M % n ≤ M - r
    · have hsame := hinj (M - r - M % n) (by omega) (M - r) (by omega) <| by
        have hfirst : r + (M - r - M % n) = n * (M / n) := by omega
        have hlast : r + (M - r) = M := by omega
        rw [hfirst, hlast, Nat.mod_self, Nat.zero_mod, Nat.mod_eq_of_lt (by omega : n * (M / n) < M),
          Nat.mul_mod_right]
      omega
    · have hsame := hinj 0 hn (M % n) hcn <| by
        have hover' : r + M % n = M % n - (M - r) + M := by omega
        have hr' : r = M % n - (M - r) + n * (M / n) := by omega
        rw [hover', Nat.add_mod_right, Nat.mod_eq_of_lt (by omega : M % n - (M - r) < M),
          Nat.add_zero, Nat.mod_eq_of_lt hr]
        conv_lhs => rw [hr', Nat.add_mul_mod_self_left]
      omega
  · intro hfits i hi j hj hij
    have hmod : r + i ≡ r + j [MOD n] := by
      rcases hfits with hfits | hdvd
      · rwa [Nat.mod_eq_of_lt (by omega : r + i < M), Nat.mod_eq_of_lt (by omega : r + j < M)] at hij
      · rwa [Nat.mod_mod_of_dvd _ hdvd, Nat.mod_mod_of_dvd _ hdvd] at hij
    have hsame := hmod.add_left_cancel'
    rwa [Nat.ModEq, Nat.mod_eq_of_lt hi, Nat.mod_eq_of_lt hj] at hsame

end Dert.Library
