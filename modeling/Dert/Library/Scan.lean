import Dert.Library.Rotation

namespace Dert.Library

variable {n : Nat} [NeZero n] {start left : Nat} {p : Fin n → Bool} {k : Fin n}

def scanFrom (p : Fin n → Bool) : Nat → Nat → Option (Fin n)
  | _, 0 => none
  | start, left + 1 =>
    if p (Fin.ofNat n start) then some (Fin.ofNat n start) else scanFrom p (start + 1) left

/-- Of all indices, going round from `start`, the first that passes a test. -/
def firstFrom (p : Fin n → Bool) (start : Nat) : Option (Fin n) := scanFrom p start n

theorem scanFrom_eq_none :
    scanFrom p start left = none ↔ ∀ i < left, p (Fin.ofNat n (start + i)) = false := by
  induction left generalizing start with
  | zero => simp [scanFrom]
  | succ left ih =>
    rw [scanFrom, Nat.forall_lt_succ_left, Nat.add_zero]
    cases hp : p (Fin.ofNat n start) with
    | true => simp
    | false =>
      simp only [Bool.false_eq_true, if_false, true_and, ih, Nat.add_assoc, Nat.add_comm 1]

theorem exists_turn (start : Nat) (k : Fin n) : ∃ i < n, Fin.ofNat n (start + i) = k := by
  have hn : 0 < n := Nat.pos_of_neZero n
  refine ⟨(k.val + (n - start % n)) % n, Nat.mod_lt _ hn, Fin.ext ?_⟩
  calc (start + (k.val + (n - start % n)) % n) % n
    _ = (start + (k.val + (n - start % n))) % n := Nat.add_mod_mod ..
    _ = k.val % n := turn_modEq start k.val hn
    _ = k.val := Nat.mod_eq_of_lt k.isLt

theorem firstFrom_eq_none : firstFrom p start = none ↔ ∀ k, p k = false := by
  rw [firstFrom, scanFrom_eq_none]
  constructor
  · intro h k
    obtain ⟨i, hi, rfl⟩ := exists_turn start k
    exact h i hi
  · exact fun h i _ => h _

theorem scanFrom_add (more : Nat) : scanFrom p start (left + more) =
    (scanFrom p start left).or (scanFrom p (start + left) more) := by
  induction left generalizing start with
  | zero => simp [scanFrom]
  | succ left ih =>
    rw [Nat.add_right_comm, scanFrom, scanFrom]
    split_ifs
    · rfl
    · rw [ih, Nat.add_right_comm start 1 left, Nat.add_assoc start left 1]

theorem scanFrom_of_le (h : n ≤ left) : scanFrom p start left = firstFrom p start := by
  obtain ⟨more, rfl⟩ := Nat.exists_eq_add_of_le h
  rw [scanFrom_add]
  cases hfirst : firstFrom p start with
  | some k =>
    rw [show scanFrom p start n = some k from hfirst]
    rfl
  | none =>
    rw [show scanFrom p start n = none from hfirst]
    exact scanFrom_eq_none.mpr fun i _ => firstFrom_eq_none.mp hfirst _

theorem firstFrom_of_pass (h : p (Fin.ofNat n start) = true) :
    firstFrom p start = some (Fin.ofNat n start) := by
  obtain ⟨left, hleft⟩ := Nat.exists_eq_succ_of_ne_zero (NeZero.ne n)
  have hfirst : scanFrom p start (left + 1) = some (Fin.ofNat n start) := if_pos h
  rwa [← Nat.succ_eq_add_one, ← hleft] at hfirst

end Dert.Library
