import Mathlib.Data.List.GetD
import Mathlib.Data.Nat.ModEq
import Mathlib.Logic.Function.Basic

universe u

namespace Dert.Library.Cyclic

variable {α : Type u} {slots : Nat → α} {cap start : Nat}

def window (slots : Nat → α) (cap start n : Nat) : List α :=
  (List.range n).map fun i => slots ((start + i) % cap)

def fill (slots : Nat → α) (cap start : Nat) : List α → Nat → α
  | [] => slots
  | x :: xs => fill (Function.update slots (start % cap) x) cap (start + 1) xs

def copyIn (slots : Nat → α) (pos : Nat) (xs : List α) : Nat → α :=
  fun i => if i < pos then slots i else xs.getD (i - pos) (slots i)

def copyOut (slots : Nat → α) (pos n : Nat) : List α :=
  (List.range n).map fun i => slots (pos + i)

theorem mod_add_inj {i j : Nat} (hi : i < cap) (hj : j < cap)
    (h : (start + i) % cap = (start + j) % cap) : i = j := by
  have hmod : i ≡ j [MOD cap] := Nat.ModEq.add_left_cancel' start h
  rwa [Nat.ModEq, Nat.mod_eq_of_lt hi, Nat.mod_eq_of_lt hj] at hmod

theorem mod_add_mod_eq (cap start i : Nat) : (start % cap + i) % cap = (start + i) % cap := by
  simp [Nat.add_mod]

/-- `pos` is a cursor for the absolute position `n`, wrapped at `cap` now and then. -/
structure Cursor (cap n pos : Nat) : Prop where
  slot : pos % cap = n % cap
  le : pos ≤ n

theorem Cursor.advance {n pos : Nat} (h : Cursor cap n pos) (k : Nat) :
    Cursor cap (n + k) (pos + k) :=
  ⟨Nat.ModEq.add_right k h.slot, Nat.add_le_add_right h.le k⟩

theorem Cursor.wrap {n pos : Nat} (h : Cursor cap n pos) : Cursor cap n (pos % cap) :=
  ⟨(Nat.mod_mod _ _).trans h.slot, (Nat.mod_le _ _).trans h.le⟩

theorem Cursor.refl (cap n : Nat) : Cursor cap n n := ⟨rfl, Nat.le_refl n⟩

section Window

@[simp] theorem window_length (n : Nat) : (window slots cap start n).length = n := by
  simp [window]

@[simp] theorem window_zero : window slots cap start 0 = [] := rfl

@[simp] theorem window_getElem {n i : Nat} (h : i < (window slots cap start n).length) :
    (window slots cap start n)[i] = slots ((start + i) % cap) := by
  simp [window]

theorem window_mod (n : Nat) : window slots cap (start % cap) n = window slots cap start n := by
  simp only [window, mod_add_mod_eq]

theorem window_modEq {start' : Nat} (h : start % cap = start' % cap) (n : Nat) :
    window slots cap start n = window slots cap start' n := by
  rw [← window_mod, h, window_mod]

theorem window_add (m n : Nat) :
    window slots cap start (m + n) =
      window slots cap start m ++ window slots cap (start + m) n := by
  simp [window, List.range_add, Nat.add_assoc]

theorem window_succ (n : Nat) :
    window slots cap start (n + 1) =
      slots (start % cap) :: window slots cap (start + 1) n := by
  rw [Nat.add_comm n 1, window_add]
  rfl

theorem window_congr {slots' : Nat → α} {n : Nat}
    (h : ∀ i < n, slots ((start + i) % cap) = slots' ((start + i) % cap)) :
    window slots cap start n = window slots' cap start n := by
  simp only [window]
  exact List.map_congr_left fun i hi => h i (List.mem_range.mp hi)

theorem window_update_outside {n k : Nat} (h : ∀ i < n, (start + i) % cap ≠ k) (x : α) :
    window (Function.update slots k x) cap start n = window slots cap start n :=
  window_congr fun i hi => Function.update_of_ne (h i hi) _ _

theorem window_drop (m n : Nat) :
    (window slots cap start (m + n)).drop m = window slots cap (start + m) n := by
  rw [window_add]
  exact List.drop_left' (window_length m)

end Window

section Fill

theorem fill_append (xs ys : List α) :
    fill slots cap start (xs ++ ys) = fill (fill slots cap start xs) cap (start + xs.length) ys := by
  induction xs generalizing slots start with
  | nil => rfl
  | cons x xs ih =>
    simp only [List.cons_append, fill, ih, List.length_cons]
    rw [show start + 1 + xs.length = start + (xs.length + 1) by omega]

theorem fill_outside {xs : List α} {i : Nat}
    (h : ∀ j < xs.length, i ≠ (start + j) % cap) : fill slots cap start xs i = slots i := by
  induction xs generalizing slots start with
  | nil => rfl
  | cons x xs ih =>
    have htail : ∀ j < xs.length, i ≠ (start + 1 + j) % cap := by
      intro j hj
      rw [show start + 1 + j = start + (j + 1) by omega]
      exact h (j + 1) (by simpa using hj)
    have hhead : i ≠ start % cap := by simpa using h 0 (by simp)
    rw [fill, ih htail, Function.update_of_ne hhead]

theorem fill_inside {xs : List α} (hlen : xs.length ≤ cap) {j : Nat} (hj : j < xs.length) :
    fill slots cap start xs ((start + j) % cap) = xs[j] := by
  induction xs generalizing slots start j with
  | nil => simp at hj
  | cons x xs ih =>
    rw [List.length_cons] at hlen hj
    cases j with
    | zero =>
      have hfirst : ∀ k < xs.length, start % cap ≠ (start + 1 + k) % cap := by
        intro k hk heq
        have heq' : (start + 0) % cap = (start + (k + 1)) % cap := by
          rw [Nat.add_zero, heq, Nat.add_assoc, Nat.add_comm 1 k]
        have := mod_add_inj (by omega) (by omega) heq'
        omega
      simp only [fill, Nat.add_zero, List.getElem_cons_zero]
      rw [fill_outside hfirst, Function.update_self]
    | succ j =>
      rw [fill, show start + (j + 1) = start + 1 + j by omega, ih (by omega) (by omega)]
      rfl

theorem window_fill {n : Nat} {xs : List α} (h : n + xs.length ≤ cap) :
    window (fill slots cap (start + n) xs) cap start (n + xs.length) =
      window slots cap start n ++ xs := by
  rw [window_add]
  congr 1
  · refine window_congr fun i hi => fill_outside fun j hj heq => ?_
    rw [Nat.add_assoc] at heq
    have := mod_add_inj (by omega) (by omega) heq
    omega
  · apply List.ext_getElem (by simp)
    intro j _ hj
    rw [window_getElem, fill_inside (by omega) hj]

theorem window_update {n : Nat} (h : n < cap) (x : α) :
    window (Function.update slots ((start + n) % cap) x) cap start (n + 1) =
      window slots cap start n ++ [x] :=
  window_fill (show n + [x].length ≤ cap from h)

end Fill

theorem fill_modEq {start' : Nat} (h : start % cap = start' % cap) (xs : List α) :
    fill slots cap start xs = fill slots cap start' xs := by
  induction xs generalizing slots start start' with
  | nil => rfl
  | cons x xs ih =>
    have hnext : (start + 1) % cap = (start' + 1) % cap := by
      rw [Nat.add_mod, h, ← Nat.add_mod]
    rw [fill, fill, h, ih hnext]

section Copy

theorem copyOut_eq_window {n : Nat} (h : start % cap + n ≤ cap) :
    copyOut slots (start % cap) n = window slots cap start n := by
  simp only [copyOut, window]
  refine List.map_congr_left fun i hi => ?_
  have hlt := List.mem_range.mp hi
  rw [← mod_add_mod_eq, Nat.mod_eq_of_lt (show start % cap + i < cap by omega)]

theorem copyOut_split {n : Nat} (hcap : 0 < cap) (hn : n ≤ cap) (h : cap < start % cap + n) :
    copyOut slots (start % cap) (cap - start % cap) ++
        copyOut slots 0 (n - (cap - start % cap)) =
      window slots cap start n := by
  have hlt := Nat.mod_lt start hcap
  have hzero : (start + (cap - start % cap)) % cap = 0 := by
    rw [← mod_add_mod_eq, Nat.add_sub_cancel' hlt.le, Nat.mod_self]
  have hsecond : copyOut slots 0 (n - (cap - start % cap)) =
      window slots cap (start + (cap - start % cap)) (n - (cap - start % cap)) := by
    rw [← copyOut_eq_window (by omega), hzero]
  rw [copyOut_eq_window (by omega), hsecond, ← window_add]
  congr 1
  omega

theorem copyIn_eq_fill {xs : List α} (hcap : 0 < cap) (h : start % cap + xs.length ≤ cap) :
    copyIn slots (start % cap) xs = fill slots cap start xs := by
  funext i
  have hpos : ∀ j < xs.length, (start + j) % cap = start % cap + j := by
    intro j hj
    rw [← mod_add_mod_eq, Nat.mod_eq_of_lt (by omega)]
  unfold copyIn
  split
  · next hlt =>
    exact (fill_outside fun j hj => by rw [hpos j hj]; omega).symm
  · next hge =>
    by_cases hin : i - start % cap < xs.length
    · have hi : i = (start + (i - start % cap)) % cap := by
        rw [hpos _ hin]
        omega
      rw [List.getD_eq_getElem _ _ hin]
      conv_rhs => rw [hi]
      rw [fill_inside (by have := Nat.mod_lt start hcap; omega) hin]
    · rw [List.getD_eq_default _ _ (by omega)]
      exact (fill_outside fun j hj => by rw [hpos j hj]; omega).symm

theorem copyIn_split {xs : List α} (hcap : 0 < cap) (hn : xs.length ≤ cap)
    (h : cap < start % cap + xs.length) :
    copyIn (copyIn slots (start % cap) (xs.take (cap - start % cap))) 0
        (xs.drop (cap - start % cap)) =
      fill slots cap start xs := by
  have hlt := Nat.mod_lt start hcap
  have hzero : (start + (cap - start % cap)) % cap = 0 := by
    rw [← mod_add_mod_eq, Nat.add_sub_cancel' hlt.le, Nat.mod_self]
  have htake : (xs.take (cap - start % cap)).length = cap - start % cap := by
    rw [List.length_take]
    omega
  have hsecond (slots : Nat → α) : copyIn slots 0 (xs.drop (cap - start % cap)) =
      fill slots cap (start + (cap - start % cap)) (xs.drop (cap - start % cap)) := by
    rw [← copyIn_eq_fill hcap (by rw [hzero, List.length_drop]; omega), hzero]
  rw [hsecond, copyIn_eq_fill hcap (by omega)]
  conv_rhs => rw [← List.take_append_drop (cap - start % cap) xs, fill_append, htake]

@[simp] theorem length_copyOut (pos n : Nat) : (copyOut slots pos n).length = n := by
  simp [copyOut]

theorem copyOut_zero (pos : Nat) : copyOut slots pos 0 = [] := rfl

theorem copyOut_congr {slots' : Nat → α} {pos n : Nat}
    (h : ∀ i, pos ≤ i → i < pos + n → slots' i = slots i) :
    copyOut slots' pos n = copyOut slots pos n :=
  List.map_congr_left fun i hi =>
    h (pos + i) (Nat.le_add_right _ _) (Nat.add_lt_add_left (List.mem_range.mp hi) pos)

theorem copyOut_add (pos m n : Nat) :
    copyOut slots pos (m + n) = copyOut slots pos m ++ copyOut slots (pos + m) n := by
  simp [copyOut, List.range_add, Nat.add_assoc]

theorem take_copyOut {pos m n : Nat} (h : m ≤ n) :
    (copyOut slots pos n).take m = copyOut slots pos m := by
  obtain ⟨k, rfl⟩ := Nat.exists_eq_add_of_le h
  rw [copyOut_add]
  exact List.take_left' (length_copyOut pos m)

theorem drop_copyOut {pos m n : Nat} (h : m ≤ n) :
    (copyOut slots pos n).drop m = copyOut slots (pos + m) (n - m) := by
  obtain ⟨k, rfl⟩ := Nat.exists_eq_add_of_le h
  rw [copyOut_add, Nat.add_sub_cancel_left]
  exact List.drop_left' (length_copyOut pos m)

theorem copyOut_copyIn (slots : Nat → α) (pos : Nat) (xs : List α) :
    copyOut (copyIn slots pos xs) pos xs.length = xs := by
  refine List.ext_getElem (length_copyOut _ _) fun i _ hi => ?_
  simp only [copyOut, copyIn, List.getElem_map, List.getElem_range]
  rw [if_neg (by omega), Nat.add_sub_cancel_left, List.getD_eq_getElem _ _ hi]

theorem copyOut_before (slots : Nat → α) {pos m n : Nat} (xs : List α) (h : m + n ≤ pos) :
    copyOut (copyIn slots pos xs) m n = copyOut slots m n :=
  copyOut_congr fun i _ hi => if_pos (by omega)

end Copy

end Dert.Library.Cyclic
