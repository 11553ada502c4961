import Dert.Library.Stride
import Dert.Store.Vht
import Mathlib.Data.Nat.Prime.Basic

namespace Dert.Vht

open Library Library.Probe

variable {keySize valSize : Nat} {hash : Bytes keySize → UInt64}
  {salt : Bytes vhtHashSaltLenExpected} {t t' : Vht keySize valSize} {key k : Bytes keySize}
  {src v : Bytes valSize} {cap : Nat}

section Sequence

def vhtOffset (hash : Bytes keySize → UInt64) (key : Bytes keySize) : Nat → UInt32
  | 0 => (vhtHashStart hash key).1
  | j + 1 => vhtHashNext (vhtOffset hash key j) (vhtHashStart hash key).2

def probeSlot (hash : Bytes keySize → UInt64) (cap : Nat) (key : Bytes keySize) (j : Nat) : Nat :=
  (vhtOffset hash key j).toNat % cap

theorem vhtHashNext_offset (j : Nat) :
    vhtHashNext (vhtOffset hash key j) (vhtHashStart hash key).2 = vhtOffset hash key (j + 1) := rfl

theorem vhtHashSlot_offset (j : Nat) :
    vhtHashSlot t (vhtOffset hash key j) = probeSlot hash t.cap key j := rfl

def reach (cap : Nat) : Nat := min cap (2 ^ 32)

theorem reach_le (cap : Nat) : reach cap ≤ cap := Nat.min_le_left _ _

theorem reach_of_le (h : cap ≤ 2 ^ 32) : reach cap = cap := Nat.min_eq_left h

theorem vhtOffset_toNat (key : Bytes keySize) (j : Nat) :
    (vhtOffset hash key j).toNat =
      ((vhtHashStart hash key).1.toNat + j * (vhtHashStart hash key).2.toNat) % 2 ^ 32 := by
  induction j with
  | zero =>
    rw [Nat.zero_mul, Nat.add_zero, Nat.mod_eq_of_lt (UInt32.toNat_lt _)]
    rfl
  | succ j ih =>
    rw [vhtOffset, vhtHashNext, UInt32.toNat_add, ih, Nat.mod_add_mod, Nat.succ_mul, Nat.add_assoc]

theorem iterate_odd (key : Bytes keySize) : (vhtHashStart hash key).2.toNat % 2 = 1 := by
  simp only [vhtHashStart, UInt32.toNat_or]
  rw [Nat.or_mod_two_eq_one]
  exact Or.inr rfl

theorem probeSlot_eq (hpow : ∃ e, cap = 2 ^ e) (key : Bytes keySize) (j : Nat) :
    probeSlot hash cap key j =
      ((vhtHashStart hash key).1.toNat + j * (vhtHashStart hash key).2.toNat) % reach cap := by
  obtain ⟨e, rfl⟩ := hpow
  rw [probeSlot, vhtOffset_toNat, reach]
  by_cases he : e ≤ 32
  · rw [Nat.min_eq_left (Nat.pow_le_pow_right (by decide) he),
      Nat.mod_mod_of_dvd _ (Nat.pow_dvd_pow 2 he)]
  · have hle : 2 ^ 32 ≤ 2 ^ e := Nat.pow_le_pow_right (by decide) (by omega)
    rw [Nat.min_eq_right hle, Nat.mod_eq_of_lt (Nat.lt_of_lt_of_le (Nat.mod_lt _ (by decide)) hle)]

theorem reach_pos (hpow : ∃ e, cap = 2 ^ e) : 0 < reach cap := by
  obtain ⟨e, rfl⟩ := hpow
  exact Nat.lt_min.mpr ⟨Nat.two_pow_pos e, by decide⟩

theorem probeSlot_lt (hpow : ∃ e, cap = 2 ^ e) (key : Bytes keySize) (j : Nat) :
    probeSlot hash cap key j < reach cap := by
  rw [probeSlot_eq hpow]
  exact Nat.mod_lt _ (reach_pos hpow)

theorem coprime_iterate (hash : Bytes keySize → UInt64) (hpow : ∃ e, cap = 2 ^ e)
    (key : Bytes keySize) :
    Nat.Coprime (reach cap) (vhtHashStart hash key).2.toNat := by
  obtain ⟨e, rfl⟩ := hpow
  have hpow : ∃ e', reach (2 ^ e) = 2 ^ e' := by
    rcases Nat.le_total e 32 with he | he
    · exact ⟨e, Nat.min_eq_left (Nat.pow_le_pow_right (by decide) he)⟩
    · exact ⟨32, Nat.min_eq_right (Nat.pow_le_pow_right (by decide) he)⟩
  obtain ⟨e', he'⟩ := hpow
  rw [he']
  exact Nat.Coprime.pow_left _ (Nat.coprime_two_left.mpr (Nat.odd_iff.mpr (iterate_odd key)))

theorem probeSlot_surjective (hash : Bytes keySize → UInt64) (hpow : ∃ e, cap = 2 ^ e)
    (key : Bytes keySize) (m : Nat) {i : Nat} (hi : i < reach cap) :
    ∃ j < reach cap, probeSlot hash cap key (m + j) = i := by
  obtain ⟨j, hj, heq⟩ := Stride.surjective
    ((vhtHashStart hash key).1.toNat + m * (vhtHashStart hash key).2.toNat)
    (coprime_iterate hash hpow key) hi
  refine ⟨j, hj, ?_⟩
  rw [probeSlot_eq hpow, Nat.add_mul, ← Nat.add_assoc, heq]

theorem stop_eq_reach (hpow : ∃ e, cap = 2 ^ e) {slots : Slots (Bytes keySize) (Bytes valSize)} :
    stop slots (probeSlot hash cap) key cap 0 =
      stop slots (probeSlot hash cap) key (reach cap) 0 := by
  cases hstop : stop slots (probeSlot hash cap) key (reach cap) 0 with
  | some i =>
    obtain ⟨j, hj, hrest⟩ := stop_iff.mp hstop
    exact stop_iff.mpr ⟨j, Nat.lt_of_lt_of_le hj (reach_le cap), hrest⟩
  | none =>
    have hchain := stop_eq_none_iff.mp hstop
    refine stop_eq_none_iff.mpr fun m _ => ?_
    obtain ⟨j, hj, heq⟩ := probeSlot_surjective hash hpow key 0 (probeSlot_lt hpow key m)
    rw [Nat.zero_add] at heq
    exact heq ▸ hchain j hj

end Sequence

section Loops

def vhtStop (hash : Bytes keySize → UInt64) (table : Vht keySize valSize)
    (key : Bytes keySize) : Option Nat :=
  stop table.slots (probeSlot hash table.cap) key table.cap 0

def vhtPut (hash : Bytes keySize → UInt64) (table : Vht keySize valSize) (key : Bytes keySize)
    (src : Bytes valSize) : Vht keySize valSize × Ret :=
  vhtSetLoop table key src (vhtHashStart hash key).2 table.cap (vhtHashStart hash key).1

/-- What a search examines: the slots it comes to, and the one it stops at unless it runs
out of guesses. -/
def vhtSearch (table : Vht keySize valSize) (key : Bytes keySize) (iterate : UInt32) :
    Nat → UInt32 → List Nat × Option Nat
  | 0, _ => ([], none)
  | remainingGuesses + 1, offset =>
    let i := vhtHashSlot table offset
    match table.slots i with
    | none => ([i], some i)
    | some (tableKey, _) =>
      if key = tableKey then ([i], some i)
      else
        let (examined, found) :=
          vhtSearch table key iterate remainingGuesses (vhtHashNext offset iterate)
        (i :: examined, found)

theorem vhtSearch_offset (n j : Nat) :
    (vhtSearch t key (vhtHashStart hash key).2 n (vhtOffset hash key j)).2 =
      stop t.slots (probeSlot hash t.cap) key n j := by
  induction n generalizing j with
  | zero => rfl
  | succ n ih =>
    simp only [vhtSearch, stop, vhtHashSlot_offset, vhtHashNext_offset]
    cases hslot : t.slots (probeSlot hash t.cap key j) with
    | none => rfl
    | some p =>
      by_cases hkey : p.1 = key
      · simp [hkey]
      · simp only [hkey, Ne.symm hkey, ite_false]
        exact ih (j + 1)

section Stops

theorem loop_eq_search {β : Type*} (t : Vht keySize valSize) (key : Bytes keySize) (iterate : UInt32)
    (loop : Nat → UInt32 → β) (out : β) (stopAt : Nat → β) (hzero : ∀ offset, loop 0 offset = out)
    (hvacant : ∀ n offset, t.slots (vhtHashSlot t offset) = none →
      loop (n + 1) offset = stopAt (vhtHashSlot t offset))
    (hheld : ∀ n offset v, t.slots (vhtHashSlot t offset) = some (key, v) →
      loop (n + 1) offset = stopAt (vhtHashSlot t offset))
    (hpass : ∀ n offset k v, t.slots (vhtHashSlot t offset) = some (k, v) → key ≠ k →
      loop (n + 1) offset = loop n (vhtHashNext offset iterate))
    (n : Nat) (offset : UInt32) :
    loop n offset = (vhtSearch t key iterate n offset).2.elim out stopAt := by
  induction n generalizing offset with
  | zero => exact hzero offset
  | succ n ih =>
    rw [vhtSearch]
    cases hslot : t.slots (vhtHashSlot t offset) with
    | none => exact hvacant n offset hslot
    | some p =>
      obtain ⟨k, v⟩ := p
      by_cases hkey : key = k
      · subst hkey
        simp only [ite_true]
        exact hheld n offset v hslot
      · simp only [hkey, ite_false]
        rw [hpass n offset k v hslot hkey, ih]

variable (iterate offset : UInt32) (n : Nat)

theorem vhtGetLoop_search :
    vhtGetLoop t key iterate n offset =
      (vhtSearch t key iterate n offset).2.bind fun i => (t.slots i).map Prod.snd := by
  have hloop := loop_eq_search t key iterate (vhtGetLoop t key iterate) none
    (fun i => (t.slots i).map Prod.snd) (fun _ => rfl)
    (fun n offset hslot => by simp [vhtGetLoop, hslot])
    (fun n offset v hslot => by simp [vhtGetLoop, hslot])
    (fun n offset k v hslot hkey => by simp [vhtGetLoop, hslot, hkey]) n offset
  rw [hloop]
  cases (vhtSearch t key iterate n offset).2 <;> rfl

theorem vhtSetLoop_search :
    vhtSetLoop t key src iterate n offset =
      match (vhtSearch t key iterate n offset).2 with
      | none => (t, .EXFULL)
      | some i =>
        ({ t with
            slots := Function.update t.slots i (some (key, src))
            len := if (t.slots i).isSome then t.len else sizeT (t.len + 1) }, .ok) := by
  have hloop := loop_eq_search t key iterate (vhtSetLoop t key src iterate) (t, .EXFULL)
    (fun i => ({ t with
      slots := Function.update t.slots i (some (key, src))
      len := if (t.slots i).isSome then t.len else sizeT (t.len + 1) }, .ok)) (fun _ => rfl)
    (fun n offset hslot => by simp [vhtSetLoop, hslot])
    (fun n offset v hslot => by simp [vhtSetLoop, hslot])
    (fun n offset k v hslot hkey => by simp [vhtSetLoop, hslot, hkey]) n offset
  rw [hloop]
  cases (vhtSearch t key iterate n offset).2 <;> rfl

theorem vhtDelLoop_search :
    vhtDelLoop t key iterate n offset =
      match (vhtSearch t key iterate n offset).2 with
      | none => (t, .ENODATA)
      | some i =>
        if (t.slots i).isSome then
          ({ t with
              slots := Function.update t.slots i none
              len := sizeT (t.len + (sizeMax - 1)) }, .ok)
        else (t, .ENODATA) := by
  have hloop := loop_eq_search t key iterate (vhtDelLoop t key iterate) (t, .ENODATA)
    (fun i => if (t.slots i).isSome then
      ({ t with
          slots := Function.update t.slots i none
          len := sizeT (t.len + (sizeMax - 1)) }, .ok)
      else (t, .ENODATA)) (fun _ => rfl)
    (fun n offset hslot => by simp [vhtDelLoop, hslot])
    (fun n offset v hslot => by simp [vhtDelLoop, hslot])
    (fun n offset k v hslot hkey => by simp [vhtDelLoop, hslot, hkey]) n offset
  rw [hloop]
  cases (vhtSearch t key iterate n offset).2 <;> rfl

end Stops

theorem vhtSearch_eq_stop :
    (vhtSearch t key (vhtHashStart hash key).2 t.cap (vhtHashStart hash key).1).2 =
      vhtStop hash t key :=
  vhtSearch_offset t.cap 0

theorem vhtGetDirect_eq :
    vhtGetDirect hash t key = find t.slots (probeSlot hash t.cap) t.cap key := by
  refine (vhtGetLoop_search (vhtHashStart hash key).2 (vhtHashStart hash key).1 t.cap).trans ?_
  rw [vhtSearch_eq_stop]
  rfl

theorem vhtPut_eq :
    vhtPut hash t key src =
      match vhtStop hash t key with
      | none => (t, .EXFULL)
      | some i =>
        ({ t with
            slots := Function.update t.slots i (some (key, src))
            len := if (t.slots i).isSome then t.len else sizeT (t.len + 1) }, .ok) := by
  rw [vhtPut, vhtSetLoop_search, vhtSearch_eq_stop]

theorem vhtDel_eq :
    vhtDel hash t key =
      match vhtStop hash t key with
      | none => (t, .ENODATA)
      | some i =>
        if (t.slots i).isSome then
          ({ t with
              slots := Function.update t.slots i none
              len := sizeT (t.len + (sizeMax - 1)) }, .ok)
        else (t, .ENODATA) := by
  refine (vhtDelLoop_search (vhtHashStart hash key).2 (vhtHashStart hash key).1 t.cap).trans ?_
  rw [vhtSearch_eq_stop]

end Loops

end Dert.Vht
