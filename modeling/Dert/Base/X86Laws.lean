import Dert.Base.X86

namespace Dert.X86

open Library Library.Memory

section Words

variable {m m' : Ram} {a b i value : Nat}

theorem load_lt (m : Ram) (a : Nat) : load m a < sizeMax := by
  have hdigits : ∀ (n : Nat) (f : Nat → UInt8),
      (List.range n).foldr (fun i rest => (f i).toNat + 256 * rest) 0 < 256 ^ n := by
    intro n
    induction n with
    | zero => exact fun _ => Nat.one_pos
    | succ n ih =>
      intro f
      have hrest := ih fun i => f (i + 1)
      have hdigit := (f 0).toNat_lt
      rw [List.range_succ_eq_map, List.foldr_cons, List.foldr_map, Nat.pow_succ]
      simp only [Nat.succ_eq_add_one]
      omega
  exact hdigits sizeofPointer fun i => m.cells (a + i)

@[simp] theorem sizeT_load (m : Ram) (a : Nat) : sizeT (load m a) = load m a :=
  sizeT_of_lt (load_lt m a)

theorem load_shift (h : ∀ i < sizeofPointer, m'.cells (b + i) = m.cells (a + i)) :
    load m' b = load m a := by
  rw [load, load, loadPointer, loadPointer]
  refine List.foldr_ext _ _ _ fun i hi rest => ?_
  rw [h i (List.mem_range.mp hi)]

theorem load_congr (h : ∀ i, a ≤ i → i < a + 8 → m'.cells i = m.cells i) :
    load m' a = load m a :=
  load_shift fun i hi => h (a + i) (Nat.le_add_right _ _) (Nat.add_lt_add_left hi a)

theorem cells_store (m : Ram) (a value i : Nat) :
    (store m a value).cells i = storePointer m.cells a value i := by
  by_cases h : Extent.Has ⟨a, sizeofPointer⟩ i
  · exact write_inside h
  · rw [storePointer_outside h]
    exact write_outside h

theorem cells_store_outside (h : i < a ∨ a + 8 ≤ i) : (store m a value).cells i = m.cells i := by
  rw [cells_store, storePointer_outside]
  simp only [Extent.Has, Extent.stop, sizeofPointer]
  omega

@[simp] theorem load_store_self (m : Ram) (a value : Nat) :
    load (store m a value) a = sizeT value := by
  have hcells : (store m a value).cells = storePointer m.cells a value :=
    funext (cells_store m a value)
  rw [load, hcells, loadPointer_storePointer_mod]

theorem load_store_apart (h : b + 8 ≤ a ∨ a + 8 ≤ b) : load (store m a value) b = load m b :=
  load_congr fun i hi hlt => cells_store_outside (by omega)

end Words

namespace Cpu

variable (s : Cpu) {r other : Reg} {value : Nat}

theorem reg_set (r other : Reg) (value : Nat) :
    (s.set r value).reg other = if other = r then sizeT value else s.reg other :=
  Function.update_apply ..

@[simp] theorem ram_set (r : Reg) (value : Nat) : (s.set r value).ram = s.ram := rfl

@[simp] theorem rip_set (r : Reg) (value : Nat) : (s.set r value).rip = s.rip := rfl

@[simp] theorem zf_set (r : Reg) (value : Nat) : (s.set r value).zf = s.zf := rfl

@[simp] theorem sizeT_reg (r : Reg) : sizeT (s.reg r) = s.reg r := sizeT_of_lt (s.reg_lt r)

end Cpu

namespace Code

variable {c : Code} {s s' s'' : Cpu} {i : Nat} {is rest : List Instr}

theorem Goes.refl (c : Code) (s : Cpu) : c.Goes s s := ⟨0, rfl⟩

theorem run_add {n k : Nat} (h : c.run n s = some s') : c.run (n + k) s = c.run k s' := by
  induction n generalizing s with
  | zero =>
    cases h
    rw [Nat.zero_add]
  | succ n ih =>
    obtain ⟨t, ht, h⟩ := Option.bind_eq_some_iff.mp h
    rw [Nat.succ_add, run, ht]
    exact ih h

theorem Goes.trans (h : c.Goes s s') (h' : c.Goes s' s'') : c.Goes s s'' := by
  obtain ⟨n, hn⟩ := h
  obtain ⟨k, hk⟩ := h'
  exact ⟨n + k, (run_add hn).trans hk⟩

theorem Goes.one (h : c.step s = some s') : c.Goes s s' :=
  ⟨1, Option.bind_eq_some_iff.mpr ⟨s', h, rfl⟩⟩

theorem step_outside (h : c.Outside s.rip) : c.step s = none := by
  rw [step]
  split
  · rfl
  · have hnone : c.text[s.rip - c.base]? = none := by
      rw [Outside] at h
      exact List.getElem?_eq_none (by omega)
    dsimp only
    rw [hnone]

theorem run_outside {n : Nat} (h : c.Outside s.rip) (hn : c.run n s = some s') : s' = s := by
  cases n with
  | zero =>
    cases hn
    rfl
  | succ n =>
    rw [run, step_outside h] at hn
    cases hn

theorem Returns.unique (h : c.Returns s s') (h' : c.Returns s s'') : s' = s'' := by
  obtain ⟨⟨n, hn⟩, hout⟩ := h
  obtain ⟨⟨k, hk⟩, hout'⟩ := h'
  rcases Nat.le_total n k with hle | hle
  · obtain ⟨j, rfl⟩ := Nat.exists_eq_add_of_le hle
    rw [run_add hn] at hk
    exact (run_outside hout hk).symm
  · obtain ⟨j, rfl⟩ := Nat.exists_eq_add_of_le hle
    rw [run_add hk] at hn
    exact run_outside hout' hn

theorem step_at {instr : Instr} (hrip : s.rip = c.base + i) (hi : c.text[i]? = some instr) :
    c.step s = exec c.memcpy (c.goto i) (s.rip + 1) s instr := by
  rw [step, if_neg (by omega)]
  dsimp only
  rw [hrip, Nat.add_sub_cancel_left, hi]

def block (memcpy : Cpu → Cpu) : List Instr → Cpu → Option Cpu
  | [], s => some s
  | instr :: is, s =>
    (exec memcpy (fun _ => none) (s.rip + 1) s instr).bind (block memcpy is)

theorem exec_next {memcpy : Cpu → Cpu} (goto : Nat → Option Nat) {next : Nat} {instr : Instr}
    (hret : instr ≠ .ret) (h : exec memcpy (fun _ => none) next s instr = some s') :
    exec memcpy goto next s instr = some s' ∧ s'.rip = next := by
  cases instr with
  | ret => exact absurd rfl hret
  | jmp => cases h
  | jne =>
    rw [exec] at h ⊢
    split at h
    next hzf =>
      cases h
      rw [if_pos hzf]
      exact ⟨rfl, rfl⟩
    next => cases h
  | mov src dst =>
    obtain ⟨t, ht, rfl⟩ := Option.map_eq_some_iff.mp h
    exact ⟨h, rfl⟩
  | _ =>
    cases h
    exact ⟨rfl, rfl⟩

theorem goes_block (i : Nat) (is : List Instr) (hdrop : c.text.drop i = is ++ rest)
    (hret : Instr.ret ∉ is) (hrip : s.rip = c.base + i) (h : block c.memcpy is s = some s') :
    c.Goes s s' ∧ s'.rip = c.base + (i + is.length) := by
  induction is generalizing i s with
  | nil =>
    cases h
    exact ⟨Goes.refl c _, hrip⟩
  | cons instr is ih =>
    obtain ⟨t, ht, h⟩ := Option.bind_eq_some_iff.mp h
    rw [List.mem_cons, not_or] at hret
    obtain ⟨hne, hret⟩ := hret
    obtain ⟨hexec, hnext⟩ := exec_next (c.goto i) (Ne.symm hne) ht
    have hi : c.text[i]? = some instr := by
      rw [← Nat.add_zero i, ← List.getElem?_drop, hdrop]
      rfl
    have hdrop' : c.text.drop (i + 1) = is ++ rest := by
      rw [← List.drop_drop, hdrop]
      rfl
    rw [hrip, Nat.add_assoc] at hnext
    obtain ⟨hgoes, hend⟩ := ih (i + 1) hdrop' hret hnext h
    refine ⟨(Goes.one ((step_at hrip hi).trans hexec)).trans hgoes, ?_⟩
    rw [hend, List.length_cons, Nat.add_assoc, Nat.add_comm 1]

end Code

end Dert.X86
