import Dert.Base.X86Laws
import Dert.Pool.GreentAsm

namespace Dert.GreentAsm

open X86 Library Library.Memory

def align16 (x : Nat) : Nat := x / 256 * 256 + (x % 256 &&& 240)

theorem align16_eq (x : Nat) : align16 x = x / 16 * 16 := by
  have hlow : ∀ k < 256, k &&& 240 = k / 16 * 16 := by decide +kernel
  have hmod := Nat.mod_lt x (by decide : 256 > 0)
  rw [align16, hlow _ hmod]
  omega

theorem sizeT_reg_sub {s : Cpu} {r : Reg} {k : Nat} (h : k ≤ s.reg r) :
    sizeT (s.reg r + (sizeMax - k)) = s.reg r - k := sizeT_sub h (s.reg_lt r)

/-- Where a green thread, its parent and the stack between two addresses are. -/
structure Placed (g p bottom top : Nat) : Prop where
  thread : g + 1104 ≤ sizeMax
  vert : p + 72 ≤ sizeMax
  apart : g + 1104 ≤ p ∨ p + 72 ≤ g
  thread_stack : g + 1104 ≤ bottom ∨ top ≤ g
  vert_stack : p + 72 ≤ bottom ∨ top ≤ p

variable (memcpy : Cpu → Cpu) {s : Cpu} {g p top bottom : Nat}

theorem pre_eq (shift : Nat) (h : shift + 8 ≤ s.reg .rsp) :
    ∃ t, Code.block memcpy (pre shift) s = some t ∧
      t.reg .rsp = (s.reg .rsp - 8 - shift) / 16 * 16 ∧ t.reg .rbp = s.reg .rsp - 8 ∧
      (∀ r, r ≠ .rsp → r ≠ .rbp → t.reg r = s.reg r) ∧
      t.ram = store s.ram (s.reg .rsp - 8) (s.reg .rbp) := by
  have hlt := s.reg_lt .rsp
  have hpush : sizeT (s.reg .rsp + (sizeMax - sizeofPointer)) = s.reg .rsp - 8 :=
    sizeT_reg_sub (by rw [sizeofPointer]; omega)
  have hsub : sizeT (s.reg .rsp - 8) = s.reg .rsp - 8 := sizeT_of_lt (by omega)
  have hshift : sizeT (s.reg .rsp - 8 + (sizeMax - shift)) = s.reg .rsp - 8 - shift :=
    sizeT_sub (by omega) (by omega)
  have halign : sizeT ((s.reg .rsp - 8 - shift) / 256 * 256 +
      ((s.reg .rsp - 8 - shift) % 256 &&& 240)) = (s.reg .rsp - 8 - shift) / 16 * 16 := by
    rw [← align16, align16_eq]
    exact sizeT_of_lt (by omega)
  refine ⟨_, rfl, ?_, ?_, ?_, ?_⟩
  · simp [Cpu.reg_set, Cpu.result, Cpu.get, hpush, hshift, halign]
  · simp [Cpu.reg_set, Cpu.result, Cpu.get, hpush, hsub]
  · intro r hrsp hrbp
    simp [Cpu.reg_set, Cpu.result, Cpu.get, hrsp, hrbp]
  · simp [Cpu.reg_set, Cpu.result, Cpu.get, hpush]

theorem yieldCopy_eq (hplaced : Placed g p bottom top) (hg : s.reg .rdi = g)
    (hbottom : bottom + 8 ≤ s.reg .rbp) (hbp : s.reg .rbp ≤ top)
    (hp : load s.ram (g + GREENT_PARENT_OFFSET) = p)
    (htop : load s.ram (p + VERT_RSP_OFFSET) = top) (hle : s.reg .rsp ≤ top) :
    ∃ t, Code.block memcpy greentYieldCopy s = some t ∧
      t.reg .rdi = g + GREENT_STACK_FRAMES_OFFSET ∧ t.reg .rsi = s.reg .rsp ∧
      t.reg .rdx = top - s.reg .rsp ∧ (∀ r, r.isSaved → t.reg r = s.reg r) ∧
      t.ram = store (store s.ram (s.reg .rbp - 8) g) (g + GREENT_TOP_OF_FRAME_OFFSET)
        (top - s.reg .rsp) := by
  obtain ⟨hthread, hvert, hapart, hts, hvs⟩ := hplaced
  have htoplt : top < sizeMax := htop ▸ load_lt s.ram _
  have hbuffer : sizeT (s.reg .rbp + greentBuffer) = s.reg .rbp - 8 := sizeT_reg_sub (by omega)
  have hloadp : load (store s.ram (s.reg .rbp - 8) g) (g + 1096) = p := by
    rw [load_store_apart (by omega), hp]
  have hloadt : load (store s.ram (s.reg .rbp - 8) g) (p + 40) = top := by
    rw [load_store_apart (by omega), htop]
  have hsub : sizeT (top + (sizeMax - s.reg .rsp)) = top - s.reg .rsp := sizeT_sub hle htoplt
  refine ⟨_, rfl, ?_, ?_, ?_, ?_, ?_⟩
  · simp (disch := omega) [Cpu.reg_set, Cpu.result, Cpu.get, Cpu.address, hg, sizeT_of_lt]
  · simp [Cpu.reg_set, Cpu.result, Cpu.get, Cpu.address]
  · simp (disch := omega) [Cpu.reg_set, Cpu.result, Cpu.get, Cpu.address, hbuffer, hg, hloadp,
      sizeT_of_lt, hloadt, hsub]
  · intro r hr
    cases r <;> first | (cases hr; done) | rfl
  · simp (disch := omega) [Cpu.reg_set, Cpu.result, Cpu.get, Cpu.address, hbuffer, hg, hloadp,
      sizeT_of_lt, hloadt, hsub]

def offset : Reg → Nat
  | .r12 => VERT_R12_OFFSET
  | .r13 => VERT_R13_OFFSET
  | .r14 => VERT_R14_OFFSET
  | .r15 => VERT_R15_OFFSET
  | .rbx => VERT_RBX_OFFSET
  | .rsp => VERT_RSP_OFFSET
  | .rbp => VERT_RBP_OFFSET
  | _ => VERT_RIP_OFFSET

def storeRegs (m : Ram) (object : Nat) (reg : Reg → Nat) : Ram :=
  [Reg.r12, .r13, .r14, .r15, .rbx, .rsp, .rbp].foldl
    (fun m r => store m (object + offset r) (reg r)) m

def storeContext (m : Ram) (object : Nat) (reg : Reg → Nat) (rip : Nat) : Ram :=
  store (storeRegs m object reg) (object + VERT_RIP_OFFSET) rip

theorem load_storeContext {m : Ram} {object rip : Nat} {reg : Reg → Nat} {r : Reg}
    (hr : r.isSaved) :
    load (storeContext m object reg rip) (object + offset r) = sizeT (reg r) := by
  cases r <;> first
    | (cases hr; done)
    | simp (disch := omega) [storeContext, storeRegs, offset, load_store_apart]

theorem load_storeContext_rip {m : Ram} {object rip : Nat} {reg : Reg → Nat}  :
    load (storeContext m object reg rip) (object + VERT_RIP_OFFSET) = sizeT rip :=
  load_store_self ..

theorem cells_storeContext {m : Ram} {object rip i : Nat} {reg : Reg → Nat}
    (h : i < object ∨ object + 64 ≤ i) :
    (storeContext m object reg rip).cells i = m.cells i := by
  simp (disch := omega) [storeContext, storeRegs, offset, cells_store_outside]

theorem yieldMark_eq (hbp : 8 ≤ s.reg .rbp) (hg : load s.ram (s.reg .rbp - 8) = g)
    (hrip : s.rip + 3 < sizeMax) :
    ∃ t, Code.block memcpy greentYieldMark s = some t ∧ t.reg .rax = g ∧ t.reg .rdi = 0 ∧
      t.reg .rcx = s.rip + 3 ∧ (∀ r, r.isSaved → t.reg r = s.reg r) ∧ t.ram = s.ram := by
  have hbuffer : sizeT (s.reg .rbp + greentBuffer) = s.reg .rbp - 8 := sizeT_reg_sub hbp
  refine ⟨_, rfl, ?_, ?_, ?_, ?_, rfl⟩
  · simp [Cpu.reg_set, Cpu.get, Cpu.address, hbuffer, hg]
    rw [← hg, sizeT_load]
  · simp [Cpu.reg_set, Cpu.get, sizeT]
  · simpa [Cpu.reg_set] using sizeT_of_lt hrip
  · intro r hr
    cases r <;> first | (cases hr; done) | rfl

theorem yieldTest_eq (hrdi : s.reg .rdi = 0) :
    Code.block memcpy greentYieldTest s = some { s with zf := true, rip := s.rip + 2 } := by
  have hzf : sizeT (s.reg .rdi + sizeMax) = 0 := by
    rw [hrdi, Nat.zero_add]
    exact Nat.mod_self sizeMax
  simp [greentYieldTest, Code.block, exec, hzf]

theorem yieldStore_eq (hrax : s.reg .rax = g) (hfits : g + 1104 ≤ sizeMax) :
    ∃ t, Code.block memcpy greentYieldStore s = some t ∧ t.reg .rax = g ∧
      t.ram = storeContext s.ram g s.reg (s.reg .rcx) := by
  refine ⟨_, rfl, hrax, ?_⟩
  simp (disch := omega) [Cpu.get, Cpu.address, hrax, sizeT_of_lt, storeContext, storeRegs, offset]

theorem yieldLoad_eq (hg : g + 1104 ≤ sizeMax) (hv : p + 72 ≤ sizeMax) (hrax : s.reg .rax = g)
    (hp : load s.ram (g + GREENT_PARENT_OFFSET) = p)
    (htop : load s.ram (p + VERT_RSP_OFFSET) = top) (hpush : 8 ≤ top) :
    ∃ t, Code.block memcpy greentYieldLoad s = some t ∧ t.reg .rax = g ∧
      t.reg .rsp = top - 8 ∧
      (∀ r, r.isSaved → r ≠ .rsp → t.reg r = load s.ram (p + offset r)) ∧
      t.ram = store s.ram (top - 8) (load s.ram (p + VERT_RIP_OFFSET)) := by
  have htoplt : top < sizeMax := htop ▸ load_lt s.ram _
  refine ⟨_, rfl, ?_, ?_, ?_, ?_⟩
  · simp (disch := omega) [Cpu.reg_set, Cpu.get, Cpu.address, Cpu.result, hrax, sizeT_of_lt]
  · simp (disch := omega) [Cpu.reg_set, Cpu.get, Cpu.address, Cpu.result, hrax,
      sizeT_of_lt, hp, htop, sizeT_sub, sizeofPointer]
  · intro r hr hne
    cases r <;> first
      | (cases hr; done)
      | exact absurd rfl hne
      | simp (disch := omega) [Cpu.reg_set, Cpu.get, Cpu.address, Cpu.result, hrax,
          sizeT_of_lt, hp, offset]
  · simp (disch := omega) [Cpu.reg_set, Cpu.get, Cpu.address, Cpu.result, hrax,
      sizeT_of_lt, hp, htop, sizeT_sub, sizeofPointer]

theorem post_eq (hrsp : s.reg .rbp + 16 ≤ sizeMax) :
    ∃ t, Code.block memcpy [.label 99, .mov (.reg .rbp) (.reg .rsp), .pop .rbp] s = some t ∧
      t.reg .rax = s.reg .rax ∧ t.reg .rsp = s.reg .rbp + 8 ∧
      t.reg .rbp = load s.ram (s.reg .rbp) ∧
      (∀ r, r.isSaved → r ≠ .rsp → r ≠ .rbp → t.reg r = s.reg r) ∧ t.ram = s.ram := by
  have hlt := s.reg_lt .rbp
  refine ⟨_, rfl, rfl, ?_, ?_, ?_, rfl⟩
  · simp (disch := omega) [Cpu.reg_set, Cpu.get, sizeT_of_lt, sizeofPointer]
  · simp (disch := omega) [Cpu.reg_set, Cpu.get, sizeT_of_lt, sizeofPointer]
  · intro r _ hrsp hrbp
    simp [Cpu.reg_set, hrsp, hrbp]

theorem rootFirst_eq (hrsp : s.reg .rsp + 8 < sizeMax) (hrip : s.rip + 4 < sizeMax) :
    ∃ t, Code.block memcpy greentRootFirst s = some t ∧ t.reg .rax = 0 ∧
      t.reg .rcx = s.rip + 4 ∧ t.reg .rdx = load s.ram (s.reg .rsp) ∧
      t.reg .rsp = s.reg .rsp + 8 ∧ t.reg .rdi = s.reg .rdi ∧
      (∀ r, r.isSaved → r ≠ .rsp → t.reg r = s.reg r) ∧ t.ram = s.ram := by
  refine ⟨_, rfl, ?_, ?_, ?_, ?_, rfl, ?_, rfl⟩
  · simp [Cpu.reg_set, Cpu.result, sizeT]
  · simpa [Cpu.reg_set, Cpu.result] using sizeT_of_lt hrip
  · simp [Cpu.reg_set, Cpu.result, Cpu.get, Cpu.address]
  · simp (disch := omega) [Cpu.reg_set, Cpu.result, Cpu.get, Cpu.address, sizeT_of_lt]
  · intro r hr hne
    cases r <;> first | (cases hr; done) | exact absurd rfl hne | rfl

theorem rootTest_eq (hrax : s.reg .rax = 0) :
    Code.block memcpy greentRootTest s = some { s with zf := true, rip := s.rip + 2 } := by
  simp [greentRootTest, Code.block, exec, hrax]

theorem rootStore_eq (hrdi : s.reg .rdi = p) (hfits : p + 72 ≤ sizeMax) (hrsp : 8 ≤ s.reg .rsp) :
    ∃ t, Code.block memcpy greentRootStore s = some t ∧ t.reg .rax = 0 ∧
      t.reg .rsp = s.reg .rsp - 8 ∧ (∀ r, r.isSaved → r ≠ .rsp → t.reg r = s.reg r) ∧
      t.ram = store (storeContext s.ram p s.reg (s.reg .rcx)) (p + VERT_FIRST_CALLED_FROM)
        (s.reg .rdx) := by
  have hlt := s.reg_lt .rsp
  refine ⟨_, rfl, ?_, ?_, ?_, ?_⟩
  · simp [Cpu.reg_set, Cpu.result, sizeT]
  · simp (disch := omega) [Cpu.reg_set, Cpu.get, Cpu.address, Cpu.result, sizeT_sub, sizeT_of_lt]
  · intro r hr hne
    cases r <;> first | (cases hr; done) | exact absurd rfl hne | rfl
  · simp (disch := omega) [Cpu.reg_set, Cpu.get, Cpu.address, hrdi, sizeT_of_lt, storeContext,
      storeRegs, offset, Cpu.result]

theorem rootAgain_eq (hrax : s.reg .rax = g) (hg : g + 1104 ≤ sizeMax) (hv : p + 72 ≤ sizeMax)
    (hp : load s.ram (g + GREENT_PARENT_OFFSET) = p) (hrsp : 8 ≤ s.reg .rsp) :
    ∃ t, Code.block memcpy greentRootAgain s = some t ∧ t.reg .rax = g ∧
      t.reg .rsp = s.reg .rsp - 8 ∧ (∀ r, r.isSaved → r ≠ .rsp → t.reg r = s.reg r) ∧
      t.ram = store s.ram (s.reg .rsp - 8) (load s.ram (p + VERT_FIRST_CALLED_FROM)) := by
  have hlt := s.reg_lt .rsp
  refine ⟨_, rfl, hrax, ?_, ?_, ?_⟩
  · simp (disch := omega) [Cpu.reg_set, sizeT_sub, sizeofPointer]
  · intro r hr hne
    cases r <;> first | (cases hr; done) | exact absurd rfl hne | rfl
  · simp (disch := omega) [Cpu.reg_set, Cpu.get, Cpu.address, hrax, sizeT_of_lt, hp, sizeT_sub,
      sizeofPointer]

theorem resumeCopy_eq {n b : Nat} (hg : g + 1104 ≤ sizeMax) (hrdi : s.reg .rdi = g)
    (hn : load s.ram (g + GREENT_TOP_OF_FRAME_OFFSET) = n) (hb : s.reg .rsp + 8 = b + n)
    (hfits : b + n < sizeMax) (hlow : 24 ≤ b) :
    ∃ t, Code.block memcpy greentResumeCopy s = some t ∧ t.reg .rsp = b - 24 ∧ t.reg .rbp = b ∧
      t.reg .rdi = b ∧ t.reg .rsi = g + GREENT_STACK_FRAMES_OFFSET ∧ t.reg .rdx = n ∧
      t.ram = store (store s.ram (b - 8) g) (b - 16) (s.reg .rsi) := by
  have hsub : sizeT (b + n + (sizeMax - n)) = b := by
    rw [sizeT_sub (by omega) hfits, Nat.add_sub_cancel]
  have hgt : sizeT g = g := sizeT_of_lt (by omega)
  have hbt : sizeT b = b := sizeT_of_lt (by omega)
  have hsum : sizeT (b + n) = b + n := sizeT_of_lt hfits
  have hnt : sizeT n = n := by rw [← hn, sizeT_load]
  have hframes : sizeT (g + 64) = g + 64 := sizeT_of_lt (by omega)
  have htop : sizeT (g + 1088) = g + 1088 := sizeT_of_lt (by omega)
  have h24 : sizeT (b + (sizeMax - 24)) = b - 24 := sizeT_sub hlow (by omega)
  have h8 : sizeT (b + greentBuffer) = b - 8 := sizeT_sub (by omega) (by omega)
  have h16 : sizeT (b + returnValue) = b - 16 := sizeT_sub (by omega) (by omega)
  refine ⟨_, rfl, ?_, ?_, ?_, ?_, ?_, ?_⟩
  all_goals simp [Cpu.reg_set, Cpu.get, Cpu.address, Cpu.result, hrdi, hgt, hbt, hsum, hnt,
    hframes, htop, h24, h8, h16, hn, hb, hsub]

theorem resumeLoad_eq {b v : Nat} (hg : g + 1104 ≤ sizeMax) (hb : 24 ≤ b) (hrbp : s.reg .rbp = b)
    (hbuffer : load s.ram (b - 8) = g) (hvalue : load s.ram (b - 16) = v)
    (hrsp : load s.ram (g + GREENT_RSP_OFFSET) = b) :
    ∃ t, Code.block memcpy greentResumeLoad s = some t ∧ t.reg .rax = v ∧ t.reg .rdi = b ∧
      t.reg .rsp = b - 8 ∧
      (∀ r, r.isSaved → r ≠ .rsp → t.reg r = load s.ram (g + offset r)) ∧
      t.ram = store s.ram (b - 8) (load s.ram (g + GREENT_RIP_OFFSET)) := by
  have hlt : b < sizeMax := hrsp ▸ load_lt s.ram _
  have hbt : sizeT b = b := sizeT_of_lt hlt
  have h8 : sizeT (b + greentBuffer) = b - 8 := sizeT_sub (by omega) hlt
  have h16 : sizeT (b + returnValue) = b - 16 := sizeT_sub (by omega) hlt
  refine ⟨_, rfl, ?_, ?_, ?_, ?_, ?_⟩
  · simp (disch := omega) [Cpu.reg_set, Cpu.get, Cpu.address, hrbp, hbt, h8,
      h16, hbuffer, hvalue, hrsp, sizeT_of_lt, sizeofPointer, load_store_apart]
    rw [← hvalue, sizeT_load]
  · simp (disch := omega) [Cpu.reg_set, Cpu.get, Cpu.address, hrbp, hbt]
  · simp (disch := omega) [Cpu.reg_set, Cpu.get, Cpu.address, hrbp, hbt, h8,
      h16, hbuffer, hvalue, hrsp, sizeT_of_lt, sizeofPointer, load_store_apart]
  · intro r hr hne
    cases r <;> first
      | (cases hr; done)
      | exact absurd rfl hne
      | simp (disch := omega) [Cpu.reg_set, Cpu.get, Cpu.address, hrbp, hbt, h8,
          hbuffer, sizeT_of_lt, offset]
  · simp (disch := omega) [Cpu.reg_set, Cpu.get, Cpu.address, hrbp, hbt, h8,
      h16, hbuffer, hrsp, sizeT_of_lt, sizeofPointer]

end Dert.GreentAsm
