import Dert.Pool.GreentAsmLaws

namespace Dert.GreentAsm

open X86 Library Library.Memory

variable {memcpy : Cpu → Cpu} {s : Cpu} {base depth g p top bottom : Nat}

/-- A call of `memcpy` between extents that are apart, and apart from the part of the stack
that it may use. -/
structure Copies (depth : Nat) (s : Cpu) : Prop where
  frame : depth ≤ s.reg .rsp
  dest : s.reg .rdi + s.reg .rdx ≤ sizeMax
  src : s.reg .rsi + s.reg .rdx ≤ sizeMax
  apart : s.reg .rdi + s.reg .rdx ≤ s.reg .rsi ∨ s.reg .rsi + s.reg .rdx ≤ s.reg .rdi
  dest_frame : s.reg .rdi + s.reg .rdx ≤ s.reg .rsp - depth ∨ s.reg .rsp ≤ s.reg .rdi
  src_frame : s.reg .rsi + s.reg .rdx ≤ s.reg .rsp - depth ∨ s.reg .rsp ≤ s.reg .rsi

structure IsMemcpy (depth : Nat) (memcpy : Cpu → Cpu) : Prop where
  saved : ∀ {s r}, Copies depth s → r.isSaved → (memcpy s).reg r = s.reg r
  copied : ∀ {s i}, Copies depth s → i < s.reg .rdx →
    (memcpy s).ram.cells (s.reg .rdi + i) = s.ram.cells (s.reg .rsi + i)
  kept : ∀ {s i}, Copies depth s → (i < s.reg .rdi ∨ s.reg .rdi + s.reg .rdx ≤ i) →
    (i < s.reg .rsp - depth ∨ s.reg .rsp ≤ i) → (memcpy s).ram.cells i = s.ram.cells i

def code (base : Nat) (memcpy : Cpu → Cpu) : Code := ⟨base, text, memcpy⟩

def low (s : Cpu) : Nat := (s.reg .rsp - 24) / 16 * 16

structure Holds (base top : Nat) (m : Ram) (g : Nat) (s : Cpu) : Prop where
  regs : ∀ r, r.isSaved → r ≠ .rsp → r ≠ .rbp → load m (g + offset r) = s.reg r
  rsp : load m (g + GREENT_RSP_OFFSET) = low s
  rbp : load m (g + GREENT_RBP_OFFSET) = s.reg .rsp - 8
  rip : load m (g + GREENT_RIP_OFFSET) = base + yieldAgain
  size : load m (g + GREENT_TOP_OF_FRAME_OFFSET) = top - low s
  frames : ∀ i, s.reg .rsp ≤ i → i < top →
    m.cells (g + GREENT_STACK_FRAMES_OFFSET + (i - low s)) = s.ram.cells i
  pointer : load m (g + GREENT_STACK_FRAMES_OFFSET + (s.reg .rsp - 8 - low s)) = s.reg .rbp

theorem Holds.congr {m m' : Ram} (h : Holds base top m g s)
    (hsize : top ≤ low s + 1024) (hsp : s.reg .rsp ≤ top)
    (hm : ∀ i, g ≤ i → i < g + 1096 → m'.cells i = m.cells i) : Holds base top m' g s where
  regs r hr hrsp hrbp := by
    rw [← h.regs r hr hrsp hrbp]
    refine load_congr fun i _ _ => hm i (by omega) ?_
    cases r <;> simp [offset] at * <;> omega
  rsp := (load_congr fun i _ _ => hm i (by omega) (by simp at *; omega)).trans h.rsp
  rbp := (load_congr fun i _ _ => hm i (by omega) (by simp at *; omega)).trans h.rbp
  rip := (load_congr fun i _ _ => hm i (by omega) (by simp at *; omega)).trans h.rip
  size := (load_congr fun i _ _ => hm i (by omega) (by simp at *; omega)).trans h.size
  frames i hi hlt := (hm _ (by simp; omega) (by simp; omega)).trans (h.frames i hi hlt)
  pointer := (load_congr fun i _ _ =>
    hm i (by simp at *; omega) (by simp at *; omega)).trans h.pointer

theorem low_le (s : Cpu) : low s ≤ s.reg .rsp - 24 := Nat.div_mul_le_self _ _

theorem lt_low (s : Cpu) : s.reg .rsp - 24 < low s + 16 := by
  rw [low]
  omega

structure Copied (top : Nat) (s d : Cpu) (g : Nat) : Prop where
  rsp : d.reg .rsp = low s
  rbp : d.reg .rbp = s.reg .rsp - 8
  regs : ∀ r, r.isSaved → r ≠ .rsp → r ≠ .rbp → d.reg r = s.reg r
  buffer : load d.ram (s.reg .rsp - 16) = g
  size : top ≤ low s + 1024 → load d.ram (g + GREENT_TOP_OF_FRAME_OFFSET) = top - low s
  frames : ∀ i, s.reg .rsp ≤ i → i < top →
    d.ram.cells (g + GREENT_STACK_FRAMES_OFFSET + (i - low s)) = s.ram.cells i
  pointer : load d.ram (g + GREENT_STACK_FRAMES_OFFSET + (s.reg .rsp - 8 - low s)) = s.reg .rbp

structure Copying (top : Nat) (s b : Cpu) (g : Nat) : Prop where
  rdi : b.reg .rdi = g + GREENT_STACK_FRAMES_OFFSET
  rsi : b.reg .rsi = low s
  rdx : b.reg .rdx = top - low s
  rsp : b.reg .rsp = low s
  rbp : b.reg .rbp = s.reg .rsp - 8
  regs : ∀ r, r.isSaved → r ≠ .rsp → r ≠ .rbp → b.reg r = s.reg r
  buffer : load b.ram (s.reg .rsp - 16) = g
  size : load b.ram (g + GREENT_TOP_OF_FRAME_OFFSET) = top - low s
  pointer : load b.ram (s.reg .rsp - 8) = s.reg .rbp
  cells : ∀ i, (i < g + 1088 ∨ g + 1096 ≤ i) → (i < s.reg .rsp - 16 ∨ s.reg .rsp ≤ i) →
    b.ram.cells i = s.ram.cells i

theorem yield_prepares (memcpy : Cpu → Cpu) (hplaced : Placed g p bottom top)
    (hrip : s.rip = base + yieldEntry)
    (hrdi : s.reg .rdi = g) (hp : load s.ram (g + GREENT_PARENT_OFFSET) = p)
    (htop : load s.ram (p + VERT_RSP_OFFSET) = top)
    (hbottom : bottom + 40 ≤ s.reg .rsp) (hsp : s.reg .rsp + 8 ≤ top) :
    ∃ b, (code base memcpy).Goes s b ∧ b.rip = base + (yieldEntry + 12) ∧ Copying top s b g := by
  have hlow := low_le s
  obtain ⟨hthread, hvert, hapart, hts, hvs⟩ := id hplaced
  have htoplt : top < sizeMax := htop ▸ load_lt s.ram _
  obtain ⟨a, ha, hasp, habp, hareg, haram⟩ :=
    pre_eq memcpy 16 (s := s) (by omega)
  obtain ⟨hgoes, harip⟩ := Code.goes_block (c := code base memcpy) yieldEntry (pre 16) rfl
    (by decide) hrip ha
  have halow : a.reg .rsp = low s := by rw [hasp, low, Nat.sub_sub]
  have hap : load a.ram (g + GREENT_PARENT_OFFSET) = p := by
    simp only [haram]
    rw [load_store_apart (by simp at *; omega), hp]
  have hatop : load a.ram (p + VERT_RSP_OFFSET) = top := by
    rw [haram, load_store_apart (by simp at *; omega), htop]
  obtain ⟨b, hb, hbdi, hbsi, hbdx, hbreg, hbram⟩ := yieldCopy_eq memcpy hplaced
    (hareg .rdi (by decide) (by decide) ▸ hrdi) (by omega) (by omega) hap hatop (by omega)
  obtain ⟨hgoes', hbrip⟩ := Code.goes_block (c := code base memcpy) (yieldEntry + 4)
    greentYieldCopy rfl (by decide) harip hb
  rw [halow] at hbsi hbdx hbram
  refine ⟨b, hgoes.trans hgoes', hbrip, ?_⟩
  dsimp only [GREENT_TOP_OF_FRAME_OFFSET] at hbram
  exact {
    rdi := hbdi
    rsi := hbsi
    rdx := hbdx
    rsp := (hbreg .rsp rfl).trans halow
    rbp := (hbreg .rbp rfl).trans habp
    regs := fun r hr hrsp hrbp => (hbreg r hr).trans (hareg r hrsp hrbp)
    buffer := by
      rw [hbram, load_store_apart (by omega), habp, Nat.sub_sub, load_store_self]
      exact sizeT_of_lt (by omega)
    size := by
      rw [hbram, load_store_self]
      exact sizeT_of_lt (by omega)
    pointer := by
      rw [hbram, load_store_apart (by omega), load_store_apart (by omega), haram,
        load_store_self, Cpu.sizeT_reg]
    cells := fun i hi hi' => by
      rw [hbram, cells_store_outside hi, cells_store_outside (by omega), haram,
        cells_store_outside (by omega)] }

theorem yield_copies (hlib : IsMemcpy depth memcpy)
    (hplaced : Placed g p bottom top) (hrip : s.rip = base + yieldEntry)
    (hrdi : s.reg .rdi = g) (hp : load s.ram (g + GREENT_PARENT_OFFSET) = p)
    (htop : load s.ram (p + VERT_RSP_OFFSET) = top)
    (hbottom : bottom + depth + 40 ≤ s.reg .rsp) (hsp : s.reg .rsp + 8 ≤ top)
    (hfits : g + 64 + (top - low s) ≤ sizeMax)
    (hroom : g + 64 + (top - low s) ≤ bottom ∨ top ≤ g) :
    ∃ d, (code base memcpy).Goes s d ∧ d.rip = base + (yieldEntry + 13) ∧ Copied top s d g ∧
      ∀ i, (i < g + 64 ∨ g + 1096 ≤ i ∧ g + 64 + (top - low s) ≤ i) →
        (i < bottom ∨ s.reg .rsp ≤ i) → d.ram.cells i = s.ram.cells i := by
  have hlow := low_le s
  have hlow' := lt_low s
  obtain ⟨hthread, hvert, hapart, hts, hvs⟩ := id hplaced
  have htoplt : top < sizeMax := htop ▸ load_lt s.ram _
  obtain ⟨b, hgoes, hbrip, hb⟩ :=
    yield_prepares memcpy hplaced hrip hrdi hp htop (by omega) hsp
  obtain ⟨hbdi, hbsi, hbdx, hbsp, hbbp, hbreg, hbuffer, hword, hpointer, hbcells⟩ := hb
  have hcopies : Copies depth b := by
    constructor <;> simp [hbdi, hbsi, hbdx, hbsp] <;> omega
  dsimp only [GREENT_STACK_FRAMES_OFFSET, GREENT_TOP_OF_FRAME_OFFSET] at hbdi hword
  have hcall : Code.Goes (code base memcpy) b
      { memcpy b with rip := b.rip + 1 } :=
    Code.Goes.one (Code.step_at (c := code base memcpy) (i := yieldEntry + 12) hbrip rfl)
  have hcopied {i : Nat} (hi : low s ≤ i) (hlt : i < top) :
      (memcpy b).ram.cells (g + 64 + (i - low s)) = b.ram.cells i := by
    have h := hlib.copied hcopies (i := i - low s) (by rw [hbdx]; omega)
    rwa [hbdi, hbsi, Nat.add_sub_cancel' hi] at h
  have hkept {i : Nat} (hi : i < g + 64 ∨ g + 64 + (top - low s) ≤ i)
      (hi' : i < low s - depth ∨ low s ≤ i) : (memcpy b).ram.cells i = b.ram.cells i := by
    refine hlib.kept hcopies ?_ ?_
    · rw [hbdi, hbdx]
      omega
    · rw [hbsp]
      exact hi'
  refine ⟨_, hgoes.trans hcall, congrArg (· + 1) hbrip, ?_, ?_⟩
  · constructor
    · exact (hlib.saved hcopies rfl).trans hbsp
    · exact (hlib.saved hcopies rfl).trans hbbp
    · intro r hr hrsp hrbp
      exact (hlib.saved hcopies hr).trans (hbreg r hr hrsp hrbp)
    · rw [← hbuffer]
      exact load_congr fun i _ _ => hkept (by omega) (by omega)
    · intro hsize
      rw [← hword]
      refine load_congr fun i _ _ => hkept ?_ ?_
      all_goals
        dsimp only [GREENT_TOP_OF_FRAME_OFFSET] at *
        omega
    · intro i hi hlt
      exact (hcopied (by omega) hlt).trans (hbcells i (by omega) (by omega))
    · rw [← hpointer]
      refine load_shift fun i hi => ?_
      rw [sizeofPointer] at hi
      have h := hcopied (i := s.reg .rsp - 8 + i) (by omega) (by omega)
      rwa [Nat.sub_add_comm (by omega), ← Nat.add_assoc] at h
  · intro i hi hi'
    exact (hkept (by omega) (by omega)).trans (hbcells i (by omega) (by omega))

theorem ret_goes {c : Code} {i : Nat} (hi : c.text[i]? = some .ret) (hrip : s.rip = c.base + i) :
    c.Goes s { s.set .rsp (s.reg .rsp + sizeofPointer) with rip := load s.ram (s.reg .rsp) } :=
  Code.Goes.one (Code.step_at hrip hi)

theorem yield_switches {d : Cpu} (hcode : base + text.length ≤ sizeMax)
    (hplaced : Placed g p bottom top) (hrip : d.rip = base + (yieldEntry + 13))
    (hbp : 8 ≤ d.reg .rbp) (hbuffer : load d.ram (d.reg .rbp - 8) = g)
    (hp : load d.ram (g + GREENT_PARENT_OFFSET) = p)
    (htop : load d.ram (p + VERT_RSP_OFFSET) = top) (hle : bottom + 8 ≤ top) :
    ∃ u, (code base memcpy).Goes d u ∧ u.rip = load d.ram (p + VERT_RIP_OFFSET) ∧
      u.reg .rax = g ∧ (∀ r, r.isSaved → u.reg r = load d.ram (p + offset r)) ∧
      (∀ r, r.isSaved → load u.ram (g + offset r) = d.reg r) ∧
      load u.ram (g + GREENT_RIP_OFFSET) = base + yieldAgain ∧
      ∀ i, (i < g ∨ g + 64 ≤ i) → (i < bottom ∨ top ≤ i) → u.ram.cells i = d.ram.cells i := by
  obtain ⟨hthread, hvert, hapart, hts, hvs⟩ := id hplaced
  have htoplt : top < sizeMax := htop ▸ load_lt d.ram _
  have hagain : base + yieldAgain < sizeMax :=
    Nat.lt_of_lt_of_le (Nat.add_lt_add_left (by decide) base) hcode
  obtain ⟨a, ha, haax, hadi, hacx, hareg, haram⟩ := yieldMark_eq memcpy (by omega)
    hbuffer (by rw [hrip]; exact hagain)
  obtain ⟨hgoes, harip⟩ := Code.goes_block (c := code base memcpy) (yieldEntry + 13)
    greentYieldMark rfl (by decide) hrip ha
  have hb := yieldTest_eq memcpy hadi
  obtain ⟨hgoes', hbrip⟩ := Code.goes_block (c := code base memcpy) (yieldEntry + 16)
    greentYieldTest rfl (by decide) harip hb
  obtain ⟨b, hb, hbax, hbram⟩ := yieldStore_eq memcpy
    (s := { a with zf := true, rip := a.rip + 2 }) haax hthread
  obtain ⟨hgoes'', hbrip⟩ := Code.goes_block (c := code base memcpy) (yieldEntry + 18)
    greentYieldStore rfl (by decide) hbrip hb
  dsimp only at hbram
  have hbcells {i : Nat} (hi : i < g ∨ g + 64 ≤ i) : b.ram.cells i = d.ram.cells i := by
    rw [hbram, cells_storeContext hi, haram]
  have hbload {w : Nat} (hw : w + 8 ≤ g ∨ g + 64 ≤ w) : load b.ram w = load d.ram w :=
    load_congr fun i _ _ => hbcells (by omega)
  have hbp' : load b.ram (g + GREENT_PARENT_OFFSET) = p := (hbload (by simp)).trans hp
  have hvertload {w : Nat} (hw : w + 8 ≤ 72) : load b.ram (p + w) = load d.ram (p + w) :=
    hbload (by omega)
  have hbtop : load b.ram (p + VERT_RSP_OFFSET) = top := (hvertload (by simp)).trans htop
  obtain ⟨e, he, heax, hesp, hereg, heram⟩ := yieldLoad_eq memcpy hthread hvert hbax
    hbp' hbtop (by omega)
  obtain ⟨hgoes3, herip⟩ := Code.goes_block (c := code base memcpy) (yieldEntry + 26)
    greentYieldLoad rfl (by decide) hbrip he
  have hret := ret_goes (c := code base memcpy) (i := yieldEntry + 39) rfl herip
  have hecells {i : Nat} (hi : i < bottom ∨ top ≤ i) : e.ram.cells i = b.ram.cells i := by
    rw [heram, cells_store_outside (by omega)]
  have hregs {r : Reg} (hr : r.isSaved) : load e.ram (g + offset r) = d.reg r := by
    have hb : load b.ram (g + offset r) = d.reg r := by
      rw [hbram, load_storeContext hr, Cpu.sizeT_reg, hareg r hr]
    rw [← hb]
    refine load_congr fun i _ _ => hecells ?_
    cases r <;> simp [offset] at * <;> omega
  have hpushed : load e.ram (e.reg .rsp) = load d.ram (p + VERT_RIP_OFFSET) := by
    rw [heram, hesp, load_store_self, sizeT_load, hvertload (by simp)]
  refine ⟨_, hgoes.trans (hgoes'.trans (hgoes''.trans (hgoes3.trans hret))), hpushed, heax, ?_,
    fun r hr => hregs hr, ?_, ?_⟩
  · intro r hr
    have hword : load b.ram (p + offset r) = load d.ram (p + offset r) :=
      hvertload (by cases r <;> simp [offset])
    by_cases hrsp : r = .rsp
    · subst hrsp
      have hpop : e.reg .rsp + sizeofPointer = top := by
        rw [hesp, sizeofPointer]
        omega
      refine Eq.trans ?_ htop.symm
      simp only [Cpu.reg_set, if_true, hpop]
      exact sizeT_of_lt htoplt
    · rw [← hword, ← hereg r hr hrsp]
      simp only [Cpu.reg_set, hrsp, if_false]
  · have hb : load b.ram (g + GREENT_RIP_OFFSET) = base + yieldAgain := by
      rw [hbram]
      refine load_storeContext_rip.trans ?_
      rw [Cpu.sizeT_reg, hacx, hrip]
      rfl
    rw [← hb]
    exact load_congr fun i _ _ => hecells (by dsimp only [GREENT_RIP_OFFSET] at *; omega)
  · intro i hi hi'
    exact (hecells hi').trans (hbcells hi)

theorem yield_goes (hlib : IsMemcpy depth memcpy) (hcode : base + text.length ≤ sizeMax)
    (hplaced : Placed g p bottom top) (hrip : s.rip = base + yieldEntry)
    (hrdi : s.reg .rdi = g) (hp : load s.ram (g + GREENT_PARENT_OFFSET) = p)
    (htop : load s.ram (p + VERT_RSP_OFFSET) = top)
    (hbottom : bottom + depth + 40 ≤ s.reg .rsp) (hsp : s.reg .rsp + 8 ≤ top)
    (hsize : top ≤ low s + 1024) :
    ∃ u, (code base memcpy).Goes s u ∧ Holds base top u.ram g s ∧
      u.rip = load s.ram (p + VERT_RIP_OFFSET) ∧ u.reg .rax = g ∧
      (∀ r, r.isSaved → u.reg r = load s.ram (p + offset r)) ∧
      ∀ i, (i < g ∨ g + 1096 ≤ i) → (i < bottom ∨ top ≤ i) → u.ram.cells i = s.ram.cells i := by
  have hlow := low_le s
  have hlow' := lt_low s
  obtain ⟨d, hgoes, hdrip, hd, hdcells⟩ :=
    yield_copies hlib hplaced hrip hrdi hp htop hbottom hsp
      (by have := hplaced.thread; omega) (by have := hplaced.thread_stack; omega)
  obtain ⟨hthread, hvert, hapart, hts, hvs⟩ := id hplaced
  have hdload {w : Nat} (hw : w + 8 ≤ 72) : load d.ram (p + w) = load s.ram (p + w) :=
    load_congr fun i _ _ => hdcells i (by omega) (by omega)
  have hdp : load d.ram (g + GREENT_PARENT_OFFSET) = p := by
    rw [← hp]
    exact load_congr fun i _ _ => hdcells i (by simp at *; omega) (by simp at *; omega)
  have hbuffer : load d.ram (d.reg .rbp - 8) = g := by
    rw [hd.rbp, Nat.sub_sub]
    exact hd.buffer
  obtain ⟨u, hgoes', hurip, hurax, hureg, hucontext, huagain, hucells⟩ :=
    yield_switches hcode hplaced hdrip (by rw [hd.rbp]; omega) hbuffer hdp
      ((hdload (by simp)).trans htop) (by omega)
  refine ⟨u, hgoes.trans hgoes', ?_, hurip.trans (hdload (by simp)), hurax, ?_, ?_⟩
  · have hframes {i : Nat} (hi : g + 64 ≤ i) (hlt : i < g + 1096) :
        u.ram.cells i = d.ram.cells i := hucells i (by omega) (by omega)
    exact {
      regs := fun r hr hrsp hrbp => (hucontext r hr).trans (hd.regs r hr hrsp hrbp)
      rsp := (hucontext .rsp rfl).trans hd.rsp
      rbp := (hucontext .rbp rfl).trans hd.rbp
      rip := huagain
      size := (load_congr fun i _ _ => hframes (by simp at *; omega) (by simp at *; omega)).trans
        (hd.size hsize)
      frames := fun i hi hlt => (hframes (by simp) (by simp; omega)).trans (hd.frames i hi hlt)
      pointer := (load_congr fun i _ _ => hframes (by simp at *; omega)
        (by simp at *; omega)).trans hd.pointer }
  · intro r hr
    exact (hureg r hr).trans (hdload (by cases r <;> simp [offset]))
  · intro i hi hi'
    exact (hucells i (by omega) hi').trans (hdcells i (by omega) (by omega))

theorem resume_copies {t : Cpu} (hlib : IsMemcpy depth memcpy) (hplaced : Placed g p bottom top)
    (hrip : t.rip = base + resumeEntry) (hrdi : t.reg .rdi = g) (hrsp : t.reg .rsp + 8 = top)
    (htop : top < sizeMax)
    (hholds : Holds base top t.ram g s) (hbottom : bottom + depth + 64 ≤ s.reg .rsp)
    (hsp : s.reg .rsp + 8 ≤ top) (hsize : top ≤ low s + 1024) :
    ∃ d, (code base memcpy).Goes t d ∧ d.rip = base + (resumeEntry + 11) ∧
      d.reg .rbp = low s ∧ load d.ram (low s - 8) = g ∧ load d.ram (low s - 16) = t.reg .rsi ∧
      (∀ i, s.reg .rsp ≤ i → i < top → d.ram.cells i = s.ram.cells i) ∧
      load d.ram (s.reg .rsp - 8) = s.reg .rbp ∧
      ∀ i, (i < bottom ∨ top ≤ i) → d.ram.cells i = t.ram.cells i := by
  have hlow := low_le s
  have hlow' := lt_low s
  obtain ⟨hthread, hvert, hapart, hts, hvs⟩ := id hplaced
  obtain ⟨b, hb, hbsp, hbbp, hbdi, hbsi, hbdx, hbram⟩ := resumeCopy_eq memcpy
    (s := t) (b := low s) hthread hrdi hholds.size (by omega) (by omega) (by omega)
  obtain ⟨hgoes, hbrip⟩ := Code.goes_block (c := code base memcpy) resumeEntry greentResumeCopy rfl
    (by decide) hrip hb
  have hcopies : Copies depth b := by
    constructor <;> simp [hbdi, hbsi, hbdx, hbsp] <;> omega
  dsimp only [GREENT_STACK_FRAMES_OFFSET] at hbsi
  have hcall : Code.Goes (code base memcpy) b { memcpy b with rip := b.rip + 1 } :=
    Code.Goes.one (Code.step_at (i := resumeEntry + 10) hbrip rfl)
  have hbcells {i : Nat} (hi : i < low s - 16 ∨ low s ≤ i) : b.ram.cells i = t.ram.cells i := by
    rw [hbram, cells_store_outside (by omega), cells_store_outside (by omega)]
  have hcopied {i : Nat} (hi : low s ≤ i) (hlt : i < top) :
      (memcpy b).ram.cells i = t.ram.cells (g + 64 + (i - low s)) := by
    have h := hlib.copied hcopies (i := i - low s) (by rw [hbdx]; omega)
    rw [hbdi, hbsi, Nat.add_sub_cancel' hi] at h
    exact h.trans (hbcells (by omega))
  have hkept {i : Nat} (hi : i < low s ∨ top ≤ i) (hi' : i < low s - 24 - depth ∨ low s - 24 ≤ i) :
      (memcpy b).ram.cells i = b.ram.cells i := by
    refine hlib.kept hcopies ?_ ?_
    · rw [hbdi, hbdx]
      omega
    · rw [hbsp]
      exact hi'
  refine ⟨_, hgoes.trans hcall, congrArg (· + 1) hbrip, ?_, ?_, ?_, ?_, ?_, ?_⟩
  · exact (hlib.saved hcopies rfl).trans hbbp
  · have hbuffer : load b.ram (low s - 8) = g := by
      rw [hbram, load_store_apart (by omega), load_store_self]
      exact sizeT_of_lt (by omega)
    rw [← hbuffer]
    exact load_congr fun i _ _ => hkept (by omega) (by omega)
  · have hvalue : load b.ram (low s - 16) = t.reg .rsi := by
      rw [hbram, load_store_self, Cpu.sizeT_reg]
    rw [← hvalue]
    exact load_congr fun i _ _ => hkept (by omega) (by omega)
  · intro i hi hlt
    exact (hcopied (by omega) hlt).trans (hholds.frames i hi hlt)
  · rw [← hholds.pointer]
    refine load_shift fun i hi => ?_
    rw [sizeofPointer] at hi
    refine (hcopied (by omega) (by omega)).trans ?_
    rw [Nat.sub_add_comm (by omega), ← Nat.add_assoc]
  · intro i hi
    exact (hkept (by omega) (by omega)).trans (hbcells (by omega))

theorem jne_goes {c : Code} {d : Cpu} {i k name : Nat} (hi : c.text[i]? = some (.jne name))
    (hk : c.goto i name = some k) (hrip : d.rip = c.base + i) (hzf : d.zf = false) :
    c.Goes d { d with rip := k } :=
  Code.Goes.one ((Code.step_at hrip hi).trans (by rw [exec, hzf, if_neg (by decide), hk]; rfl))

theorem goto_eq {i k n name : Nat}
    (hfind : (text.drop i).findIdx? (· = .label name) = some k) (hn : n = i + k) :
    (code base memcpy).goto i name = some (base + n) := by
  rw [Code.goto, hn, ← Nat.add_assoc]
  exact congrArg (Option.map _) hfind

theorem goto_yield :
    (code base memcpy).goto (yieldAgain + 1) 99 = some (base + (yieldEntry + 40)) :=
  goto_eq (k := 23) (by decide) rfl

variable (memcpy) in
/-- Where `greent_yield` goes on, with the address of the stack's end instead of zero, it
returns. -/
theorem yieldAgain_goes {d : Cpu} (hrip : d.rip = base + yieldAgain) (hrdi : d.reg .rdi ≠ 0)
    (hfits : d.reg .rbp + 16 < sizeMax) :
    ∃ u, (code base memcpy).Goes d u ∧ u.rip = load d.ram (d.reg .rbp + 8) ∧
      u.reg .rax = d.reg .rax ∧ u.reg .rsp = d.reg .rbp + 16 ∧
      u.reg .rbp = load d.ram (d.reg .rbp) ∧
      (∀ r, r.isSaved → r ≠ .rsp → r ≠ .rbp → u.reg r = d.reg r) ∧ u.ram = d.ram := by
  have hlt := d.reg_lt .rdi
  have hzf : decide (sizeT (d.reg .rdi + (sizeMax - 0)) = 0) = false := by
    rw [decide_eq_false_iff_not, Nat.sub_zero, sizeT, Nat.add_mod_right, Nat.mod_eq_of_lt hlt]
    exact hrdi
  have hcmp := Code.Goes.one (Code.step_at (c := code base memcpy) (i := yieldAgain) hrip rfl)
  rw [hzf] at hcmp
  have hjne := jne_goes (c := code base memcpy) (i := yieldAgain + 1) rfl goto_yield
    (d := { d with zf := false, rip := d.rip + 1 }) (congrArg (· + 1) hrip) rfl
  obtain ⟨a, ha, haax, hasp, habp, hareg, haram⟩ := post_eq memcpy
    (s := { d with zf := false, rip := base + (yieldEntry + 40) }) (by dsimp only; omega)
  obtain ⟨hgoes, harip⟩ := Code.goes_block (c := code base memcpy) (yieldEntry + 40)
    [.label 99, .mov (.reg .rbp) (.reg .rsp), .pop .rbp] rfl (by decide) rfl ha
  have hret := ret_goes (c := code base memcpy) (i := yieldEntry + 43) rfl harip
  dsimp only at haax hasp habp hareg haram
  refine ⟨_, hcmp.trans (hjne.trans (hgoes.trans hret)), ?_, haax, ?_, habp, ?_, haram⟩
  · rw [haram, hasp]
  · simp only [Cpu.reg_set, if_true, hasp, sizeofPointer]
    exact sizeT_of_lt hfits
  · intro r hr hrsp hrbp
    simp only [Cpu.reg_set, hrsp, if_false]
    exact hareg r hr hrsp hrbp

theorem resume_goes {t : Cpu} (hlib : IsMemcpy depth memcpy) (hplaced : Placed g p bottom top)
    (hrip : t.rip = base + resumeEntry) (hrdi : t.reg .rdi = g) (hrsp : t.reg .rsp + 8 = top)
    (htop : top < sizeMax)
    (hholds : Holds base top t.ram g s) (hbottom : bottom + depth + 64 ≤ s.reg .rsp)
    (hsp : s.reg .rsp + 8 ≤ top) (hsize : top ≤ low s + 1024) :
    ∃ u, (code base memcpy).Goes t u ∧ u.rip = load s.ram (s.reg .rsp) ∧
      u.reg .rax = t.reg .rsi ∧ u.reg .rsp = s.reg .rsp + 8 ∧
      (∀ r, r.isSaved → r ≠ .rsp → u.reg r = s.reg r) ∧
      (∀ i, s.reg .rsp ≤ i → i < top → u.ram.cells i = s.ram.cells i) ∧
      ∀ i, (i < bottom ∨ top ≤ i) → u.ram.cells i = t.ram.cells i := by
  have hlow := low_le s
  have hlow' := lt_low s
  obtain ⟨hthread, hvert, hapart, hts, hvs⟩ := id hplaced
  obtain ⟨d, hgoes, hdrip, hdbp, hbuffer, hvalue, hframes, hpointer, hdcells⟩ :=
    resume_copies hlib hplaced hrip hrdi hrsp htop hholds hbottom hsp hsize
  have hdword {k : Nat} (hk : k + 8 ≤ 1104) : load d.ram (g + k) = load t.ram (g + k) :=
    load_congr fun i _ _ => hdcells i (by omega)
  obtain ⟨b, hb, hbax, hbdi, hbsp, hbreg, hbram⟩ := resumeLoad_eq memcpy (s := d)
    hthread (by omega) hdbp hbuffer hvalue ((hdword (by simp)).trans hholds.rsp)
  obtain ⟨hgoes', hbrip⟩ := Code.goes_block (c := code base memcpy) (resumeEntry + 11)
    greentResumeLoad rfl (by decide) hdrip hb
  have hret := ret_goes (c := code base memcpy) (i := resumeEntry + 23) rfl hbrip
  have hbbp : b.reg .rbp = s.reg .rsp - 8 :=
    (hbreg .rbp rfl (by decide)).trans ((hdword (by simp [offset])).trans hholds.rbp)
  have hpushed : load b.ram (b.reg .rsp) = base + yieldAgain := by
    rw [hbram, hbsp, load_store_self, hdword (by simp), sizeT_load, hholds.rip]
  have hbcells {i : Nat} (hi : i < low s - 8 ∨ low s ≤ i) : b.ram.cells i = d.ram.cells i := by
    rw [hbram, cells_store_outside (by omega)]
  obtain ⟨u, hgoes'', hurip, hurax, hursp, hurbp, hureg, huram⟩ := yieldAgain_goes
    memcpy (d := { b.set .rsp (b.reg .rsp + sizeofPointer) with
      rip := load b.ram (b.reg .rsp) }) hpushed
    (by simp only [Cpu.reg_set, reduceCtorEq, if_false, hbdi]; omega)
    (by simp only [Cpu.reg_set, reduceCtorEq, if_false, hbbp]; omega)
  simp only [Cpu.reg_set, Cpu.ram_set, reduceCtorEq, if_false, hbbp]
    at hurip hurax hursp hurbp hureg huram
  refine ⟨u, hgoes.trans (hgoes'.trans (hret.trans hgoes'')), ?_, ?_, ?_, ?_, ?_, ?_⟩
  · rw [hurip, Nat.sub_add_cancel (by omega)]
    exact load_congr fun i _ _ => (hbcells (by omega)).trans (hframes i (by omega) (by omega))
  · exact hurax.trans hbax
  · omega
  · intro r hr hrsp
    by_cases hrbp : r = .rbp
    · subst hrbp
      rw [hurbp, ← hpointer]
      exact load_congr fun i _ _ => hbcells (by omega)
    · rw [hureg r hr hrsp hrbp, if_neg hrsp, hbreg r hr hrsp, hdword (by cases r <;> simp [offset])]
      exact hholds.regs r hr hrsp hrbp
  · intro i hi hlt
    rw [huram, hbcells (by omega)]
    exact hframes i hi hlt
  · intro i hi
    rw [huram, hbcells (by omega)]
    exact hdcells i hi

structure Rooted (base : Nat) (m : Ram) (p : Nat) (r : Cpu) : Prop where
  regs : ∀ q, q.isSaved → q ≠ .rsp → load m (p + offset q) = r.reg q
  rsp : load m (p + VERT_RSP_OFFSET) = r.reg .rsp + 8
  rip : load m (p + VERT_RIP_OFFSET) = base + rootAgain
  caller : load m (p + VERT_FIRST_CALLED_FROM) = load r.ram (r.reg .rsp)

theorem Rooted.congr {m m' : Ram} {r : Cpu} (h : Rooted base m p r)
    (hm : ∀ i, p ≤ i → i < p + 72 → m'.cells i = m.cells i) : Rooted base m' p r := by
  have hword {k : Nat} (hk : k + 8 ≤ 72) : load m' (p + k) = load m (p + k) :=
    load_congr fun i _ _ => hm i (by omega) (by omega)
  exact {
    regs := fun q hq hrsp => (hword (by cases q <;> simp [offset])).trans (h.regs q hq hrsp)
    rsp := (hword (by simp)).trans h.rsp
    rip := (hword (by simp)).trans h.rip
    caller := (hword (by simp)).trans h.caller }

theorem goto_root_99 :
    (code base memcpy).goto (rootEntry + 18) 99 = some (base + (rootEntry + 23)) :=
  goto_eq (k := 5) (by decide) rfl

theorem goto_root_98 :
    (code base memcpy).goto (rootAgain + 1) 98 = some (base + (rootEntry + 19)) :=
  goto_eq (k := 14) (by decide) rfl

variable (memcpy) in
theorem root_goes (hcode : base + text.length ≤ sizeMax) (hrip : s.rip = base + rootEntry)
    (hrdi : s.reg .rdi = p) (hvert : p + 72 ≤ sizeMax)
    (hstack : p + 72 ≤ s.reg .rsp ∨ s.reg .rsp + 8 ≤ p) (hrsp : s.reg .rsp + 8 < sizeMax) :
    ∃ u, (code base memcpy).Goes s u ∧ Rooted base u.ram p s ∧
      u.rip = load s.ram (s.reg .rsp) ∧ u.reg .rax = 0 ∧ u.reg .rsp = s.reg .rsp + 8 ∧
      (∀ r, r.isSaved → r ≠ .rsp → u.reg r = s.reg r) ∧
      ∀ i, (i < p ∨ p + 72 ≤ i) → u.ram.cells i = s.ram.cells i := by
  have hagain : base + rootAgain < sizeMax :=
    Nat.lt_of_lt_of_le (Nat.add_lt_add_left (by decide) base) hcode
  obtain ⟨a, ha, haax, hacx, hadx, hasp, hadi, hareg, haram⟩ := rootFirst_eq memcpy
    hrsp (by rw [hrip]; exact hagain)
  obtain ⟨hgoes, harip⟩ := Code.goes_block (c := code base memcpy) rootEntry greentRootFirst rfl
    (by decide) hrip ha
  have hb := rootTest_eq memcpy haax
  obtain ⟨hgoes', hbrip⟩ := Code.goes_block (c := code base memcpy) (rootEntry + 4) greentRootTest
    rfl (by decide) harip hb
  obtain ⟨b, hb, hbax, hbsp, hbreg, hbram⟩ := rootStore_eq memcpy
    (s := { a with zf := true, rip := a.rip + 2 }) (hadi.trans hrdi) hvert (by dsimp only; omega)
  obtain ⟨hgoes'', hbrip⟩ := Code.goes_block (c := code base memcpy) (rootEntry + 6)
    greentRootStore rfl (by decide) hbrip hb
  have hjmp : (code base memcpy).Goes b { b with rip := base + (rootEntry + 23) } :=
    Code.Goes.one ((Code.step_at (i := rootEntry + 18) hbrip rfl).trans
      (by rw [exec, goto_root_99]; rfl))
  obtain ⟨e, he, heax, hesp, hereg, heram⟩ : ∃ e, Code.block memcpy [.label 99]
      { b with rip := base + (rootEntry + 23) } = some e ∧ e.reg .rax = 0 ∧
      e.reg .rsp = b.reg .rsp ∧ (∀ r, e.reg r = b.reg r) ∧ e.ram = b.ram :=
    ⟨_, rfl, hbax, rfl, fun _ => rfl, rfl⟩
  obtain ⟨hgoes3, herip⟩ := Code.goes_block (c := code base memcpy) (rootEntry + 23) [.label 99] rfl
    (by decide) rfl he
  have hret := ret_goes (c := code base memcpy) (i := rootEntry + 24) rfl herip
  dsimp only at hbsp hbreg hbram
  have hebsp : e.reg .rsp = s.reg .rsp := by
    rw [hesp, hbsp, hasp]
    omega
  have hecells {i : Nat} (hi : i < p ∨ p + 72 ≤ i) : e.ram.cells i = s.ram.cells i := by
    rw [heram, hbram, cells_store_outside (by dsimp only [VERT_FIRST_CALLED_FROM]; omega),
      cells_storeContext (by omega), haram]
  have hcontext {k : Nat} (hk : k + 8 ≤ 64) :
      load e.ram (p + k) = load (storeContext a.ram p a.reg (a.reg .rcx)) (p + k) := by
    rw [heram, hbram, load_store_apart (by dsimp only [VERT_FIRST_CALLED_FROM]; omega)]
  refine ⟨_, hgoes.trans (hgoes'.trans (hgoes''.trans (hjmp.trans (hgoes3.trans hret)))), ?_, ?_,
    heax, ?_, ?_, ?_⟩
  · constructor
    · intro r hr hrsp
      refine (hcontext (by cases r <;> simp [offset])).trans ?_
      rw [load_storeContext hr, Cpu.sizeT_reg, hareg r hr hrsp]
    · refine (hcontext (by simp)).trans ((load_storeContext (r := .rsp) rfl).trans ?_)
      rw [Cpu.sizeT_reg, hasp]
    · refine (hcontext (by simp)).trans (load_storeContext_rip.trans ?_)
      rw [Cpu.sizeT_reg, hacx, hrip]
      rfl
    · refine Eq.trans (congrArg (load · _) (heram.trans hbram)) ?_
      rw [load_store_self, hadx, sizeT_load]
  · rw [hebsp]
    exact load_congr fun i _ _ => hecells (by omega)
  · simp only [Cpu.reg_set, if_true, hebsp, sizeofPointer]
    exact sizeT_of_lt hrsp
  · intro r hr hne
    simp only [Cpu.reg_set, hne, if_false]
    rw [hereg, hbreg r hr hne, hareg r hr hne]
  · exact fun i hi => hecells hi

variable (memcpy) in
theorem rootAgain_goes {d : Cpu} (hg : g + 1104 ≤ sizeMax) (hvert : p + 72 ≤ sizeMax)
    (hrip : d.rip = base + rootAgain) (hrax : d.reg .rax = g) (hnull : g ≠ 0)
    (hp : load d.ram (g + GREENT_PARENT_OFFSET) = p) (hrsp : 8 ≤ d.reg .rsp) :
    ∃ u, (code base memcpy).Goes d u ∧ u.rip = load d.ram (p + VERT_FIRST_CALLED_FROM) ∧
      u.reg .rax = g ∧ (∀ r, r.isSaved → u.reg r = d.reg r) ∧
      ∀ i, (i < d.reg .rsp - 8 ∨ d.reg .rsp ≤ i) → u.ram.cells i = d.ram.cells i := by
  have hzf : decide (d.reg .rax &&& d.reg .rax = 0) = false := by
    rw [Nat.and_self, hrax]
    exact decide_eq_false hnull
  have htest := Code.Goes.one (Code.step_at (c := code base memcpy) (i := rootAgain) hrip rfl)
  rw [hzf] at htest
  have hjne := jne_goes (c := code base memcpy) (i := rootAgain + 1) rfl goto_root_98
    (d := { d with zf := false, rip := d.rip + 1 }) (congrArg (· + 1) hrip) rfl
  obtain ⟨a, ha, haax, hasp, hareg, haram⟩ := rootAgain_eq memcpy
    (s := { d with zf := false, rip := base + (rootEntry + 19) }) hrax hg hvert hp hrsp
  obtain ⟨hgoes, harip⟩ := Code.goes_block (c := code base memcpy) (rootEntry + 19)
    greentRootAgain rfl (by decide) rfl ha
  have hret := ret_goes (c := code base memcpy) (i := rootEntry + 24) rfl harip
  dsimp only at hasp hareg haram
  refine ⟨_, htest.trans (hjne.trans (hgoes.trans hret)), ?_, haax, ?_, ?_⟩
  · rw [hasp, haram, load_store_self, sizeT_load]
  · intro r hr
    by_cases hr' : r = .rsp
    · subst hr'
      simp only [Cpu.reg_set, if_true, hasp, sizeofPointer, Nat.sub_add_cancel hrsp]
      exact Cpu.sizeT_reg d .rsp
    · simp only [Cpu.reg_set, hr', if_false]
      exact hareg r hr hr'
  · intro i hi
    rw [Cpu.ram_set, haram, cells_store_outside (by omega)]

end Dert.GreentAsm
