import Dert.Base.X86

namespace Dert

open X86

namespace GreentAsm

/-! The offsets of `greent_asm.h`. -/

@[simp] abbrev VERT_R12_OFFSET : Nat := 0

@[simp] abbrev VERT_R13_OFFSET : Nat := 8

@[simp] abbrev VERT_R14_OFFSET : Nat := 16

@[simp] abbrev VERT_R15_OFFSET : Nat := 24

@[simp] abbrev VERT_RBX_OFFSET : Nat := 32

@[simp] abbrev VERT_RSP_OFFSET : Nat := 40

@[simp] abbrev VERT_RBP_OFFSET : Nat := 48

@[simp] abbrev VERT_RIP_OFFSET : Nat := 56

@[simp] abbrev VERT_FIRST_CALLED_FROM : Nat := 64

@[simp] abbrev GREENT_R12_OFFSET : Nat := 0

@[simp] abbrev GREENT_R13_OFFSET : Nat := 8

@[simp] abbrev GREENT_R14_OFFSET : Nat := 16

@[simp] abbrev GREENT_R15_OFFSET : Nat := 24

@[simp] abbrev GREENT_RBX_OFFSET : Nat := 32

@[simp] abbrev GREENT_RSP_OFFSET : Nat := 40

@[simp] abbrev GREENT_RBP_OFFSET : Nat := 48

@[simp] abbrev GREENT_RIP_OFFSET : Nat := 56

@[simp] abbrev GREENT_STACK_FRAMES_OFFSET : Nat := 64

@[simp] abbrev GREENT_TOP_OF_FRAME_OFFSET : Nat := 1088

@[simp] abbrev GREENT_PARENT_OFFSET : Nat := 1096

abbrev greentBuffer : Nat := sizeMax - 8

abbrev returnValue : Nat := sizeMax - 16

def pre (shift : Nat) : List Instr :=
  [.push (.reg .rbp),
    .mov (.reg .rsp) (.reg .rbp),
    .sub (.imm shift) .rsp,
    .andSpl 240]

def post : List Instr :=
  [.mov (.reg .rbp) (.reg .rsp),
    .pop .rbp,
    .ret]

def greentRootFirst : List Instr :=
  [.mov (.mem 0 .rsp) (.reg .rdx),
    .add (.imm 8) .rsp,
    .xor .rax .rax,
    .leaRip .rcx]

def greentRootTest : List Instr :=
  [.test .rax .rax,
    .jne 98]

def greentRootStore : List Instr :=
  [.mov (.reg .rdi) (.reg .rax),
    .mov (.reg .r12) (.mem VERT_R12_OFFSET .rax),
    .mov (.reg .r13) (.mem VERT_R13_OFFSET .rax),
    .mov (.reg .r14) (.mem VERT_R14_OFFSET .rax),
    .mov (.reg .r15) (.mem VERT_R15_OFFSET .rax),
    .mov (.reg .rbx) (.mem VERT_RBX_OFFSET .rax),
    .mov (.reg .rsp) (.mem VERT_RSP_OFFSET .rax),
    .mov (.reg .rbp) (.mem VERT_RBP_OFFSET .rax),
    .mov (.reg .rcx) (.mem VERT_RIP_OFFSET .rax),
    .mov (.reg .rdx) (.mem VERT_FIRST_CALLED_FROM .rax),
    .sub (.imm 8) .rsp,
    .xor .rax .rax]

def greentRootAgain : List Instr :=
  [.label 98,
    .mov (.mem GREENT_PARENT_OFFSET .rax) (.reg .rdx),
    .mov (.mem VERT_FIRST_CALLED_FROM .rdx) (.reg .rdx),
    .push (.reg .rdx),
    .label 99]

def greentRoot : List Instr :=
  greentRootFirst ++ greentRootTest ++ greentRootStore ++ [.jmp 99] ++ greentRootAgain ++ [.ret]

def greentYieldCopy : List Instr :=
  [.mov (.reg .rdi) (.mem greentBuffer .rbp),
    .mov (.mem GREENT_PARENT_OFFSET .rdi) (.reg .rcx),
    .mov (.mem VERT_RSP_OFFSET .rcx) (.reg .rsi),
    .sub (.reg .rsp) .rsi,
    .mov (.reg .rsi) (.mem GREENT_TOP_OF_FRAME_OFFSET .rdi),
    .mov (.reg .rsi) (.reg .rdx),
    .mov (.reg .rsp) (.reg .rsi),
    .lea GREENT_STACK_FRAMES_OFFSET .rdi .rdi]

def greentYieldMark : List Instr :=
  [.mov (.mem greentBuffer .rbp) (.reg .rax),
    .mov (.imm 0) (.reg .rdi),
    .leaRip .rcx]

def greentYieldTest : List Instr :=
  [.cmp 0 .rdi,
    .jne 99]

def greentYieldStore : List Instr :=
  [.mov (.reg .r12) (.mem GREENT_R12_OFFSET .rax),
    .mov (.reg .r13) (.mem GREENT_R13_OFFSET .rax),
    .mov (.reg .r14) (.mem GREENT_R14_OFFSET .rax),
    .mov (.reg .r15) (.mem GREENT_R15_OFFSET .rax),
    .mov (.reg .rbx) (.mem GREENT_RBX_OFFSET .rax),
    .mov (.reg .rsp) (.mem GREENT_RSP_OFFSET .rax),
    .mov (.reg .rbp) (.mem GREENT_RBP_OFFSET .rax),
    .mov (.reg .rcx) (.mem GREENT_RIP_OFFSET .rax)]

def greentYieldLoad : List Instr :=
  [.mov (.reg .rax) (.reg .r8),
    .lea GREENT_PARENT_OFFSET .rax .rdx,
    .mov (.mem 0 .rdx) (.reg .rax),
    .xor .rdx .rdx,
    .mov (.mem VERT_R12_OFFSET .rax) (.reg .r12),
    .mov (.mem VERT_R13_OFFSET .rax) (.reg .r13),
    .mov (.mem VERT_R14_OFFSET .rax) (.reg .r14),
    .mov (.mem VERT_R15_OFFSET .rax) (.reg .r15),
    .mov (.mem VERT_RBX_OFFSET .rax) (.reg .rbx),
    .mov (.mem VERT_RSP_OFFSET .rax) (.reg .rsp),
    .mov (.mem VERT_RBP_OFFSET .rax) (.reg .rbp),
    .push (.mem VERT_RIP_OFFSET .rax),
    .mov (.reg .r8) (.reg .rax)]

def greentYield : List Instr :=
  pre 16 ++ greentYieldCopy ++ [.callMemcpy] ++ greentYieldMark ++ greentYieldTest ++
    greentYieldStore ++ greentYieldLoad ++ [.ret, .label 99] ++ post

def greentResumeCopy : List Instr :=
  [.add (.imm 8) .rsp,
    .mov (.reg .rdi) (.reg .rax),
    .mov (.mem GREENT_TOP_OF_FRAME_OFFSET .rax) (.reg .rdx),
    .sub (.reg .rdx) .rsp,
    .mov (.reg .rsp) (.reg .rbp),
    .sub (.imm 24) .rsp,
    .mov (.reg .rdi) (.mem greentBuffer .rbp),
    .mov (.reg .rsi) (.mem returnValue .rbp),
    .mov (.reg .rbp) (.reg .rdi),
    .lea GREENT_STACK_FRAMES_OFFSET .rax .rsi]

def greentResumeLoad : List Instr :=
  [.mov (.reg .rbp) (.reg .rdi),
    .mov (.mem greentBuffer .rbp) (.reg .rax),
    .mov (.mem GREENT_R12_OFFSET .rax) (.reg .r12),
    .mov (.mem GREENT_R13_OFFSET .rax) (.reg .r13),
    .mov (.mem GREENT_R14_OFFSET .rax) (.reg .r14),
    .mov (.mem GREENT_R15_OFFSET .rax) (.reg .r15),
    .mov (.mem GREENT_RBX_OFFSET .rax) (.reg .rbx),
    .mov (.mem GREENT_RSP_OFFSET .rax) (.reg .rsp),
    .mov (.mem GREENT_RBP_OFFSET .rax) (.reg .rbp),
    .mov (.mem GREENT_RIP_OFFSET .rax) (.reg .rcx),
    .push (.reg .rcx),
    .mov (.mem returnValue .rdi) (.reg .rax)]

def greentResume : List Instr :=
  greentResumeCopy ++ [.callMemcpy] ++ greentResumeLoad ++ [.ret]

def text : List Instr := greentRoot ++ greentYield ++ greentResume

/-! Where the functions start, and where `greent_root` and `greent_yield` go on when their
`lea 0(%rip), %rcx` has been stored. -/

def rootEntry : Nat := 0

def rootAgain : Nat := greentRootFirst.length

def yieldEntry : Nat := greentRoot.length

def yieldAgain : Nat :=
  greentRoot.length + ((pre 16).length + greentYieldCopy.length + 1 + greentYieldMark.length)

def resumeEntry : Nat := greentRoot.length + greentYield.length

end GreentAsm

end Dert
