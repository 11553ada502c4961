import Dert.Base.Ram

namespace Dert.X86

open Library Library.Memory

inductive Reg
  | rax
  | rbx
  | rcx
  | rdx
  | rsi
  | rdi
  | rbp
  | rsp
  | r8
  | r9
  | r10
  | r11
  | r12
  | r13
  | r14
  | r15
  deriving DecidableEq

def Reg.isSaved : Reg → Bool
  | .rbx => true
  | .rbp => true
  | .rsp => true
  | .r12 => true
  | .r13 => true
  | .r14 => true
  | .r15 => true
  | _ => false

def load (m : Ram) (a : Nat) : Nat := loadPointer m.cells a

def store (m : Ram) (a value : Nat) : Ram :=
  m.write ⟨a, sizeofPointer⟩ (storePointer m.cells a value)

structure Cpu where
  reg : Reg → Nat
  zf : Bool
  rip : Nat
  ram : Ram
  reg_lt : ∀ r, reg r < sizeMax

def Cpu.set (s : Cpu) (r : Reg) (value : Nat) : Cpu where
  reg := Function.update s.reg r (sizeT value)
  zf := s.zf
  rip := s.rip
  ram := s.ram
  reg_lt other := by
    rw [Function.update_apply]
    split
    · exact sizeT_lt value
    · exact s.reg_lt other

inductive Operand
  | imm (n : Nat)
  | reg (r : Reg)
  | mem (disp : Nat) (base : Reg)
  deriving DecidableEq

/-- The instructions, with the source before the destination.  A label stands where the
source has it, and jumps go to the next label of that name. -/
inductive Instr
  | mov (src dst : Operand)
  | lea (disp : Nat) (base dst : Reg)
  | leaRip (dst : Reg)
  | add (src : Operand) (dst : Reg)
  | sub (src : Operand) (dst : Reg)
  | xor (src dst : Reg)
  | andSpl (n : Nat)
  | test (src dst : Reg)
  | cmp (n : Nat) (dst : Reg)
  | jne (label : Nat)
  | jmp (label : Nat)
  | push (src : Operand)
  | pop (dst : Reg)
  | ret
  | callMemcpy
  | label (name : Nat)
  deriving DecidableEq

namespace Cpu

def address (s : Cpu) (disp : Nat) (base : Reg) : Nat := sizeT (s.reg base + disp)

def get (s : Cpu) : Operand → Nat
  | .imm n => n
  | .reg r => s.reg r
  | .mem disp base => load s.ram (s.address disp base)

def put (s : Cpu) (value : Nat) : Operand → Option Cpu
  | .imm _ => none
  | .reg r => some (s.set r value)
  | .mem disp base => some { s with ram := store s.ram (s.address disp base) value }

def result (s : Cpu) (r : Reg) (value : Nat) : Cpu := { s.set r value with zf := sizeT value = 0 }

end Cpu

/-- What an instruction does but for the address of the next one, which is `next` or, for a
jump, what `goto` says.  The call of `memcpy` is one step. -/
def exec (memcpy : Cpu → Cpu) (goto : Nat → Option Nat) (next : Nat) (s : Cpu) :
    Instr → Option Cpu
  | .mov src dst => (s.put (s.get src) dst).map fun s => { s with rip := next }
  | .lea disp base dst => some { s.set dst (s.address disp base) with rip := next }
  | .leaRip dst => some { s.set dst next with rip := next }
  | .add src dst => some { s.result dst (s.reg dst + s.get src) with rip := next }
  | .sub src dst => some { s.result dst (s.reg dst + (sizeMax - s.get src)) with rip := next }
  | .xor src dst => some { s.result dst (s.reg dst ^^^ s.reg src) with rip := next }
  | .andSpl n =>
    let spl := s.reg .rsp % 256 &&& n
    some { s.set .rsp (s.reg .rsp / 256 * 256 + spl) with zf := spl = 0, rip := next }
  | .test src dst => some { s with zf := s.reg dst &&& s.reg src = 0, rip := next }
  | .cmp n dst => some { s with zf := sizeT (s.reg dst + (sizeMax - n)) = 0, rip := next }
  | .jne name => if s.zf then some { s with rip := next } else
      (goto name).map fun target => { s with rip := target }
  | .jmp name => (goto name).map fun target => { s with rip := target }
  | .push src =>
    let value := s.get src
    let s := s.set .rsp (s.reg .rsp + (sizeMax - sizeofPointer))
    some { s with ram := store s.ram (s.reg .rsp) value, rip := next }
  | .pop dst =>
    let value := load s.ram (s.reg .rsp)
    some { (s.set .rsp (s.reg .rsp + sizeofPointer)).set dst value with rip := next }
  | .ret => some { s.set .rsp (s.reg .rsp + sizeofPointer) with rip := load s.ram (s.reg .rsp) }
  | .callMemcpy => some { memcpy s with rip := next }
  | .label _ => some { s with rip := next }

structure Code where
  base : Nat
  text : List Instr
  memcpy : Cpu → Cpu

namespace Code

variable (c : Code)

def goto (i name : Nat) : Option Nat :=
  ((c.text.drop i).findIdx? (· = .label name)).map fun k => c.base + i + k

def step (s : Cpu) : Option Cpu :=
  if s.rip < c.base then none
  else
    let i := s.rip - c.base
    match c.text[i]? with
    | none => none
    | some instr => exec c.memcpy (c.goto i) (s.rip + 1) s instr

def run : Nat → Cpu → Option Cpu
  | 0, s => some s
  | n + 1, s => (c.step s).bind (run n)

def Outside (rip : Nat) : Prop := rip < c.base ∨ c.base + c.text.length ≤ rip

def Goes (s s' : Cpu) : Prop := ∃ n, c.run n s = some s'

def Returns (s s' : Cpu) : Prop := c.Goes s s' ∧ c.Outside s'.rip

end Code

end Dert.X86
