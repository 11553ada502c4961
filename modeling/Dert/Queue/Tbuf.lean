import Dert.Library.Resident
import Dert.Queue.Headers
import Dert.Queue.QueueLayout

namespace Dert

open Library

namespace Tbuf

/-! The members of a `Tbuf`, in order. -/

abbrev atA : Nat := 0

abbrev atALen : Nat := 1

abbrev atB : Nat := 2

abbrev atBLen : Nat := 3

abbrev atCap : Nat := 4

def numMembers : Nat := 5

end Tbuf

open Tbuf

def sizeofTbuf : Nat := 40

def tbufAdvise (cap : Nat) : Nat := sizeT (sizeT (sizeofTbuf + cap) + cap)

def tbufAdvisev (numBufs cap : Nat) : Nat :=
  sizeT (numBufs * sizeT (sizeT (sizeofTbuf + cap) + cap))

def tbufMembers (m : Ram) (twin ptr cap : Nat) : Ram :=
  let m := m.setField twin atA ptr
  let m := m.setField twin atALen 0
  let m := m.setField twin atB (ptr + cap)
  let m := m.setField twin atBLen 0
  m.setField twin atCap cap

def tbufInit (m : Ram) (memory cap : Nat) : Ram × Ret × Option Nat :=
  if memory = 0 ∨ cap = 0 then (m, .EINVAL, none)
  else
    let m := m.memset memory 0 (tbufAdvise cap)
    (tbufMembers m memory (memory + sizeofTbuf) cap, .ok, some memory)

/-- Unlike `tbuf_init` it sets nothing to zero but the lengths. -/
def tbufInitv (m : Ram) (numBufs memory cap : Nat) : Ram × Ret × Option Nat :=
  if memory = 0 ∨ cap = 0 then (m, .EINVAL, none)
  else
    let setup m twin ptr := tbufMembers m twin ptr cap
    let ptr := memory + sizeT (numBufs * sizeofTbuf)
    (initvLoop sizeofTbuf setup m memory (initvElems (cap + cap) numBufs ptr), .ok, some memory)

def tbufDeinit (m : Ram) (twin : Nat) : Ram :=
  let m := m.memset (m.field twin atA) 0 (m.field twin atCap)
  let m := m.memset (m.field twin atB) 0 (m.field twin atCap)
  m.memset twin 0 sizeofTbuf

def tbufSwap (m : Ram) (twin : Nat) : Ram × Ret :=
  let tmpPtr := m.field twin atA
  let m := m.setField twin atA (m.field twin atB)
  let m := m.setField twin atB tmpPtr
  let tmpLen := m.field twin atALen
  let m := m.setField twin atALen (m.field twin atBLen)
  (m.setField twin atBLen tmpLen, .ok)

namespace Tbuf

inductive Side
  | A
  | B
  deriving DecidableEq

def Side.at : Side → Nat
  | .A => atA
  | .B => atB

def Side.atLen : Side → Nat
  | .A => atALen
  | .B => atBLen

def pointer (side : Side) (m : Ram) (twin : Nat) : Nat :=
  m.field twin side.at + m.field twin side.atLen

def unused (side : Side) (m : Ram) (twin : Nat) : Nat :=
  sizeT (m.field twin atCap + (sizeMax - m.field twin side.atLen))

end Tbuf

def tbufA : Ram → Nat → Nat := pointer .A

def tbufB : Ram → Nat → Nat := pointer .B

def tbufAUnused : Ram → Nat → Nat := unused .A

def tbufBUnused : Ram → Nat → Nat := unused .B

def tbufCap (m : Ram) (twin : Nat) : Nat := m.field twin atCap

namespace Tbuf

/-- What a caller does with a buffer: it stores as many bytes as are unused where `tbuf_A` or
`tbuf_B` points and adds their number to the length. -/
def fill (side : Side) (m : Ram) (twin : Nat) (src : List UInt8) : Ram × Nat :=
  let src := src.take (unused side m twin)
  let m := m.memcpy (pointer side m twin) src
  (m.setField twin side.atLen (m.field twin side.atLen + src.length), src.length)

def stored (side : Side) (m : Ram) (twin : Nat) : List UInt8 :=
  m.bytes (m.field twin side.at) (m.field twin side.atLen)

def clear (side : Side) (m : Ram) (twin : Nat) : Ram := m.setField twin side.atLen 0

inductive Call
  | swap
  | pointer (side : Side)
  | unused (side : Side)
  | cap
  | fill (side : Side) (src : List UInt8)
  | stored (side : Side)
  | clear (side : Side)
  | deinit

structure Reply where
  ret : Ret
  num : Option Nat
  dest : List UInt8
  deriving DecidableEq

def call (p : Place) (m : Ram) : Call → Ram × Reply
  | .swap =>
    let r := tbufSwap m p.header
    (r.1, ⟨r.2, none, []⟩)
  | .pointer .A => (m, ⟨.ok, some (tbufA m p.header - p.elems), []⟩)
  | .pointer .B => (m, ⟨.ok, some (tbufB m p.header - p.elems), []⟩)
  | .unused .A => (m, ⟨.ok, some (tbufAUnused m p.header), []⟩)
  | .unused .B => (m, ⟨.ok, some (tbufBUnused m p.header), []⟩)
  | .cap => (m, ⟨.ok, some (tbufCap m p.header), []⟩)
  | .fill side src =>
    let r := fill side m p.header src
    (r.1, ⟨.ok, some r.2, []⟩)
  | .stored side => (m, ⟨.ok, none, stored side m p.header⟩)
  | .clear side => (clear side m p.header, ⟨.ok, none, []⟩)
  | .deinit => (tbufDeinit m p.header, ⟨.ok, none, []⟩)

def ends : Call → Bool
  | .deinit => true
  | _ => false

def extents (cap : Nat) : Place → List Extent :=
  Place.extents (sizeofPointer * numMembers) (cap + cap)

def tbufs (cap : Nat) : Resident UInt8 Place Call Reply where
  call := call
  extents := extents cap
  allows _ := true
  ends := ends

structure Spec (cap : Nat) where
  bytes : Side → List UInt8
  bounded : ∀ side, (bytes side).length ≤ cap
  swapped : Bool

namespace Spec

variable {cap : Nat}

def empty : Spec cap := ⟨fun _ => [], fun _ => Nat.zero_le _, false⟩

def offset (s : Spec cap) : Side → Nat
  | .A => if s.swapped then cap else 0
  | .B => if s.swapped then 0 else cap

def swap (s : Spec cap) : Spec cap where
  bytes
    | .A => s.bytes .B
    | .B => s.bytes .A
  bounded
    | .A => s.bounded .B
    | .B => s.bounded .A
  swapped := !s.swapped

def set (s : Spec cap) (side : Side) (src : List UInt8) (h : src.length ≤ cap) : Spec cap where
  bytes := Function.update s.bytes side src
  bounded other := by
    rw [Function.update_apply]
    split
    · exact h
    · exact s.bounded other
  swapped := s.swapped

def room (s : Spec cap) (side : Side) : Nat := cap - (s.bytes side).length

def fill (s : Spec cap) (side : Side) (src : List UInt8) : Spec cap :=
  s.set side (s.bytes side ++ src.take (s.room side)) (by
    have hle := s.bounded side
    rw [List.length_append, List.length_take, room]
    omega)

def call (s : Spec cap) : Call → Spec cap × Reply
  | .swap => (s.swap, ⟨.ok, none, []⟩)
  | .pointer side => (s, ⟨.ok, some (s.offset side + (s.bytes side).length), []⟩)
  | .unused side => (s, ⟨.ok, some (s.room side), []⟩)
  | .cap => (s, ⟨.ok, some cap, []⟩)
  | .fill side src => (s.fill side src, ⟨.ok, some (src.take (s.room side)).length, []⟩)
  | .stored side => (s, ⟨.ok, none, s.bytes side⟩)
  | .clear side => (s.set side [] (Nat.zero_le _), ⟨.ok, none, []⟩)
  | .deinit => (s, ⟨.ok, none, []⟩)

end Spec

end Tbuf

end Dert
