import Dert.Base.Bytes

namespace Dert

/-- Offsets into `bytes`, which are `capacity` many. -/
structure Varena where
  bytes : Nat → UInt8
  top : Nat
  bottom : Nat
  capacity : Nat

structure VarenaFrame where
  top : Nat
  bottom : Nat
  deriving DecidableEq

def sizeofVarenaFrame : Nat := 16

/-- A `size_t` takes the bytes of a pointer. -/
def loadFrame (bytes : Nat → UInt8) (src : Nat) : VarenaFrame where
  top := loadPointer bytes src
  bottom := loadPointer bytes (src + sizeofPointer)

def storeFrame (bytes : Nat → UInt8) (dest : Nat) (frame : VarenaFrame) : Nat → UInt8 :=
  storePointer (storePointer bytes dest frame.top) (dest + sizeofPointer) frame.bottom

def varenaCreate (granted grantedBytes : Bool) (numBytes : Nat) : Option Varena :=
  if numBytes = 0 then none
  else if granted && grantedBytes then
    some { bytes := fun _ => 0, top := 0, bottom := 0, capacity := numBytes }
  else none

def varenaFrameTop (arena : Varena) : Option Nat :=
  if arena.bottom < sizeofVarenaFrame then none else some (arena.bottom - sizeofVarenaFrame)

/-- None where the frame of NULL is read. -/
def varenaFrameUsed (arena : Varena) : Option Nat :=
  (varenaFrameTop arena).map fun frame =>
    sizeT (arena.top + (sizeMax - (loadFrame arena.bytes frame).bottom))

def varenaFrameUnused (arena : Varena) : Nat :=
  sizeT (sizeT (arena.bottom + (sizeMax - sizeofVarenaFrame)) + (sizeMax - arena.top))

/-- The arena and what is returned; none where the frame is copied to NULL. -/
def varenaClaim (arena : Varena) (numBytes : Nat) : Option (Varena × Nat) :=
  if numBytes = 0 then some (arena, 3)
  else
    let numBytes := sizeT (numBytes + sizeofVarenaFrame)
    if sizeT (arena.bottom + numBytes) > arena.capacity then some (arena, 4)
    else
      let frame : VarenaFrame := { top := arena.top, bottom := arena.bottom }
      let arena :=
        { arena with top := arena.bottom, bottom := sizeT (arena.bottom + numBytes) }
      (varenaFrameTop arena).map fun dest =>
        ({ arena with bytes := storeFrame arena.bytes dest frame }, 0)

def varenaDisclaim (arena : Varena) : Varena × Nat :=
  match varenaFrameTop arena with
  | none => (arena, 3)
  | some src =>
    let frame := loadFrame arena.bytes src
    ({ arena with top := frame.top, bottom := frame.bottom }, 0)

/-- The offset that is returned, if any. -/
def varenaAlloc (arena : Varena) (numBytes : Nat) : Varena × Option Nat :=
  if sizeT (arena.top + numBytes) > sizeT (arena.bottom + (sizeMax - sizeofVarenaFrame)) then
    (arena, none)
  else ({ arena with top := sizeT (arena.top + numBytes) }, some arena.top)

end Dert
