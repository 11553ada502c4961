import Dert.Base.Prelude
import Dert.Library.Probe

namespace Dert

open Library.Probe

abbrev Bytes (n : Nat) := Vector UInt8 n

/-- `keys` and `vals` together: a slot is vacant or holds a key and its value. -/
structure Vht (keySize valSize : Nat) where
  slots : Slots (Bytes keySize) (Bytes valSize)
  len : Nat
  cap : Nat

def vhtHashSaltLenExpected : Nat := 16

def vhtInitialNumElems : Nat := 16

def vhtKeyBfSize : Nat := 1

/-- What the allocator answers in one growth: which requests it grants and what the
memory of the start key held before. -/
structure Vht.Answers (keySize : Nat) where
  keys : Bool
  vals : Bool
  start : Bool
  memory : Bytes keySize

variable {keySize valSize : Nat} (hash : Bytes keySize → UInt64)
  (salt : Bytes vhtHashSaltLenExpected)

def calloc (granted : Bool) (nmemb size : Nat) : Bool := granted && nmemb * size ≤ ptrdiffMax

def vhtHashStart (key : Bytes keySize) : UInt32 × UInt32 :=
  ((hash key).toUInt32, (hash key >>> 32).toUInt32 ||| 1)

def vhtHashNext (offset iterate : UInt32) : UInt32 := offset + iterate

def vhtHashSlot (table : Vht keySize valSize) (offset : UInt32) : Nat := offset.toNat % table.cap

def _vhtInit (valSize : Nat) (answers : Vht.Answers keySize) (numElems : Nat) :
    Option (Vht keySize valSize) :=
  if keySize = 0 ∨ valSize = 0 then none
  else
    let numElems := if numElems = 0 then vhtInitialNumElems else numElems
    if calloc answers.keys numElems (vhtKeyBfSize + keySize) = false then none
    else if calloc answers.vals numElems valSize = false then none
    else some { slots := fun _ => none, len := 0, cap := numElems }

def vhtCreate (valSize : Nat) (answers : Vht.Answers keySize) : Option (Vht keySize valSize) :=
  _vhtInit valSize answers vhtInitialNumElems

def vhtLen (table : Vht keySize valSize) : Nat := table.len

def vhtGetLoop (table : Vht keySize valSize) (key : Bytes keySize) (iterate : UInt32) :
    Nat → UInt32 → Option (Bytes valSize)
  | 0, _ => none
  | remainingGuesses + 1, offset =>
    match table.slots (vhtHashSlot table offset) with
    | none => none
    | some (tableKey, tableVal) =>
      if key = tableKey then some tableVal
      else vhtGetLoop table key iterate remainingGuesses (vhtHashNext offset iterate)

def vhtGetDirect (table : Vht keySize valSize) (key : Bytes keySize) : Option (Bytes valSize) :=
  let (offset, iterate) := vhtHashStart hash key
  vhtGetLoop table key iterate table.cap offset

def vhtGet (table : Vht keySize valSize) (key : Bytes keySize) : Ret × Option (Bytes valSize) :=
  match vhtGetDirect hash table key with
  | none => (.ENODATA, none)
  | some dest => (.ok, some dest)

def vhtSetLoop (table : Vht keySize valSize) (key : Bytes keySize) (src : Bytes valSize)
    (iterate : UInt32) : Nat → UInt32 → Vht keySize valSize × Ret
  | 0, _ => (table, .EXFULL)
  | remainingGuesses + 1, offset =>
    let i := vhtHashSlot table offset
    match table.slots i with
    | none =>
      ({ table with slots := Function.update table.slots i (some (key, src))
                    len := sizeT (table.len + 1) }, .ok)
    | some (tableKey, _) =>
      if key = tableKey then
        ({ table with slots := Function.update table.slots i (some (tableKey, src)) }, .ok)
      else vhtSetLoop table key src iterate remainingGuesses (vhtHashNext offset iterate)

def vhtDelLoop (table : Vht keySize valSize) (key : Bytes keySize) (iterate : UInt32) :
    Nat → UInt32 → Vht keySize valSize × Ret
  | 0, _ => (table, .ENODATA)
  | remainingGuesses + 1, offset =>
    let i := vhtHashSlot table offset
    match table.slots i with
    | none => (table, .ENODATA)
    | some (tableKey, _) =>
      if key = tableKey then
        ({ table with slots := Function.update table.slots i none
                      len := sizeT (table.len + (sizeMax - 1)) }, .ok)
      else vhtDelLoop table key iterate remainingGuesses (vhtHashNext offset iterate)

def vhtDel (table : Vht keySize valSize) (key : Bytes keySize) : Vht keySize valSize × Ret :=
  let (offset, iterate) := vhtHashStart hash key
  vhtDelLoop table key iterate table.cap offset

/-- The start key of the walk in `vht_double`: in each run of 16 bytes the salt covers
`16 % (key_size - i)` of them and the rest is what the memory held. -/
def psuedorandomSequence (memory : Bytes keySize) : Bytes keySize :=
  Vector.ofFn fun i =>
    let inRun := i.val % vhtHashSaltLenExpected
    if inRun < vhtHashSaltLenExpected % (keySize - (i.val - inRun)) then
      salt.get ⟨inRun, Nat.mod_lt _ (by decide)⟩
    else memory[i]

def vhtDoubleLoop (set : Nat → Vht keySize valSize → Bytes keySize → Bytes valSize →
      Option (Vht keySize valSize × Ret))
    (table : Vht keySize valSize) (iterate : UInt32) :
    Nat → UInt32 → Vht keySize valSize → Option (Vht keySize valSize × Ret)
  | 0, _, newTable => some (newTable, .ok)
  | remainingPositions + 1, offset, newTable =>
    let offset := vhtHashNext offset iterate
    match table.slots (vhtHashSlot table offset) with
    | none => vhtDoubleLoop set table iterate remainingPositions offset newTable
    | some (tableKey, tableVal) =>
      match set remainingPositions newTable tableKey tableVal with
      | none => none
      | some (newTable, .ok) => vhtDoubleLoop set table iterate remainingPositions offset newTable
      | some (newTable, _) => some (newTable, .ENOTRECOVERABLE)

def vhtDouble (set : Nat → Vht keySize valSize → Bytes keySize → Bytes valSize →
      Option (Vht keySize valSize × Ret))
    (answers : Vht.Answers keySize) (table : Vht keySize valSize) :
    Option (Vht keySize valSize × Ret) :=
  match _vhtInit valSize answers (sizeT (4 * table.cap)) with
  | none => some (table, .ENOMEM)
  | some newTable =>
    if answers.start = false then some (table, .ENOMEM)
    else
      let (offset, iterate) := vhtHashStart hash (psuedorandomSequence salt answers.memory)
      match vhtDoubleLoop set table iterate table.cap offset newTable with
      | none => none
      | some (newTable, .ok) => some (newTable, .ok)
      | some (_, ret) => some (table, ret)

/-- `vht_set` and `vht_double` call each other; `depth` bounds how deep, and `none` says
that it was too small.  The growth inside the set at position `n` of a walk gets its
answers from the branch `n` of `answers`. -/
def vhtSet : Nat → (List Nat → Vht.Answers keySize) → Vht keySize valSize → Bytes keySize →
    Bytes valSize → Option (Vht keySize valSize × Ret)
  | 0, _, _, _, _ => none
  | depth + 1, answers, table, key, src =>
    let set n newTable := vhtSet depth (fun path => answers (n :: path)) newTable
    let grown :=
      if sizeT (table.len * 4) ≥ table.cap then
        (vhtDouble hash salt set (answers []) table).map Prod.fst
      else some table
    grown.map fun table =>
      let (offset, iterate) := vhtHashStart hash key
      vhtSetLoop table key src iterate table.cap offset

def vhtIterateNextLoop (table : Vht keySize valSize) :
    Nat → Nat → Nat × Ret × Option (Bytes keySize × Bytes valSize)
  | 0, offset => (offset, .ENODATA, none)
  | n + 1, offset =>
    match table.slots (vhtHashSlot table (UInt32.ofNat offset)) with
    | some dest => (offset + 1, .ok, some dest)
    | none => vhtIterateNextLoop table n (offset + 1)

def vhtIterateNext (table : Vht keySize valSize) (offset : Nat) :
    Nat × Ret × Option (Bytes keySize × Bytes valSize) :=
  vhtIterateNextLoop table (table.cap - offset) offset

def vhtIterate (table : Vht keySize valSize) :
    Nat → Nat → List (Bytes keySize × Bytes valSize) × Ret
  | 0, _ => ([], .ok)
  | calls + 1, offset =>
    match vhtIterateNext table offset with
    | (offset, .ok, some dest) =>
      let (dests, ret) := vhtIterate table calls offset
      (dest :: dests, ret)
    | (_, ret, _) => ([], ret)

end Dert
