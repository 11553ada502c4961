import Dert.Base.Prelude
import Dert.Library.Cyclic

namespace Dert

open Library Library.Cyclic

inductive FqueueRet
  | ok
  | ERR_QUEUE_INVALID_SIZE
  | ERR_QUEUE_CANNOT_READ_QUANTITY
  | ERR_QUEUE_CANNOT_WRITE_QUANTITY
  | ERR_QUEUE_FILE_IO
  | ERR_QUEUE_FILE_READ_INCOMPLETE
  | ERR_QUEUE_FILE_WRITE_INCOMPLETE
  deriving DecidableEq

/-- The queue but for its file, which its calls are given besides; `bytes` is a block of `cap`
bytes. -/
structure Fqueue where
  bytes : Nat → UInt8
  writeCursor : Nat
  readCursor : Nat
  cap : Nat

/-- What is read from the block and what is written to it, none where this leaves it. -/
def Fqueue.load (queue : Fqueue) (pos size : Nat) : Option (List UInt8) :=
  if pos + size ≤ queue.cap then some (copyOut queue.bytes pos size) else none

def Fqueue.store (queue : Fqueue) (pos : Nat) (data : List UInt8) : Option Fqueue :=
  if pos + data.length ≤ queue.cap then some { queue with bytes := copyIn queue.bytes pos data }
  else none

/-- The file of a queue: the bytes that have been passed, the ones from there to the end, and the
error indicator. -/
structure File where
  passed : List UInt8
  ahead : List UInt8
  error : Bool
  deriving DecidableEq

/-- `fread` gets less than it asks for at the end of the file. -/
def fread (file : File) (size : Nat) : File × List UInt8 :=
  let data := file.ahead.take size
  ({ file with passed := file.passed ++ data, ahead := file.ahead.drop size }, data)

/-- `fwrite`, which answers that it has written `written` of the bytes. -/
def fwrite (file : File) (data : List UInt8) (written : Nat) : File where
  passed := file.passed ++ data.take written
  ahead := file.ahead.drop written
  error := file.error || decide (written < data.length)

/-- `fqueue_init`, where `granted` says whether `calloc` has the block. -/
def fqueueInit (granted : Bool) (numBytes : Nat) : Option Fqueue :=
  if numBytes = 0 then none
  else if granted then
    some { bytes := fun _ => 0, writeCursor := 0, readCursor := 0, cap := numBytes }
  else none

def fqueueUsed (queue : Fqueue) : Nat := sizeT (queue.writeCursor + (sizeMax - queue.readCursor))

def fqueueUnused (queue : Fqueue) : Nat := sizeT (queue.cap + (sizeMax - queue.writeCursor))

def fqueueDequeue (store : Fqueue) (size : Nat) : Option (Fqueue × FqueueRet × List UInt8) :=
  if size = 0 then some (store, .ERR_QUEUE_INVALID_SIZE, [])
  else if size > fqueueUsed store then some (store, .ERR_QUEUE_CANNOT_WRITE_QUANTITY, [])
  else do
    let data ← store.load store.readCursor size
    some ({ store with readCursor := sizeT (store.readCursor + size) }, .ok, data)

def fqueueEnqueue (store : Fqueue) (data : List UInt8) : Option (Fqueue × FqueueRet) :=
  if data.length = 0 then some (store, .ERR_QUEUE_INVALID_SIZE)
  else if data.length > fqueueUnused store then some (store, .ERR_QUEUE_CANNOT_READ_QUANTITY)
  else do
    let store ← store.store store.writeCursor data
    some ({ store with writeCursor := sizeT (store.writeCursor + data.length) }, .ok)

def fqueueExchange (readQueue writeQueue : Fqueue) (size : Nat) :
    Option (Fqueue × Fqueue × FqueueRet) :=
  if size = 0 then some (readQueue, writeQueue, .ERR_QUEUE_INVALID_SIZE)
  else if size > fqueueUsed readQueue then
    some (readQueue, writeQueue, .ERR_QUEUE_CANNOT_READ_QUANTITY)
  else if size > fqueueUnused writeQueue then
    some (readQueue, writeQueue, .ERR_QUEUE_CANNOT_WRITE_QUANTITY)
  else do
    let data ← readQueue.load readQueue.readCursor size
    let writeQueue ← writeQueue.store writeQueue.writeCursor data
    some ({ readQueue with readCursor := sizeT (readQueue.readCursor + size) },
      { writeQueue with writeCursor := sizeT (writeQueue.writeCursor + size) }, .ok)

/-- `fqueue_fold_down`; `memmove` reads all before it writes. -/
def fqueueFoldDown (store : Fqueue) : Option (Fqueue × FqueueRet) :=
  let diff := sizeT (store.writeCursor + (sizeMax - store.readCursor))
  if diff > sizeT (1 + store.cap / 2) then some (store, .ERR_QUEUE_CANNOT_WRITE_QUANTITY)
  else do
    let data ← store.load store.readCursor diff
    let store ← store.store 0 data
    some ({ store with writeCursor := diff, readCursor := 0 }, .ok)

/-- What has been read stays in the block also where it is not all that was asked for. -/
def fqueueFenqueue (store : Fqueue) (file : File) (size : Nat) :
    Option (Fqueue × File × FqueueRet) :=
  if size = 0 then some (store, file, .ERR_QUEUE_INVALID_SIZE)
  else if size > fqueueUnused store then some (store, file, .ERR_QUEUE_CANNOT_READ_QUANTITY)
  else if file.error then some (store, file, FqueueRet.ERR_QUEUE_FILE_IO)
  else do
    let (file, data) := fread file size
    let store ← store.store store.writeCursor data
    if data.length ≠ size then some (store, file, .ERR_QUEUE_FILE_READ_INCOMPLETE)
    else some ({ store with writeCursor := sizeT (store.writeCursor + data.length) }, file, .ok)

/-- `write` is what `fwrite` answers. -/
def fqueueFdequeue (store : Fqueue) (file : File) (size write : Nat) :
    Option (Fqueue × File × FqueueRet) :=
  if size = 0 then some (store, file, .ERR_QUEUE_INVALID_SIZE)
  else if size > fqueueUsed store then some (store, file, .ERR_QUEUE_CANNOT_WRITE_QUANTITY)
  else if file.error then some (store, file, FqueueRet.ERR_QUEUE_FILE_IO)
  else do
    let difference := sizeT (store.writeCursor + (sizeMax - store.readCursor))
    let size := if size > difference then difference else size
    let data ← store.load 0 size
    let file := fwrite file data write
    if write ≠ size then some (store, file, .ERR_QUEUE_FILE_WRITE_INCOMPLETE)
    else
      let writeCursor := sizeT (store.writeCursor + (sizeMax - difference))
      some ({ store with writeCursor }, file, .ok)

def fqueueRewindReadCursor (store : Fqueue) (back : Nat) : Fqueue × FqueueRet :=
  if back = 0 then (store, .ERR_QUEUE_INVALID_SIZE)
  else if store.readCursor < back then (store, .ERR_QUEUE_CANNOT_WRITE_QUANTITY)
  else ({ store with readCursor := store.readCursor - back }, .ok)

def fqueueRewindWriteCursor (store : Fqueue) (back : Nat) : Fqueue × FqueueRet :=
  if back = 0 then (store, .ERR_QUEUE_INVALID_SIZE)
  else if store.writeCursor < back then (store, .ERR_QUEUE_CANNOT_WRITE_QUANTITY)
  else
    let writeCursor := store.writeCursor - back
    if writeCursor < store.readCursor then
      ({ store with writeCursor, readCursor := writeCursor }, .ok)
    else ({ store with writeCursor }, .ok)

end Dert
