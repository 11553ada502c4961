import Mathlib.Algebra.Order.Ring.Nat

namespace Dert

/-- What the library's functions return: zero, or the errno they name. -/
inductive Ret
  | ok
  | EINVAL
  | ENOMEM
  | ENOTRECOVERABLE
  | EXFULL
  | ENODATA
  | EBUSY
  deriving DecidableEq

def sizeMax : Nat := 2 ^ 64

/-- `size_t` arithmetic keeps the low 64 bits. -/
def sizeT (n : Nat) : Nat := n % sizeMax

theorem sizeT_of_lt {n : Nat} (h : n < sizeMax) : sizeT n = n := Nat.mod_eq_of_lt h

theorem sizeT_le (n : Nat) : sizeT n ≤ n := Nat.mod_le n sizeMax

theorem sizeT_lt (n : Nat) : sizeT n < sizeMax := Nat.mod_lt n (by decide)

theorem sizeT_sub {n k : Nat} (hk : k ≤ n) (hn : n < sizeMax) :
    sizeT (n + (sizeMax - k)) = n - k := by
  rw [sizeT, show n + (sizeMax - k) = n - k + sizeMax by omega, Nat.add_mod_right,
    Nat.mod_eq_of_lt (by omega)]

/-- The largest size the allocator grants. -/
def ptrdiffMax : Nat := 2 ^ 63 - 1

/-- `atomic_compare_exchange_strong`: whether it succeeded, the word afterwards and
the caller's `expected` afterwards, which a failure overwrites with the word. -/
def compareExchange (word expected desired : UInt32) : Bool × UInt32 × UInt32 :=
  if word = expected then (true, desired, expected) else (false, word, word)

end Dert
