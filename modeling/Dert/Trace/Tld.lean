import Mathlib.Data.List.Basic
import Mathlib.Data.List.TakeWhile

namespace Dert

structure CString where
  bytes : List UInt8
  nonzero : (0 : UInt8) ∉ bytes

def underscore : UInt8 := 95

/-- A `char` is signed, and widened with its sign. -/
def charToSize (c : UInt8) : UInt64 := c.toInt8.toInt64.toUInt64

def mtTldDumbHashStep (result : UInt64) (c : UInt8) : UInt64 :=
  (result ^^^ ((result <<< 1) + charToSize c)) % ((1 : UInt64) <<< 15)

/-- `mt_tld_dumb_hash`, of the bytes from an address on, as the body computes it: a build that
acts on its `__attribute__((const))` may drop the stores to the bytes it reads. -/
def mtTldDumbHash (str : List UInt8) : UInt64 :=
  (str.takeWhile (· ≠ 0)).foldl mtTldDumbHashStep 0

theorem mtTldDumbHash_lt (str : List UInt8) : (mtTldDumbHash str).toNat < 1 <<< 15 := by
  have hfold (l : List UInt8) (result : UInt64) (h : result.toNat < 1 <<< 15) :
      (l.foldl mtTldDumbHashStep result).toNat < 1 <<< 15 := by
    induction l generalizing result with
    | nil => exact h
    | cons c l ih =>
      exact ih _ (Nat.mod_lt _ (by decide))
  exact hfold _ 0 (by decide)

abbrev MtTldDumb := Fin (1 <<< 15) → Bool

def dumbIndex (str : List UInt8) : Fin (1 <<< 15) :=
  ⟨(mtTldDumbHash str).toNat, mtTldDumbHash_lt str⟩

def enter (dumb : MtTldDumb) (str : List UInt8) : MtTldDumb :=
  Function.update dumb (dumbIndex str) true

namespace Tld

variable {str written rest : List UInt8} {dumb : MtTldDumb}

def joined (names : List CString) : List UInt8 :=
  [underscore].intercalate ((names.map CString.bytes).takeWhile (· ≠ []))

section Buffer

end Buffer

section Hyphens

end Hyphens

section Concat

end Concat

end Tld

end Dert
