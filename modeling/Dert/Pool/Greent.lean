import Dert.Base.Prelude
import Dert.Library.Tag

namespace Dert

open Library

def greentPack (greenThread : BitVec 64) (withTimeout something somethingElse : Bool) :
    Option (Ret × Option (BitVec 64)) :=
  if greenThread = 0 then some (.EINVAL, none)
  else if greenThread % 8 ≠ 0 then none
  else
    let withTimeout := if withTimeout then 1#64 <<< 2 else 0#64
    let something := if something then 1#64 <<< 1 else 0#64
    let somethingElse := if somethingElse then 1#64 <<< 0 else 0#64
    some (.ok, some (greenThread ||| withTimeout ||| something ||| somethingElse))

def greentUnpack (taggedPtr : BitVec 64) : Ret × Option (BitVec 64 × Bool × Bool × Bool) :=
  if taggedPtr = 0 then (.EINVAL, none)
  else
    let withTimeoutMask := 1#64 <<< 2
    let somethingMask := 1#64 <<< 1
    let somethingElseMask := 1#64 <<< 0
    let greenThreadMask :=
      0xffffffffffffffff#64 ^^^ (withTimeoutMask ||| somethingMask ||| somethingElseMask)
    (.ok, some (taggedPtr &&& greenThreadMask, taggedPtr &&& withTimeoutMask ≠ 0,
      taggedPtr &&& somethingMask ≠ 0, taggedPtr &&& somethingElseMask ≠ 0))

namespace Greent

variable {p x : BitVec 64}

def tagMask : BitVec 64 := 7

def tagOf (withTimeout something somethingElse : Bool) : BitVec 64 :=
  (if withTimeout then 1#64 <<< 2 else 0#64) ||| (if something then 1#64 <<< 1 else 0#64) |||
    if somethingElse then 1#64 <<< 0 else 0#64

theorem and_tagMask (p : BitVec 64) : p &&& tagMask = p % 8 := by
  refine BitVec.eq_of_toNat_eq ?_
  rw [BitVec.toNat_and, BitVec.toNat_umod]
  exact Nat.and_two_pow_sub_one_eq_mod p.toNat 3

theorem pack_eq (hnull : p ≠ 0) (halign : p % 8 = 0) (a b c : Bool) :
    greentPack p a b c = some (.ok, some (p ||| tagOf a b c)) := by
  rw [greentPack, if_neg hnull, if_neg (not_not.mpr halign)]
  simp only [tagOf, BitVec.or_assoc]

theorem unpack_eq (hx : x ≠ 0) :
    greentUnpack x = (.ok, some (x &&& ~~~tagMask, decide (x &&& 4 ≠ 0), decide (x &&& 2 ≠ 0),
      decide (x &&& 1 ≠ 0))) := by
  rw [greentUnpack, if_neg hx]
  rfl

theorem tagOf_and (a b c : Bool) : tagOf a b c &&& tagMask = tagOf a b c := by
  cases a <;> cases b <;> cases c <;> decide

theorem unpack_pack (hnull : p ≠ 0) (halign : p % 8 = 0) (a b c : Bool) :
    ∃ x, greentPack p a b c = some (.ok, some x) ∧ greentUnpack x = (.ok, some (p, a, b, c)) := by
  have hmask : p &&& tagMask = 0#64 := (and_tagMask p).trans halign
  have hpointer := Tag.pointer hmask (tagOf_and a b c)
  have htag (bit : BitVec 64) (hbit : bit &&& tagMask = bit) := Tag.tag (t := tagOf a b c) hmask hbit
  have hword : p ||| tagOf a b c ≠ 0 := by
    intro hzero
    rw [hzero] at hpointer
    exact hnull (hpointer.symm.trans BitVec.zero_and)
  refine ⟨_, pack_eq hnull halign a b c, ?_⟩
  rw [unpack_eq hword, hpointer, htag 4 (by decide), htag 2 (by decide), htag 1 (by decide)]
  cases a <;> cases b <;> cases c <;> rfl

theorem pack_unpack {a b c : Bool} (hx : greentUnpack x = (.ok, some (p, a, b, c))) (hp : p ≠ 0) :
    greentPack p a b c = some (.ok, some x) := by
  have hnull : x ≠ 0 := by
    rintro rfl
    cases hx
  rw [unpack_eq hnull] at hx
  simp only [Prod.mk.injEq, Option.some.injEq, true_and] at hx
  obtain ⟨rfl, rfl, rfl, rfl⟩ := hx
  have halign : (x &&& ~~~tagMask) % 8 = 0 := by
    rw [← and_tagMask, BitVec.and_assoc, BitVec.not_and_self]
    exact BitVec.and_zero
  have htag : tagOf (decide (x &&& 4 ≠ 0)) (decide (x &&& 2 ≠ 0)) (decide (x &&& 1 ≠ 0)) =
      x &&& tagMask := by
    have htimeout : (if x &&& 4 ≠ 0 then 1#64 <<< 2 else 0#64) = x &&& 4 :=
      Tag.and_twoPow_eq_ite x 2
    have hsomething : (if x &&& 2 ≠ 0 then 1#64 <<< 1 else 0#64) = x &&& 2 :=
      Tag.and_twoPow_eq_ite x 1
    have helse : (if x &&& 1 ≠ 0 then 1#64 <<< 0 else 0#64) = x &&& 1 :=
      Tag.and_twoPow_eq_ite x 0
    simp only [tagOf, decide_eq_true_eq, htimeout, hsomething, helse]
    rw [← BitVec.and_or_distrib_left, ← BitVec.and_or_distrib_left]
    rfl
  rw [pack_eq hp halign, htag, Tag.join]

end Greent

end Dert
