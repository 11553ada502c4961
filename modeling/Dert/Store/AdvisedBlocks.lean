import Dert.Queue.RawQueueLaws
import Dert.Queue.VstackLaws
import Dert.Store.VpoolLaws
import Dert.Tree.TreeTLaws

namespace Dert

open Library

/-- A block has room for a header and for `cap` elements, and each of these lies in it. -/
structure InBlock (block : Extent) (sizeofHeader cap elemSize : Nat) (address : Nat → Nat) :
    Prop where
  size : sizeofHeader + cap * elemSize ≤ block.size
  header : Extent.Within ⟨block.start, sizeofHeader⟩ block
  elems : ∀ i < cap, Extent.Within ⟨address i, elemSize⟩ block

/-- Whatever block a `create` gets, it holds what later calls use of it. -/
def CreateLaw (create : (Nat → Option Nat) → Ram → Nat → Nat → Ram × Option Nat)
    (advise : Nat → Nat → Nat) (sizeofHeader : Nat) (cap size : Ram → Nat → Nat)
    (address : Ram → Nat → Nat → Nat) (elemSize numElems : Nat) : Prop :=
  ∀ malloc m m' ret, create malloc m elemSize numElems = (m', some ret) →
    ret + advise elemSize numElems ≤ sizeMax →
    InBlock ⟨ret, advise elemSize numElems⟩ sizeofHeader (cap m' ret) (size m' ret) (address m' ret)

variable {sizeofHeader cap elemSize numElems numItems maxNodes : Nat}

theorem inBlock_iff {block : Extent} {address : Nat → Nat}
    (hsize : block.size = sizeT (sizeofHeader + sizeT (cap * elemSize)))
    (haddress : sizeofHeader + cap * elemSize < sizeMax →
      ∀ i < cap, address i = block.start + sizeofHeader + i * elemSize) :
    InBlock block sizeofHeader cap elemSize address ↔ sizeofHeader + cap * elemSize < sizeMax := by
  constructor
  · intro h
    have hroom := h.size
    rw [hsize] at hroom
    exact Nat.lt_of_le_of_lt hroom (sizeT_lt _)
  · intro hfits
    rw [sizeT_of_lt (show cap * elemSize < sizeMax by omega), sizeT_of_lt hfits] at hsize
    refine ⟨Nat.le_of_eq hsize.symm, ⟨Nat.le_refl _, ?_⟩, fun i hi => ?_⟩
    · dsimp only [Extent.stop]
      omega
    · have hle := Nat.mul_le_mul_right elemSize (Nat.succ_le_of_lt hi)
      rw [Nat.succ_mul] at hle
      rw [haddress hfits i hi]
      constructor
      · dsimp only
        omega
      · dsimp only [Extent.stop]
        omega

section Arrays

variable {create : (Nat → Option Nat) → Ram → Nat → Nat → Ram × Option Nat}
  {advise : Nat → Nat → Nat} {capOf sizeOf : Ram → Nat → Nat} {addressOf : Ram → Nat → Nat → Nat}

theorem createLaw_iff
    (hadvise : advise elemSize numElems = sizeT (sizeofHeader + sizeT (numElems * elemSize)))
    (hcreate : ∀ malloc m m' ret, create malloc m elemSize numElems = (m', some ret) →
      capOf m' ret = numElems ∧ sizeOf m' ret = elemSize ∧
        (sizeofHeader + numElems * elemSize < sizeMax → ret + sizeofHeader < sizeMax →
          ∀ i < numElems, addressOf m' ret i = ret + sizeofHeader + i * elemSize))
    (hgrant : ∃ m, (create (fun _ => some 1) m elemSize numElems).2 = some 1)
    (hpos : 0 < numElems * elemSize) :
    CreateLaw create advise sizeofHeader capOf sizeOf addressOf elemSize numElems ↔
      sizeofHeader + numElems * elemSize < sizeMax := by
  have hblock (malloc m m' ret) (h : create malloc m elemSize numElems = (m', some ret))
      (hroom : ret + advise elemSize numElems ≤ sizeMax) :
      InBlock ⟨ret, advise elemSize numElems⟩ sizeofHeader (capOf m' ret) (sizeOf m' ret)
        (addressOf m' ret) ↔ sizeofHeader + numElems * elemSize < sizeMax := by
    obtain ⟨hcap, hsize, haddress⟩ := hcreate malloc m m' ret h
    rw [hcap, hsize]
    refine inBlock_iff hadvise fun hfits => haddress hfits ?_
    rw [hadvise, sizeT_of_lt (show numElems * elemSize < sizeMax by omega), sizeT_of_lt hfits] at hroom
    omega
  constructor
  · intro hlaw
    obtain ⟨m, hret⟩ := hgrant
    have h : create (fun _ => some 1) m elemSize numElems =
        ((create (fun _ => some 1) m elemSize numElems).1, some 1) := Prod.ext rfl hret
    have hroom : 1 + advise elemSize numElems ≤ sizeMax := by
      have hlt : advise elemSize numElems < sizeMax := hadvise ▸ sizeT_lt _
      omega
    exact (hblock _ m _ 1 h hroom).mp (hlaw _ m _ 1 h hroom)
  · intro hfits malloc m m' ret h hroom
    exact (hblock malloc m m' ret h hroom).mpr hfits

theorem field_stored {m : Ram} {object n j value : Nat} {vs : List Nat}
    (h : m.fields object n = vs) (hv : vs[j]? = some (sizeT value)) (hlt : value < sizeMax) :
    m.field object j = value :=
  (Ram.field_eq h hv).trans (sizeT_of_lt hlt)

end Arrays

namespace RawQueue

theorem initMembers_fields_mod (m : Ram) (queue elems elemSize numElems : Nat) :
    (initMembers m queue elems elemSize numElems).fields queue numMembers =
      [sizeT elems, sizeT elemSize, 0, 0, 0, sizeT numElems] := by
  simp only [initMembers, Ram.fields_setField_mod]
  rfl

theorem create_eq {malloc : Nat → Option Nat} {m m' : Ram} {ret : Nat}
    (h : create sizeofHeader malloc m elemSize numElems = (m', some ret)) :
    m'.fields ret numMembers =
      [sizeT (ret + sizeofHeader), sizeT elemSize, 0, 0, 0, sizeT numElems] := by
  rw [create] at h
  split_ifs at h
  · cases h
  · cases hmalloc : malloc (arrayAdvise sizeofHeader elemSize numElems) with
    | none =>
      rw [hmalloc] at h
      cases h
    | some memory =>
      rw [hmalloc] at h
      dsimp only [init] at h
      split_ifs at h
      · cases h
      · obtain ⟨rfl, hret⟩ := Prod.mk.inj h
        obtain rfl := Option.some.inj hret
        exact initMembers_fields_mod ..

theorem create_iff (sizeofHeader : Nat) (hsize : 0 < elemSize) (hsize' : elemSize < sizeMax)
    (hnum : 0 < numElems) (hnum' : numElems < sizeMax) :
    CreateLaw (create sizeofHeader) (arrayAdvise sizeofHeader) sizeofHeader RawQueue.cap
      (fun m queue => m.field queue atElemSize) RawQueue.address elemSize numElems ↔
      sizeofHeader + numElems * elemSize < sizeMax := by
  refine createLaw_iff rfl (fun malloc m m' ret h => ?_) ⟨⟨fun _ => 0, []⟩, ?_⟩
    (Nat.mul_pos hnum hsize)
  · have hfields := create_eq h
    have hcap : m'.field ret atCap = numElems := field_stored hfields rfl hnum'
    have hwidth : m'.field ret atElemSize = elemSize := field_stored hfields rfl hsize'
    refine ⟨hcap, hwidth, fun hfits hblock i hi => ?_⟩
    have helems : m'.field ret atElems = ret + sizeofHeader := field_stored hfields rfl hblock
    have hle := Nat.mul_le_mul_right elemSize (Nat.le_of_lt hi)
    rw [RawQueue.address, wrap, helems, hwidth, hcap, Nat.mod_eq_of_lt hi, Nat.mul_comm elemSize,
      sizeT_of_lt (by omega)]
  · rw [create, if_neg (by omega)]
    dsimp only [init]
    rw [if_neg (by omega)]

end RawQueue

namespace Vstack

theorem vstackMembers_fields_mod (m : Ram) (stack elems elemSize numElems : Nat) :
    (vstackMembers m stack elems elemSize numElems).fields stack numMembers =
      [sizeT elems, sizeT elemSize, 0, sizeT numElems] := by
  simp only [vstackMembers, Ram.fields_setField_mod]
  rfl

theorem create_eq {malloc : Nat → Option Nat} {m m' : Ram} {ret : Nat}
    (h : vstackCreate malloc m elemSize numElems = (m', some ret)) :
    m'.fields ret numMembers = [sizeT (ret + sizeofVstack), sizeT elemSize, 0, sizeT numElems] := by
  rw [vstackCreate] at h
  cases hmalloc : malloc (vstackAdvise elemSize numElems) with
  | none =>
    rw [hmalloc] at h
    cases h
  | some memory =>
    rw [hmalloc] at h
    dsimp only [vstackInit] at h
    split_ifs at h
    · cases h
    · obtain ⟨rfl, hret⟩ := Prod.mk.inj h
      obtain rfl := Option.some.inj hret
      exact vstackMembers_fields_mod ..

def address (m : Ram) (stack i : Nat) : Nat :=
  m.field stack atElems + sizeT (m.field stack atElemSize * i)

theorem create_iff (hsize : 0 < elemSize) (hsize' : elemSize < sizeMax) (hnum : 0 < numElems)
    (hnum' : numElems < sizeMax) :
    CreateLaw vstackCreate vstackAdvise sizeofVstack vstackCap
      (fun m stack => m.field stack atElemSize) address elemSize numElems ↔
      sizeofVstack + numElems * elemSize < sizeMax := by
  have hadvise : vstackAdvise elemSize numElems =
      sizeT (sizeofVstack + sizeT (numElems * elemSize)) := by
    rw [vstackAdvise, Nat.mul_comm]
  refine createLaw_iff hadvise (fun malloc m m' ret h => ?_) ⟨⟨fun _ => 0, []⟩, ?_⟩
    (Nat.mul_pos hnum hsize)
  · have hfields := create_eq h
    have hcap : m'.field ret atCap = numElems := field_stored hfields rfl hnum'
    have hwidth : m'.field ret atElemSize = elemSize := field_stored hfields rfl hsize'
    refine ⟨hcap, hwidth, fun hfits hblock i hi => ?_⟩
    have helems : m'.field ret atElems = ret + sizeofVstack := field_stored hfields rfl hblock
    have hle := Nat.mul_le_mul_right elemSize (Nat.le_of_lt hi)
    rw [address, helems, hwidth, Nat.mul_comm elemSize, sizeT_of_lt (by omega)]
  · rw [vstackCreate]
    dsimp only [vstackInit]
    rw [if_neg (by omega)]
    rfl

end Vstack

section Pools

def VpoolLaw (kind : VpoolKind) (numItems elemSize : Nat) : Prop :=
  ∀ memory memory' pool, vpoolCreate (some pool) memory numItems elemSize kind =
      (memory', some pool) →
    InBlock ⟨pool, vpoolAdvise numItems elemSize⟩ sizeofVpool (memory'.pools pool).capacity
      (memory'.pools pool).elementSize
      fun i => (memory'.pools pool).items + i * (memory'.pools pool).elementSize

theorem vpoolLaw_iff (kind : VpoolKind) (hsize : 0 < elemSize) (hnum : 0 < numItems) :
    VpoolLaw kind numItems elemSize ↔
      sizeofVpool + numItems * max elemSize sizeofPointer < sizeMax := by
  have hblock {memory memory' : VpoolMemory} {pool : Nat}
      (h : vpoolCreate (some pool) memory numItems elemSize kind = (memory', some pool)) :
      InBlock ⟨pool, vpoolAdvise numItems elemSize⟩ sizeofVpool (memory'.pools pool).capacity
          (memory'.pools pool).elementSize
          (fun i => (memory'.pools pool).items + i * (memory'.pools pool).elementSize) ↔
        sizeofVpool + numItems * max elemSize sizeofPointer < sizeMax := by
    obtain ⟨-, rfl⟩ := Vpool.create_eq h
    simp only [Function.update_self]
    exact inBlock_iff (by rw [vpoolAdvise, Vpool.raised]) fun _ _ _ => rfl
  constructor
  · intro hlaw
    have hcreate : ∃ memory', vpoolCreate (some 1)
        ⟨fun _ => ⟨0, 0, 0, 0, 0, .VPOOL_KIND_STATIC, 0⟩, fun _ => 0⟩ numItems elemSize kind =
          (memory', some 1) := by
      have hgood : ¬ (numItems = 0 ∨ elemSize = 0 ∨ kind = .VPOOL_KIND_STATIC ∧ 0 ≠ 0) := by
        omega
      rw [vpoolCreate, _vpoolCreate, if_neg hgood, _vpoolInit, if_neg hgood]
      exact ⟨_, rfl⟩
    obtain ⟨memory', h⟩ := hcreate
    exact (hblock h).mp (hlaw _ _ _ h)
  · intro hfits memory memory' pool h
    exact (hblock h).mpr hfits

end Pools

section Trees

/-- The law for the block that `malloc` gives to `tree_create`, with addresses counted from its
start. -/
def TreeLaw (maxNodes : Nat) : Prop :=
  ∃ tree, treeInit (treeAdvise maxNodes) maxNodes = some (some tree) ∧
    InBlock ⟨0, treeAdvise maxNodes⟩ sizeofTreeTree tree.maxNodes sizeofTreeNode
      (fun node => sizeofTreeTree + node * sizeofTreeNode) ∧
    tree.maxNodes ≤ tree.room

theorem treeLaw_iff (hnum : 0 < maxNodes) :
    TreeLaw maxNodes ↔ sizeofTreeTree + maxNodes * sizeofTreeNode < sizeMax := by
  have hblock : InBlock ⟨0, treeAdvise maxNodes⟩ sizeofTreeTree maxNodes sizeofTreeNode
      (fun node => sizeofTreeTree + node * sizeofTreeNode) ↔
        sizeofTreeTree + maxNodes * sizeofTreeNode < sizeMax :=
    inBlock_iff rfl fun _ _ _ => by rw [Nat.zero_add]
  constructor
  · rintro ⟨tree, hinit, hlaw, -⟩
    rw [treeInit] at hinit
    split_ifs at hinit with hzero
    · simp at hinit
    · obtain rfl := Option.some.inj (Option.some.inj hinit)
      exact hblock.mp hlaw
  · intro hfits
    have hproduct : maxNodes * sizeofTreeNode < sizeMax := by omega
    have hadvise : treeAdvise maxNodes = sizeofTreeTree + maxNodes * sizeofTreeNode := by
      rw [treeAdvise, sizeT_of_lt hproduct, sizeT_of_lt hfits]
    refine ⟨_, by rw [treeInit, if_neg (by omega), if_neg (by omega)], hblock.mpr hfits, ?_⟩
    change maxNodes ≤ (treeAdvise maxNodes - sizeofTreeTree) / sizeofTreeNode
    rw [hadvise, Nat.add_sub_cancel_left, Nat.mul_div_cancel _ (by decide)]

end Trees

/-- The block of each of the five structures holds all of it just where the sum of its header and
its elements is no more than a `size_t` can hold. -/
theorem advised_iff (kind : VpoolKind) (hsize : 0 < elemSize) (hsize' : elemSize < sizeMax)
    (hnum : 0 < numElems) (hnum' : numElems < sizeMax) :
    (CreateLaw RawQueue.vqueueCreate vqueueAdvise sizeofVqueue RawQueue.vqueueCap
        (fun m queue => m.field queue RawQueue.atElemSize) RawQueue.address elemSize numElems ↔
      sizeofVqueue + numElems * elemSize < sizeMax) ∧
    (CreateLaw RawQueue.aqueueCreate aqueueAdvise sizeofAqueue RawQueue.aqueueCap
        (fun m queue => m.field queue RawQueue.atElemSize) RawQueue.address elemSize numElems ↔
      sizeofAqueue + numElems * elemSize < sizeMax) ∧
    (CreateLaw vstackCreate vstackAdvise sizeofVstack vstackCap
        (fun m stack => m.field stack Vstack.atElemSize) Vstack.address elemSize numElems ↔
      sizeofVstack + numElems * elemSize < sizeMax) ∧
    (VpoolLaw kind numElems elemSize ↔
      sizeofVpool + numElems * max elemSize sizeofPointer < sizeMax) ∧
    (TreeLaw numElems ↔ sizeofTreeTree + numElems * sizeofTreeNode < sizeMax) :=
  ⟨RawQueue.create_iff sizeofVqueue hsize hsize' hnum hnum',
    RawQueue.create_iff sizeofAqueue hsize hsize' hnum hnum',
    Vstack.create_iff hsize hsize' hnum hnum', vpoolLaw_iff kind hsize hnum, treeLaw_iff hnum⟩

theorem advised_four :
    (CreateLaw RawQueue.vqueueCreate vqueueAdvise sizeofVqueue RawQueue.vqueueCap
        (fun m queue => m.field queue RawQueue.atElemSize) RawQueue.address 8 4 ↔
      sizeofVqueue + 4 * 8 < sizeMax) ∧
    (CreateLaw RawQueue.aqueueCreate aqueueAdvise sizeofAqueue RawQueue.aqueueCap
        (fun m queue => m.field queue RawQueue.atElemSize) RawQueue.address 8 4 ↔
      sizeofAqueue + 4 * 8 < sizeMax) ∧
    (CreateLaw vstackCreate vstackAdvise sizeofVstack vstackCap
        (fun m stack => m.field stack Vstack.atElemSize) Vstack.address 8 4 ↔
      sizeofVstack + 4 * 8 < sizeMax) ∧
    (VpoolLaw .VPOOL_KIND_DYNAMIC 4 8 ↔ sizeofVpool + 4 * max 8 sizeofPointer < sizeMax) ∧
    (TreeLaw 4 ↔ sizeofTreeTree + 4 * sizeofTreeNode < sizeMax) :=
  advised_iff .VPOOL_KIND_DYNAMIC (by decide) (by decide) (by decide) (by decide)

/-- A queue for `2 ^ 61` elements of eight bytes asks for its header alone. -/
theorem not_advised_wrapped :
    vqueueAdvise 8 (2 ^ 61) = sizeofVqueue ∧
      ¬ CreateLaw RawQueue.vqueueCreate vqueueAdvise sizeofVqueue RawQueue.vqueueCap
        (fun m queue => m.field queue RawQueue.atElemSize) RawQueue.address 8 (2 ^ 61) := by
  refine ⟨by decide, fun hlaw => ?_⟩
  have hfits := (RawQueue.create_iff sizeofVqueue (by decide) (by decide) (by decide)
    (by decide)).mp hlaw
  exact absurd hfits (by decide)

end Dert
