import Dert.Library.Chain
import Dert.Store.Vdll
import Mathlib.Data.Finset.Card

universe u

namespace Dert

open Library

variable {Elem : Type u}

def Vdll.nextOf (dll : Vdll Elem) (node : Nat) : Option Nat := (dll.nodes node).map VdllNode.next

def Vdll.prevOf (dll : Vdll Elem) (node : Nat) : Option Nat := (dll.nodes node).map VdllNode.prev

def Vdll.dataOf (dll : Vdll Elem) (node : Nat) : Option Elem := (dll.nodes node).map VdllNode.data

namespace Vdll

variable {dll dll' : Vdll Elem} {l : List Nat} {node new pos pointer i left : Nat}

section Views

theorem nextOf_update (o : Option (VdllNode Elem)) :
    Vdll.nextOf { dll with nodes := Function.update dll.nodes node o } =
      Function.update dll.nextOf node (o.map VdllNode.next) := by
  funext z
  simp only [Vdll.nextOf, Function.update_apply]
  split_ifs <;> rfl

theorem prevOf_update (o : Option (VdllNode Elem)) :
    Vdll.prevOf { dll with nodes := Function.update dll.nodes node o } =
      Function.update dll.prevOf node (o.map VdllNode.prev) := by
  funext z
  simp only [Vdll.prevOf, Function.update_apply]
  split_ifs <;> rfl

theorem dataOf_update (o : Option (VdllNode Elem)) :
    Vdll.dataOf { dll with nodes := Function.update dll.nodes node o } =
      Function.update dll.dataOf node (o.map VdllNode.data) := by
  funext z
  simp only [Vdll.dataOf, Function.update_apply]
  split_ifs <;> rfl

theorem exists_node : (dll.dataOf node).isSome = true ↔ ∃ n, dll.nodes node = some n := by
  simp [Vdll.dataOf, Option.isSome_iff_exists]

def cursor (dll : Vdll Elem) : Nat × Nat × Nat := (dll.ptr, dll.pos, dll.cap)

theorem setPrev_spec (dll : Vdll Elem) (h : (dll.dataOf node).isSome = true) (pointer : Nat) :
    ∃ dll', dll.setPrev node pointer = some dll' ∧ dll'.cursor = dll.cursor ∧
      dll'.nextOf = dll.nextOf ∧ dll'.prevOf = Function.update dll.prevOf node (some pointer) ∧
      dll'.dataOf = dll.dataOf := by
  obtain ⟨n, hn⟩ := exists_node.mp h
  refine ⟨{ dll with nodes := Function.update dll.nodes node (some { n with prev := pointer }) },
    by rw [Vdll.setPrev, hn]; rfl, rfl, ?_, ?_, ?_⟩
  · rw [nextOf_update]
    exact Function.update_eq_self_iff.mpr (by simp [Vdll.nextOf, hn])
  · rw [prevOf_update]
    rfl
  · rw [dataOf_update]
    exact Function.update_eq_self_iff.mpr (by simp [Vdll.dataOf, hn])

theorem setNext_spec (dll : Vdll Elem) (h : (dll.dataOf node).isSome = true) (pointer : Nat) :
    ∃ dll', dll.setNext node pointer = some dll' ∧ dll'.cursor = dll.cursor ∧
      dll'.nextOf = Function.update dll.nextOf node (some pointer) ∧ dll'.prevOf = dll.prevOf ∧
      dll'.dataOf = dll.dataOf := by
  obtain ⟨n, hn⟩ := exists_node.mp h
  refine ⟨{ dll with nodes := Function.update dll.nodes node (some { n with next := pointer }) },
    by rw [Vdll.setNext, hn]; rfl, rfl, ?_, ?_, ?_⟩
  · rw [nextOf_update]
    rfl
  · rw [prevOf_update]
    exact Function.update_eq_self_iff.mpr (by simp [Vdll.prevOf, hn])
  · rw [dataOf_update]
    exact Function.update_eq_self_iff.mpr (by simp [Vdll.dataOf, hn])

theorem setPrev_unless (dll : Vdll Elem) (h : node ≠ 0 → (dll.dataOf node).isSome = true)
    (pointer : Nat) :
    ∃ dll', dll.setPrevUnless node pointer = some dll' ∧
      dll'.cursor = dll.cursor ∧ dll'.nextOf = dll.nextOf ∧
      dll'.prevOf =
        (if node = 0 then dll.prevOf else Function.update dll.prevOf node (some pointer)) ∧
      dll'.dataOf = dll.dataOf := by
  by_cases hnode : node = 0
  · simp only [Vdll.setPrevUnless, if_pos hnode]
    exact ⟨dll, rfl, rfl, rfl, rfl, rfl⟩
  · simp only [Vdll.setPrevUnless, if_neg hnode]
    exact setPrev_spec dll (h hnode) pointer

theorem setNext_unless (dll : Vdll Elem) (h : node ≠ 0 → (dll.dataOf node).isSome = true)
    (pointer : Nat) :
    ∃ dll', dll.setNextUnless node pointer = some dll' ∧
      dll'.cursor = dll.cursor ∧
      dll'.nextOf =
        (if node = 0 then dll.nextOf else Function.update dll.nextOf node (some pointer)) ∧
      dll'.prevOf = dll.prevOf ∧ dll'.dataOf = dll.dataOf := by
  by_cases hnode : node = 0
  · simp only [Vdll.setNextUnless, if_pos hnode]
    exact ⟨dll, rfl, rfl, rfl, rfl, rfl⟩
  · simp only [Vdll.setNextUnless, if_neg hnode]
    exact setNext_spec dll (h hnode) pointer

end Views

/-- The nodes in memory are those of one chain, the list counts them, and its pointer is to
the node at its position. -/
structure Shape (dll : Vdll Elem) (l : List Nat) : Prop where
  chain : Chain 0 dll.nextOf dll.prevOf l
  nodes : ∀ node, node ∈ l ↔ (dll.dataOf node).isSome = true
  bound : ∀ node ∈ l, node < sizeMax
  cap : dll.cap = l.length
  cursor : l = [] ∧ dll.pos = 0 ∧ dll.ptr = 0 ∨ l[dll.pos]? = some dll.ptr

section Walk

def moveTo (dll : Vdll Elem) (l : List Nat) (pos : Nat) : Vdll Elem :=
  { dll with ptr := l[pos]?.getD 0, pos }

variable (h : Chain 0 dll.nextOf dll.prevOf l)
include h

theorem next_node (hx : l[i]? = some node) :
    ∃ n, dll.nodes node = some n ∧ n.next = l[i + 1]?.getD 0 :=
  Option.map_eq_some_iff.mp (h.next_getElem? hx)

theorem prev_node (hx : l[i + 1]? = some node) :
    ∃ n, dll.nodes node = some n ∧ n.prev = l[i]?.getD 0 :=
  Option.map_eq_some_iff.mp (h.prev_getElem? hx)

/-- The cursor may even step off the last node, on to NULL. -/
theorem windLoop_eq {cap : Nat} (hsize : l.length < sizeMax) (hcap : i + left < cap)
    (hlast : pos + left ≤ l.length) :
    vdllWindLoop cap left i (moveTo dll l pos) = some (moveTo dll l (pos + left), i + left) := by
  induction left generalizing i pos with
  | zero => rfl
  | succ left ih =>
    have hpos : pos < l.length := by omega
    have hx : l[pos]? = some l[pos] := List.getElem?_eq_getElem hpos
    obtain ⟨n, hn, hnext⟩ := next_node h hx
    have hnode : (moveTo dll l pos).nodes (moveTo dll l pos).ptr = some n := by
      simpa [moveTo, hx] using hn
    have hmove : ({ moveTo dll l pos with ptr := n.next, pos := sizeT ((moveTo dll l pos).pos + 1) } :
        Vdll Elem) = moveTo dll l (pos + 1) := by
      simp only [moveTo, hnext, sizeT_of_lt (show pos + 1 < sizeMax by omega)]
    rw [vdllWindLoop, if_pos (by omega), hnode, Option.bind_eq_bind, Option.bind_some, hmove,
      ih (by omega) (by omega)]
    rw [Nat.add_right_comm pos, Nat.add_right_comm i, Nat.add_assoc pos, Nat.add_assoc i]

theorem rewindLoop_eq (hpos : pos + left < l.length) :
    vdllRewindLoop left (moveTo dll l (pos + left)) = some (moveTo dll l pos, 0) := by
  induction left with
  | zero => rfl
  | succ left ih =>
    have hx : l[pos + left + 1]? = some l[pos + left + 1] := List.getElem?_eq_getElem hpos
    obtain ⟨n, hn, hprev⟩ := prev_node h hx
    have hnode : (moveTo dll l (pos + (left + 1))).nodes (moveTo dll l (pos + (left + 1))).ptr =
        some n := by
      simpa [moveTo, ← Nat.add_assoc, hx] using hn
    have hmove : ({ moveTo dll l (pos + (left + 1)) with
        ptr := n.prev, pos := (moveTo dll l (pos + (left + 1))).pos - 1 } : Vdll Elem) =
        moveTo dll l (pos + left) := by
      simp only [moveTo, hprev]
      rfl
    have hmoved : 0 < (moveTo dll l (pos + (left + 1))).pos := Nat.succ_pos _
    rw [vdllRewindLoop, if_pos hmoved, hnode, Option.bind_eq_bind, Option.bind_some, hmove,
      ih (by omega)]

end Walk

/-- There are not as many addresses as a `size_t` has values, for none is zero. -/
theorem addresses_lt (hnodup : l.Nodup) (hreal : 0 ∉ l) (hbound : ∀ node ∈ l, node < sizeMax) :
    l.length < sizeMax := by
  have hsub : (0 :: l).toFinset ⊆ Finset.range sizeMax := fun x hx => by
    rw [List.mem_toFinset, List.mem_cons] at hx
    rw [Finset.mem_range]
    rcases hx with rfl | hx
    · decide
    · exact hbound x hx
  have hcard := Finset.card_le_card hsub
  rw [List.toFinset_card_of_nodup (List.nodup_cons.mpr ⟨hreal, hnodup⟩),
    Finset.card_range, List.length_cons] at hcard
  exact hcard

namespace Shape

theorem length_lt (h : Shape dll l) : l.length < sizeMax :=
  addresses_lt h.chain.nodup h.chain.real h.bound

theorem ptr_eq (h : Shape dll l) : l[dll.pos]?.getD 0 = dll.ptr := by
  rcases h.cursor with ⟨rfl, -, hptr⟩ | hptr
  · exact hptr.symm
  · rw [hptr]
    rfl

theorem moveTo_self (h : Shape dll l) : moveTo dll l dll.pos = dll := by rw [moveTo, h.ptr_eq]

theorem pos_lt (h : Shape dll l) (hne : l ≠ []) : dll.pos < l.length :=
  (List.getElem?_eq_some_iff.mp (h.cursor.resolve_left fun he => hne he.1)).1

theorem ptr_ne_zero (h : Shape dll l) (hne : l ≠ []) : dll.ptr ≠ 0 := by
  have hptr := h.cursor.resolve_left fun he => hne he.1
  exact fun heq => h.chain.real (heq ▸ List.mem_of_getElem? hptr)

theorem moved (h : Shape dll l) (hpos : pos < l.length) : Shape (moveTo dll l pos) l :=
  ⟨h.chain, h.nodes, h.bound, h.cap, Or.inr (by simp [moveTo, List.getElem?_eq_getElem hpos])⟩

theorem wind_eq (h : Shape dll l) (hne : l ≠ []) (hlast : dll.pos + i < l.length) :
    vdllWind dll i = some (moveTo dll l (dll.pos + i), 0) := by
  have hcap : 0 + i < dll.cap := by
    rw [h.cap]
    omega
  have hloop := windLoop_eq h.chain h.length_lt hcap (Nat.le_of_lt hlast)
  rw [h.moveTo_self] at hloop
  rw [vdllWind, if_neg (h.ptr_ne_zero hne), hloop]
  simp

theorem rewind_eq (h : Shape dll l) (hne : l ≠ []) (hle : i ≤ dll.pos) :
    vdllRewind dll i = some (moveTo dll l (dll.pos - i), 0) := by
  have hpos := h.pos_lt hne
  have hloop : vdllRewindLoop i (moveTo dll l (dll.pos - i + i)) =
      some (moveTo dll l (dll.pos - i), 0) := rewindLoop_eq h.chain (by omega)
  rw [Nat.sub_add_cancel hle, h.moveTo_self] at hloop
  rw [vdllRewind, if_neg (h.ptr_ne_zero hne), hloop]
  simp

theorem seek_eq (h : Shape dll l) (hpos : pos < l.length ∨ l = [] ∧ pos = 0) :
    vdllSeek dll pos = some (moveTo dll l pos, 0) := by
  have hrange : ¬ (¬ (dll.pos = 0 ∧ dll.cap = 0 ∧ pos = 0) ∧ dll.cap ≤ pos) := by
    rw [h.cap]
    rcases hpos with hpos | ⟨hnil, rfl⟩
    · omega
    · have hzero : dll.pos = 0 := (h.cursor.resolve_right (by simp [hnil])).2.1
      simp [hnil, hzero]
  rw [vdllSeek, if_neg hrange]
  rcases Nat.lt_trichotomy dll.pos pos with hlt | rfl | hlt
  · have hne : l ≠ [] := fun hnil => by simp [hnil] at hpos; omega
    have hpos := hpos.resolve_right fun he => hne he.1
    have hwind := h.wind_eq (i := pos - dll.pos) hne (by omega)
    rw [Nat.add_sub_cancel' (Nat.le_of_lt hlt)] at hwind
    rw [if_pos hlt, hwind]
    rfl
  · rw [if_neg (Nat.lt_irrefl _), if_neg (Nat.lt_irrefl _), h.moveTo_self]
    rfl
  · have hne : l ≠ [] := fun hnil => by
      have hzero : dll.pos = 0 := (h.cursor.resolve_right (by simp [hnil])).2.1
      omega
    have hrewind := h.rewind_eq (i := dll.pos - pos) hne (Nat.sub_le _ _)
    rw [Nat.sub_sub_self (Nat.le_of_lt hlt)] at hrewind
    rw [if_neg (Nat.not_lt.mpr (Nat.le_of_lt hlt)), if_pos hlt, hrewind]
    rfl

end Shape

section Unlink

theorem Shape.split (h : Shape dll l) (hne : l ≠ []) :
    l = l.take dll.pos ++ dll.ptr :: l.drop (dll.pos + 1) := by
  obtain ⟨hlt, hptr⟩ := List.getElem?_eq_some_iff.mp (h.cursor.resolve_left fun he => hne he.1)
  rw [← hptr]
  simp

theorem destroyed (dll : Vdll Elem) (node : Nat) :
    (vdllNodeDestroy dll node).nextOf = Function.update dll.nextOf node none ∧
      (vdllNodeDestroy dll node).prevOf = Function.update dll.prevOf node none ∧
      (vdllNodeDestroy dll node).dataOf = Function.update dll.dataOf node none :=
  ⟨nextOf_update none, prevOf_update none, dataOf_update none⟩

theorem join_spec (dll : Vdll Elem) {prev next : Nat} (hprev : prev ≠ 0 → (dll.dataOf prev).isSome = true)
    (hnext : next ≠ 0 → (dll.dataOf next).isSome = true) :
    ∃ dll', vdllJoin dll prev next = some dll' ∧
      dll'.cursor = (if prev = 0 then next else prev, dll.pos, dll.cap) ∧
      dll'.nextOf = (if prev = 0 then dll.nextOf else Function.update dll.nextOf prev (some next)) ∧
      dll'.prevOf = (if next = 0 then dll.prevOf else Function.update dll.prevOf next (some prev)) ∧
      dll'.dataOf = dll.dataOf := by
  rw [vdllJoin]
  by_cases hp : prev = 0
  · by_cases hn : next = 0
    · refine ⟨{ dll with ptr := 0 }, if_pos ⟨hp, hn⟩, ?_, (if_pos hp).symm, (if_pos hn).symm, rfl⟩
      rw [if_pos hp, hn]
      rfl
    · obtain ⟨d, hd, hcursor, hdnext, hdprev, hdata⟩ :=
        setPrev_spec { dll with ptr := next } (hnext hn) 0
      refine ⟨d, ?_, ?_, ?_, ?_, hdata⟩
      · rw [if_neg fun hboth => hn hboth.2, if_pos hp, hd]
      · rw [if_pos hp]
        exact hcursor
      · rw [if_pos hp]
        exact hdnext
      · rw [if_neg hn, hp]
        exact hdprev
  · by_cases hn : next = 0
    · obtain ⟨d, hd, hcursor, hdnext, hdprev, hdata⟩ :=
        setNext_spec { dll with ptr := prev } (hprev hp) 0
      refine ⟨d, ?_, ?_, ?_, ?_, hdata⟩
      · rw [if_neg fun hboth => hp hboth.1, if_neg hp, if_pos hn, hd]
      · rw [if_neg hp]
        exact hcursor
      · rw [if_neg hp, hn]
        exact hdnext
      · rw [if_pos hn]
        exact hdprev
    · obtain ⟨d, hd, hcursor, hdnext, hdprev, hdata⟩ := setNext_spec dll (hprev hp) next
      obtain ⟨e, he, hcursor', henext, heprev, hedata⟩ :=
        setPrev_spec d (by rw [hdata]; exact hnext hn) prev
      refine ⟨{ e with ptr := prev }, ?_, ?_, ?_, ?_, hedata.trans hdata⟩
      · rw [if_neg fun hboth => hp hboth.1, if_neg hp, if_neg hn, hd, Option.bind_eq_bind,
          Option.bind_some, he]
        rfl
      · rw [if_neg hp]
        have hsame := hcursor'.trans hcursor
        simp only [Vdll.cursor, Prod.mk.injEq] at hsame ⊢
        exact ⟨trivial, hsame.2⟩
      · rw [if_neg hp]
        exact henext.trans hdnext
      · rw [if_neg hn]
        exact heprev.trans (by rw [hdprev])

theorem node_links {r : List Nat} (h : Shape dll (l ++ node :: r)) :
    ∃ n, dll.nodes node = some n ∧ n.prev = Chain.before 0 l ∧ n.next = Chain.after 0 r := by
  obtain ⟨n, hn⟩ := exists_node.mp ((h.nodes node).mp (by simp))
  have hprev := h.chain.prev_eq
  have hnext := h.chain.next_eq
  rw [Vdll.prevOf, hn] at hprev
  rw [Vdll.nextOf, hn] at hnext
  exact ⟨n, hn, Option.some.inj hprev, Option.some.inj hnext⟩

theorem neighbours {r : List Nat} (h : Shape dll (l ++ node :: r)) :
    (Chain.before 0 l ≠ 0 → Chain.before 0 l ∈ l ++ r ∧ Chain.before 0 l ≠ node) ∧
      (Chain.after 0 r ≠ 0 → Chain.after 0 r ∈ l ++ r ∧ Chain.after 0 r ≠ node) := by
  obtain ⟨hnode, -⟩ := List.nodup_cons.mp (List.perm_middle.nodup_iff.mp h.chain.nodup)
  constructor
  · intro hne
    have hmem := List.mem_append_left r (Chain.before_mem hne)
    exact ⟨hmem, fun heq => hnode (heq ▸ hmem)⟩
  · intro hne
    have hmem := List.mem_append_right l (Chain.after_mem hne)
    exact ⟨hmem, fun heq => hnode (heq ▸ hmem)⟩

theorem cursor_moves {A : List Nat} (hreal : 0 ∉ A) (B : List Nat) :
    let ptr := if Chain.before 0 A = 0 then Chain.after 0 B else Chain.before 0 A
    A ++ B = [] ∧ A.length - 1 = 0 ∧ ptr = 0 ∨ (A ++ B)[A.length - 1]? = some ptr := by
  rcases List.eq_nil_or_concat A with rfl | ⟨A, y, rfl⟩
  · cases B with
    | nil => exact Or.inl ⟨rfl, rfl, rfl⟩
    | cons y B => exact Or.inr rfl
  · have hy : Chain.before 0 (A.concat y) = y := by
      rw [List.concat_eq_append]
      exact Chain.before_append A y
    have hne : y ≠ 0 := fun heq => hreal (by simp [← heq])
    refine Or.inr ?_
    rw [hy, if_neg hne]
    simp

theorem unlink_split {A B : List Nat} (h : Shape dll (A ++ dll.ptr :: B))
    (hpos : A.length = dll.pos) :
    ∃ dll', vdllUnlink dll = some dll' ∧ Shape dll' (A ++ B) ∧ dll'.pos = dll.pos - 1 ∧
      dll'.dataOf = Function.update dll.dataOf dll.ptr none := by
  obtain ⟨n, hn, hprev, hnext⟩ := node_links h
  obtain ⟨hbefore, hafter⟩ := neighbours h
  obtain ⟨hnextOf, hprevOf, hdataOf⟩ := destroyed dll dll.ptr
  obtain ⟨hptr, -⟩ := List.nodup_cons.mp (List.perm_middle.nodup_iff.mp h.chain.nodup)
  have hother {z : Nat} (hz : z ∈ A ++ B) : z ≠ dll.ptr := fun heq => hptr (heq ▸ hz)
  have hold {z : Nat} (hz : z ∈ A ++ B) : z ∈ A ++ dll.ptr :: B :=
    List.perm_middle.mem_iff.mpr (List.mem_cons_of_mem _ hz)
  have hdata {z : Nat} (hz : z ∈ A ++ B) :
      ((vdllNodeDestroy dll dll.ptr).dataOf z).isSome = true := by
    rw [hdataOf, Function.update_of_ne (hother hz)]
    exact (h.nodes z).mp (hold hz)
  obtain ⟨d, hd, hcursor, hdnext, hdprev, hddata⟩ := join_spec (vdllNodeDestroy dll dll.ptr)
    (fun hne => hdata (hbefore hne).1) (fun hne => hdata (hafter hne).1)
  simp only [Vdll.cursor, Prod.mk.injEq] at hcursor
  obtain ⟨hdptr, hdpos, hdcap⟩ := hcursor
  refine ⟨{ d with pos := d.pos - 1, cap := d.cap - 1 }, ?_,
    ⟨?_, fun z => ?_, fun z hz => ?_, ?_, ?_⟩, by rw [hdpos]; rfl, hddata.trans hdataOf⟩
  · rw [vdllUnlink, hn, Option.bind_eq_bind, Option.bind_some, hprev, hnext, hd]
    rfl
  · refine h.chain.remove (fun hne => ?_) (fun hne => ?_) (fun z hz hne => ?_) fun z hz hne => ?_
    · change d.nextOf _ = _
      rw [hdnext, if_neg hne, Function.update_self]
    · change d.prevOf _ = _
      rw [hdprev, if_neg hne, Function.update_self]
    · change d.nextOf z = _
      rw [hdnext, hnextOf]
      split_ifs
      · exact Function.update_of_ne (hother hz) _ _
      · rw [Function.update_of_ne hne, Function.update_of_ne (hother hz)]
    · change d.prevOf z = _
      rw [hdprev, hprevOf]
      split_ifs
      · exact Function.update_of_ne (hother hz) _ _
      · rw [Function.update_of_ne hne, Function.update_of_ne (hother hz)]
  · change z ∈ A ++ B ↔ (d.dataOf z).isSome = true
    rw [hddata]
    refine ⟨hdata, fun hz => ?_⟩
    by_cases heq : z = dll.ptr
    · rw [hdataOf, heq, Function.update_self] at hz
      cases hz
    · rw [hdataOf, Function.update_of_ne heq, ← h.nodes z, List.perm_middle.mem_iff] at hz
      exact (List.mem_cons.mp hz).resolve_left heq
  · exact h.bound z (hold hz)
  · have hcap := h.cap
    rw [List.length_append, List.length_cons] at hcap
    rw [List.length_append]
    change d.cap - 1 = _
    rw [hdcap]
    change dll.cap - 1 = _
    omega
  · change A ++ B = [] ∧ d.pos - 1 = 0 ∧ d.ptr = 0 ∨ (A ++ B)[d.pos - 1]? = some d.ptr
    have hreal : 0 ∉ A := fun hzero => h.chain.real (List.mem_append_left _ hzero)
    have hcursor := cursor_moves hreal B
    rw [hpos, ← hdptr] at hcursor
    rw [hdpos]
    exact hcursor

theorem Shape.unlink (h : Shape dll l) (hne : l ≠ []) :
    ∃ dll', vdllUnlink dll = some dll' ∧ Shape dll' (l.eraseIdx dll.pos) ∧
      dll'.pos = dll.pos - 1 ∧ dll'.dataOf = Function.update dll.dataOf dll.ptr none := by
  have hlength : (l.take dll.pos).length = dll.pos := by
    have hlt := h.pos_lt hne
    rw [List.length_take]
    omega
  have hsplit : Shape dll (l.take dll.pos ++ dll.ptr :: l.drop (dll.pos + 1)) := by
    rwa [← h.split hne]
  rw [List.eraseIdx_eq_take_drop_succ]
  exact unlink_split hsplit hlength

theorem cut_eraseIdx {α : Type*} (l : List α) {p n : Nat} (hn : n < l.length) (hp : p < l.length) :
    (l.eraseIdx p).take (p - 1 + 1 - n) ++ (l.eraseIdx p).drop (p - 1 + 1 - n + n) =
      l.take (p + 1 - (n + 1)) ++ l.drop (p + 1 - (n + 1) + (n + 1)) := by
  rw [Nat.add_sub_add_right]
  cases n with
  | zero =>
    rw [Nat.sub_zero, Nat.add_zero, List.take_append_drop, List.eraseIdx_eq_take_drop_succ]
    rfl
  | succ n =>
    rw [Nat.add_sub_add_right, Nat.sub_sub, Nat.add_comm 1 n, List.eraseIdx_eq_take_drop_succ,
      List.take_append_of_le_length (by rw [List.length_take]; omega), List.take_take,
      Nat.min_eq_left (by omega), List.drop_append, List.length_take, List.drop_drop,
      List.drop_take]
    congr 1
    rcases Nat.lt_or_ge p (n + 1) with hlt | hge
    · rw [Nat.sub_eq_zero_of_le (Nat.le_of_lt hlt), Nat.sub_eq_zero_of_le (by omega),
        List.take_zero, List.nil_append]
      congr 1
      omega
    · rw [Nat.sub_add_cancel hge, Nat.sub_self, List.take_zero, List.nil_append]
      congr 1
      omega

theorem Shape.deleteLoop (h : Shape dll l) {n : Nat} (hn : n ≤ l.length) :
    ∃ dll', vdllDeleteLoop n dll = some dll' ∧
      Shape dll' (l.take (dll.pos + 1 - n) ++ l.drop (dll.pos + 1 - n + n)) ∧
      ∀ node, (dll'.dataOf node).isSome = true → dll'.dataOf node = dll.dataOf node := by
  induction n generalizing dll l with
  | zero =>
    refine ⟨dll, rfl, ?_, fun node _ => rfl⟩
    rw [Nat.sub_zero, Nat.add_zero, List.take_append_drop]
    exact h
  | succ n ih =>
    have hne : l ≠ [] := fun hnil => by simp [hnil] at hn
    obtain ⟨d, hd, hshape, hdpos, hddata⟩ := h.unlink hne
    have hlength := List.length_eraseIdx_of_lt (h.pos_lt hne)
    obtain ⟨dll', hloop, hshape', hdata⟩ := ih hshape (by omega)
    rw [hdpos, cut_eraseIdx l hn (h.pos_lt hne)] at hshape'
    refine ⟨dll', ?_, hshape', fun node hnode => ?_⟩
    · rw [vdllDeleteLoop, hd, Option.bind_eq_bind, Option.bind_some, hloop]
    · have hsame := hdata node hnode
      rw [hsame, hddata]
      refine Function.update_of_ne (fun heq => ?_) _ _
      rw [hsame, hddata, heq, Function.update_self] at hnode
      cases hnode

theorem Shape.delete (h : Shape dll l) {n : Nat} (hn : n ≠ 0) (hrange : pos + n ≤ l.length) :
    ∃ dll', vdllDelete dll pos n = some (dll', 0) ∧
      Shape dll' (l.take (pos + 1 - n) ++ l.drop (pos + 1 - n + n)) ∧
      ∀ node, (dll'.dataOf node).isSome = true → dll'.dataOf node = dll.dataOf node := by
  have hpos : pos < l.length := by omega
  have hne : l ≠ [] := List.ne_nil_of_length_pos (by omega)
  have hmoved := h.moved hpos
  have hend : pos + (n - 1) < l.length := by omega
  have hwind : vdllWind (moveTo dll l pos) (n - 1) = some (moveTo dll l (pos + (n - 1)), 0) :=
    hmoved.wind_eq hne hend
  have hrewind : vdllRewind (moveTo dll l (pos + (n - 1))) (n - 1) = some (moveTo dll l pos, 0) := by
    have hback := (h.moved hend).rewind_eq (i := n - 1) hne (Nat.le_add_left _ _)
    rw [hback]
    simp [moveTo]
  obtain ⟨dll', hloop, hshape, hdata⟩ := hmoved.deleteLoop (n := n) (by omega)
  refine ⟨dll', ?_, hshape, hdata⟩
  rw [vdllDelete, if_neg hn, h.seek_eq (Or.inl hpos)]
  simp [hwind, hrewind, hloop]

end Unlink

section Link

structure Between (dll dll' : Vdll Elem) (u v new : Nat) (data : Elem) : Prop where
  next_new : dll'.nextOf new = some v
  prev_new : dll'.prevOf new = some u
  next_left : u ≠ 0 → dll'.nextOf u = some new
  prev_right : v ≠ 0 → dll'.prevOf v = some new
  next_other : ∀ z, z ≠ new → z ≠ u → dll'.nextOf z = dll.nextOf z
  prev_other : ∀ z, z ≠ new → z ≠ v → dll'.prevOf z = dll.prevOf z
  data : dll'.dataOf = Function.update dll.dataOf new (some data)

variable {data : Elem}

theorem created (dll : Vdll Elem) (new : Nat) (data : Elem) :
    (vdllNodeCreate dll new data).nextOf = Function.update dll.nextOf new (some 0) ∧
      (vdllNodeCreate dll new data).prevOf = Function.update dll.prevOf new (some 0) ∧
      (vdllNodeCreate dll new data).dataOf = Function.update dll.dataOf new (some data) :=
  ⟨nextOf_update _, prevOf_update _, dataOf_update _⟩

theorem created_beside (data : Elem) {n : VdllNode Elem} (hnew : new ≠ dll.ptr)
    (hn : dll.nodes dll.ptr = some n) :
    (vdllNodeCreate dll new data).nodes dll.ptr = some n ∧
      ((vdllNodeCreate dll new data).dataOf new).isSome = true ∧
      ((vdllNodeCreate dll new data).dataOf dll.ptr).isSome = true := by
  have hnode : (vdllNodeCreate dll new data).nodes dll.ptr = some n :=
    (Function.update_of_ne hnew.symm _ _).trans hn
  refine ⟨hnode, ?_, exists_node.mpr ⟨n, hnode⟩⟩
  rw [(created dll new data).2.2, Function.update_self]
  rfl

theorem assigned {f g : Nat → Option Nat} {x : Option Nat} {p q : Nat} (hp : p ≠ 0 → p ≠ new)
    (hg : g = if p = 0 then Function.update (Function.update f new x) new (some q)
      else Function.update (Function.update (Function.update f new x) new (some q)) p (some new)) :
    g new = some q ∧ (p ≠ 0 → g p = some new) ∧ ∀ z, z ≠ new → z ≠ p → g z = f z := by
  by_cases hzero : p = 0
  · rw [if_pos hzero] at hg
    refine ⟨hg ▸ Function.update_self .., fun hne => absurd hzero hne, fun z hz _ => ?_⟩
    rw [hg, Function.update_of_ne hz, Function.update_of_ne hz]
  · rw [if_neg hzero] at hg
    refine ⟨?_, fun _ => hg ▸ Function.update_self .., fun z hz hzp => ?_⟩
    · rw [hg, Function.update_of_ne (hp hzero).symm, Function.update_self]
    · rw [hg, Function.update_of_ne hzp, Function.update_of_ne hz, Function.update_of_ne hz]

theorem link_empty (after : Bool) (new : Nat) (data : Elem) (hptr : dll.ptr = 0) :
    ∃ dll', vdllLink after (vdllNodeCreate dll new data) new = some dll' ∧
      dll'.cursor = (new, dll.pos, dll.cap) ∧ Between dll dll' 0 0 new data := by
  obtain ⟨hcnext, hcprev, hcdata⟩ := created dll new data
  refine ⟨{ vdllNodeCreate dll new data with ptr := new }, if_pos hptr, rfl, ?_⟩
  constructor
  · exact (congrFun hcnext new).trans (Function.update_self ..)
  · exact (congrFun hcprev new).trans (Function.update_self ..)
  · exact fun h => absurd rfl h
  · exact fun h => absurd rfl h
  · exact fun z hz _ => (congrFun hcnext z).trans (Function.update_of_ne hz ..)
  · exact fun z hz _ => (congrFun hcprev z).trans (Function.update_of_ne hz ..)
  · exact hcdata

theorem link_behind (data : Elem) {n : VdllNode Elem} (hptr : dll.ptr ≠ 0) (hnew : new ≠ dll.ptr)
    (hn : dll.nodes dll.ptr = some n)
    (hnext : n.next ≠ 0 → n.next ≠ new ∧ (dll.dataOf n.next).isSome = true) :
    ∃ dll', vdllLink false (vdllNodeCreate dll new data) new = some dll' ∧
      dll'.cursor = dll.cursor ∧ Between dll dll' dll.ptr n.next new data := by
  obtain ⟨hcnext, hcprev, hcdata⟩ := created dll new data
  obtain ⟨hnode, hnewdata, hptrdata⟩ := created_beside data hnew hn
  obtain ⟨d, hd, hdcursor, hdnext, hdprev, hddata⟩ := setPrev_spec _ hnewdata dll.ptr
  rw [← hddata] at hnewdata hptrdata
  obtain ⟨e, he, hecursor, henext, heprev, hedata⟩ := setNext_spec d hnewdata n.next
  rw [← hedata] at hptrdata
  obtain ⟨f, hf, hfcursor, hfnext, hfprev, hfdata⟩ := setPrev_unless e (fun hne => by
    rw [hedata, hddata, hcdata, Function.update_of_ne (hnext hne).1]
    exact (hnext hne).2) new
  rw [← hfdata] at hptrdata
  obtain ⟨g, hg, hgcursor, hgnext, hgprev, hgdata⟩ := setNext_spec f hptrdata new
  have hcursor : g.cursor = dll.cursor :=
    hgcursor.trans (hfcursor.trans (hecursor.trans hdcursor))
  rw [hfnext, henext, hdnext, hcnext] at hgnext
  rw [hfprev, heprev, hdprev, hcprev] at hgprev
  rw [hfdata, hedata, hddata, hcdata] at hgdata
  have hfptr : f.ptr = dll.ptr :=
    congrArg Prod.fst (hfcursor.trans (hecursor.trans hdcursor))
  refine ⟨g, ?_, hcursor, ?_⟩
  · have hptr' : (vdllNodeCreate dll new data).ptr ≠ 0 := hptr
    rw [vdllLink, if_neg hptr']
    simp only [Option.bind_eq_bind, Bool.false_eq_true, if_false]
    rw [show (vdllNodeCreate dll new data).ptr = dll.ptr from rfl, hnode, Option.bind_some, hd,
      Option.bind_some, he, Option.bind_some, hf, Option.bind_some, hfptr, hg]
  · obtain ⟨hnext_new, hnext_left, hnext_other⟩ :=
      assigned (fun _ => hnew.symm) (hgnext.trans (if_neg hptr).symm)
    obtain ⟨hprev_new, hprev_right, hprev_other⟩ := assigned (fun hne => (hnext hne).1) hgprev
    exact ⟨hnext_new, hprev_new, hnext_left, hprev_right, hnext_other, hprev_other, hgdata⟩

theorem link_ahead (data : Elem) {n : VdllNode Elem} (hptr : dll.ptr ≠ 0) (hnew : new ≠ dll.ptr)
    (hn : dll.nodes dll.ptr = some n)
    (hprev : n.prev ≠ 0 → n.prev ≠ new ∧ (dll.dataOf n.prev).isSome = true) :
    ∃ dll', vdllLink true (vdllNodeCreate dll new data) new = some dll' ∧
      dll'.cursor = (new, dll.pos, dll.cap) ∧ Between dll dll' n.prev dll.ptr new data := by
  obtain ⟨hcnext, hcprev, hcdata⟩ := created dll new data
  obtain ⟨hnode, hnewdata, hptrdata⟩ := created_beside data hnew hn
  obtain ⟨d, hd, hdcursor, hdnext, hdprev, hddata⟩ := setPrev_spec _ hnewdata n.prev
  rw [← hddata] at hnewdata hptrdata
  have hdptr : d.ptr = dll.ptr := congrArg Prod.fst hdcursor
  obtain ⟨e, he, hecursor, henext, heprev, hedata⟩ := setNext_spec d hnewdata dll.ptr
  rw [← hedata] at hptrdata
  obtain ⟨f, hf, hfcursor, hfnext, hfprev, hfdata⟩ := setNext_unless e (fun hne => by
    rw [hedata, hddata, hcdata, Function.update_of_ne (hprev hne).1]
    exact (hprev hne).2) new
  rw [← hfdata] at hptrdata
  obtain ⟨g, hg, hgcursor, hgnext, hgprev, hgdata⟩ := setPrev_spec f hptrdata new
  have hcursor : g.cursor = dll.cursor :=
    hgcursor.trans (hfcursor.trans (hecursor.trans hdcursor))
  have hfptr : f.ptr = dll.ptr :=
    congrArg Prod.fst (hfcursor.trans (hecursor.trans hdcursor))
  rw [hfnext, henext, hdnext, hcnext] at hgnext
  rw [hfprev, heprev, hdprev, hcprev] at hgprev
  rw [hfdata, hedata, hddata, hcdata] at hgdata
  refine ⟨{ g with ptr := new }, ?_, ?_, ?_⟩
  · have hptr' : (vdllNodeCreate dll new data).ptr ≠ 0 := hptr
    rw [vdllLink, if_neg hptr']
    simp only [Option.bind_eq_bind, if_true]
    rw [show (vdllNodeCreate dll new data).ptr = dll.ptr from rfl, hnode, Option.bind_some, hd,
      Option.bind_some, hdptr, he, Option.bind_some, hf, Option.bind_some, hfptr, hg]
    rfl
  · simp only [Vdll.cursor, Prod.mk.injEq] at hcursor ⊢
    exact ⟨trivial, hcursor.2⟩
  · obtain ⟨hnext_new, hnext_left, hnext_other⟩ := assigned (fun hne => (hprev hne).1) hgnext
    obtain ⟨hprev_new, hprev_right, hprev_other⟩ :=
      assigned (fun _ => hnew.symm) (hgprev.trans (if_neg hptr).symm)
    exact ⟨hnext_new, hprev_new, hnext_left, hprev_right, hnext_other, hprev_other, hgdata⟩

structure Unused (dll : Vdll Elem) (new : Nat) : Prop where
  real : new ≠ 0
  bound : new < sizeMax
  free : dll.nodes new = none

theorem Unused.not_mem (hnew : Unused dll new) (h : Shape dll l) : new ∉ l := fun hmem => by
  obtain ⟨n, hn⟩ := exists_node.mp ((h.nodes new).mp hmem)
  rw [hnew.free] at hn
  cases hn

theorem Shape.linked {A B : List Nat} (h : Shape dll (A ++ B)) (hnew : Unused dll new)
    (hb : Between dll dll' (Chain.before 0 A) (Chain.after 0 B) new data)
    (hcap : dll'.cap = dll.cap) (hcursor : (A ++ new :: B)[dll'.pos]? = some dll'.ptr) :
    Shape { dll' with cap := sizeT (dll'.cap + 1) } (A ++ new :: B) := by
  have hfresh := hnew.not_mem h
  have hne {z : Nat} (hz : z ∈ A ++ B) : z ≠ new := fun heq => hfresh (heq ▸ hz)
  have hchain : Chain 0 dll'.nextOf dll'.prevOf (A ++ new :: B) :=
    h.chain.insert hfresh hnew.real hb.next_left hb.prev_new hb.next_new hb.prev_right
      (fun z hz hz' => hb.next_other z (hne hz) hz') fun z hz hz' => hb.prev_other z (hne hz) hz'
  have hbound : ∀ z ∈ A ++ new :: B, z < sizeMax := fun z hz => by
    rcases List.mem_cons.mp (List.perm_middle.mem_iff.mp hz) with rfl | hz
    · exact hnew.bound
    · exact h.bound z hz
  have hlength : (A ++ new :: B).length = (A ++ B).length + 1 := by
    simp only [List.length_append, List.length_cons]
    omega
  refine ⟨hchain, fun z => ?_, hbound, ?_, Or.inr hcursor⟩
  · change z ∈ A ++ new :: B ↔ (dll'.dataOf z).isSome = true
    rw [hb.data, List.perm_middle.mem_iff, List.mem_cons, h.nodes z]
    by_cases heq : z = new
    · rw [heq, Function.update_self]
      exact iff_of_true (Or.inl rfl) rfl
    · rw [Function.update_of_ne heq, or_iff_right heq]
  · have hlt := addresses_lt hchain.nodup hchain.real hbound
    rw [hlength] at hlt ⊢
    change sizeT (dll'.cap + 1) = _
    rw [hcap, h.cap, sizeT_of_lt hlt]

def place (after : Bool) (pos : Nat) : Nat := if after then pos else pos + 1

theorem Shape.link (h : Shape dll l) (hnew : Unused dll new) (after : Bool) (data : Elem) :
    ∃ dll', vdllLink after (vdllNodeCreate dll new data) new = some dll' ∧
      Shape { dll' with cap := sizeT (dll'.cap + 1) }
        (l.take (place after dll.pos) ++ new :: l.drop (place after dll.pos)) ∧
      dll'.pos = dll.pos ∧ dll'.dataOf = Function.update dll.dataOf new (some data) := by
  by_cases hne : l = []
  · subst hne
    obtain ⟨-, hpos, hptr⟩ := h.cursor.resolve_right (by simp)
    obtain ⟨d, hd, hcursor, hb⟩ := link_empty after new data hptr
    simp only [Vdll.cursor, Prod.mk.injEq] at hcursor
    obtain ⟨hdptr, hdpos, hdcap⟩ := hcursor
    refine ⟨d, hd, ?_, hdpos, hb.data⟩
    rw [List.take_nil, List.drop_nil]
    refine Shape.linked (A := []) (B := []) h hnew hb hdcap ?_
    rw [hdpos, hdptr, hpos]
    rfl
  · have hptr := h.ptr_ne_zero hne
    have hsplit := h.split hne
    have hlength : (l.take dll.pos).length = dll.pos := by
      have hlt := h.pos_lt hne
      rw [List.length_take]
      omega
    have hshape : Shape dll (l.take dll.pos ++ dll.ptr :: l.drop (dll.pos + 1)) := hsplit ▸ h
    have hfresh := hnew.not_mem hshape
    have hnewptr : new ≠ dll.ptr := fun heq => hfresh (by simp [heq])
    obtain ⟨n, hn, hprev, hnext⟩ := node_links hshape
    obtain ⟨hbefore, hafter⟩ := neighbours hshape
    have hneighbour {z : Nat} (hz : z ∈ l.take dll.pos ++ l.drop (dll.pos + 1)) :
        z ≠ new ∧ (dll.dataOf z).isSome = true := by
      have hmem := List.perm_middle.mem_iff.mpr (List.mem_cons_of_mem dll.ptr hz)
      exact ⟨fun heq => hfresh (heq ▸ hmem), (hshape.nodes z).mp hmem⟩
    cases after with
    | false =>
      obtain ⟨d, hd, hcursor, hb⟩ := link_behind data hptr hnewptr hn fun hne => by
        rw [hnext] at hne ⊢
        exact hneighbour (hafter hne).1
      simp only [Vdll.cursor, Prod.mk.injEq] at hcursor
      obtain ⟨hdptr, hdpos, hdcap⟩ := hcursor
      have htake : l.take (dll.pos + 1) = l.take dll.pos ++ [dll.ptr] := by
        rw [List.take_add_one, h.cursor.resolve_left fun he => hne he.1]
        rfl
      have hshape' : Shape dll (l.take (dll.pos + 1) ++ l.drop (dll.pos + 1)) := by
        rwa [List.take_append_drop]
      have hbefore' : Chain.before 0 (l.take (dll.pos + 1)) = dll.ptr := by
        rw [htake, Chain.before_append]
      rw [hnext, ← hbefore'] at hb
      refine ⟨d, hd, hshape'.linked hnew hb hdcap ?_, hdpos, hb.data⟩
      rw [hdpos, hdptr, htake, List.append_assoc, List.getElem?_append_right (by omega), hlength]
      simp
    | true =>
      obtain ⟨d, hd, hcursor, hb⟩ := link_ahead data hptr hnewptr hn fun hne => by
        rw [hprev] at hne ⊢
        exact hneighbour (hbefore hne).1
      simp only [Vdll.cursor, Prod.mk.injEq] at hcursor
      obtain ⟨hdptr, hdpos, hdcap⟩ := hcursor
      have hdrop : l.drop dll.pos = dll.ptr :: l.drop (dll.pos + 1) := by
        have hsame := List.take_append_drop dll.pos l
        nth_rewrite 3 [hsplit] at hsame
        exact List.append_cancel_left hsame
      have hshape' : Shape dll (l.take dll.pos ++ l.drop dll.pos) := by
        rwa [List.take_append_drop]
      have hafter' : Chain.after 0 (l.drop dll.pos) = dll.ptr := by
        rw [hdrop]
        rfl
      rw [hprev, ← hafter'] at hb
      refine ⟨d, hd, hshape'.linked hnew hb hdcap ?_, hdpos, hb.data⟩
      rw [hdpos, hdptr, List.getElem?_append_right (by omega), hlength, Nat.sub_self]
      rfl

def Granted (dll : Vdll Elem) (answers : VdllAnswers Elem) (n : Nat) : Prop :=
  ∀ i < n, ∃ answer ∈ answers i, Unused dll answer.1 ∧
    ∀ j < i, (answers j).map Prod.fst ≠ some answer.1

theorem placed_again {α β : Type*} (f : α → β) (l : List β) (k : Nat) (x : α) (fresh : List α) :
    ∃ fresh' : List α, fresh'.Perm (x :: fresh) ∧
      (l.take k ++ f x :: l.drop k).take k ++ fresh.map f ++ (l.take k ++ f x :: l.drop k).drop k =
        l.take k ++ fresh'.map f ++ l.drop k := by
  rcases Nat.lt_or_ge l.length k with hk | hk
  · refine ⟨x :: fresh, List.Perm.refl _, ?_⟩
    rw [List.take_of_length_le (Nat.le_of_lt hk), List.drop_eq_nil_of_le (Nat.le_of_lt hk),
      List.take_of_length_le (by simpa using Nat.succ_le_of_lt hk),
      List.drop_eq_nil_of_le (by simpa using Nat.succ_le_of_lt hk)]
    simp
  · refine ⟨fresh ++ [x], List.perm_append_singleton _ _, ?_⟩
    rw [List.take_append_of_le_length (by rw [List.length_take]; omega), List.take_take,
      Nat.min_self, List.drop_append_of_le_length (by rw [List.length_take]; omega),
      List.drop_take, Nat.sub_self, List.take_zero]
    simp

theorem Shape.insertLoop (h : Shape dll l) (after : Bool) (pos : Nat) {answers : VdllAnswers Elem}
    (hanswers : ∀ j < i + left, i ≤ j → ∃ answer ∈ answers j, Unused dll answer.1 ∧
      ∀ k < j, i ≤ k → (answers k).map Prod.fst ≠ some answer.1) :
    ∃ (dll' : Vdll Elem) (fresh : List (Nat × Elem)),
      vdllInsertLoop after answers pos left i dll = some (dll', 0) ∧
      fresh.Perm ((List.range' i left).filterMap answers) ∧ fresh.length = left ∧
      Shape dll' (l.take (place after dll.pos) ++ fresh.map Prod.fst ++
        l.drop (place after dll.pos)) ∧
      (∀ e ∈ fresh, dll'.dataOf e.1 = some e.2) ∧ ∀ z ∈ l, dll'.dataOf z = dll.dataOf z := by
  induction left generalizing i dll l with
  | zero =>
    refine ⟨dll, [], rfl, List.Perm.refl _, rfl, ?_, nofun, fun z _ => rfl⟩
    rw [List.map_nil, List.append_nil, List.take_append_drop]
    exact h
  | succ left ih =>
    obtain ⟨⟨new, data⟩, hanswer, hnew, -⟩ := hanswers i (by omega) (Nat.le_refl i)
    obtain ⟨d, hd, hshape, hdpos, hddata⟩ := h.link hnew after data
    have hrest : ∀ j < i + 1 + left, i + 1 ≤ j → ∃ answer ∈ answers j,
        Unused { d with cap := sizeT (d.cap + 1) } answer.1 ∧
          ∀ k < j, i + 1 ≤ k → (answers k).map Prod.fst ≠ some answer.1 := by
      intro j hj hij
      obtain ⟨answer, hanswer', hunused, hother⟩ := hanswers j (by omega) (by omega)
      refine ⟨answer, hanswer', ⟨hunused.real, hunused.bound, ?_⟩,
        fun k hk hik => hother k hk (by omega)⟩
      have hne : answer.1 ≠ new := fun heq => by
        refine hother i (by omega) (Nat.le_refl i) ?_
        rw [Option.mem_def.mp hanswer, heq]
        rfl
      have hnone : d.dataOf answer.1 = none := by
        rw [hddata, Function.update_of_ne hne, Vdll.dataOf, hunused.free]
        rfl
      exact Option.map_eq_none_iff.mp hnone
    obtain ⟨dll', fresh, hloop, hperm, hlength, hshape', hfresh, hold⟩ := ih hshape hrest
    have hnodup : new ∉ l := hnew.not_mem h
    have hanswers' : (List.range' i (left + 1)).filterMap answers =
        (new, data) :: (List.range' (i + 1) left).filterMap answers := by
      rw [List.range'_succ, List.filterMap_cons_some hanswer]
    have hdata : dll'.dataOf new = some data := by
      rw [hold new (by simp)]
      change d.dataOf new = _
      rw [hddata, Function.update_self]
    have hkept : ∀ z ∈ l, dll'.dataOf z = dll.dataOf z := fun z hz => by
      have hmem : z ∈ l.take (place after dll.pos) ++ new :: l.drop (place after dll.pos) := by
        rw [List.perm_middle.mem_iff, List.take_append_drop]
        exact List.mem_cons_of_mem new hz
      rw [hold z hmem]
      change d.dataOf z = _
      have hne : z ≠ new := fun heq => hnodup (heq ▸ hz)
      rw [hddata, Function.update_of_ne hne]
    have hround : vdllInsertLoop after answers pos (left + 1) i dll = some (dll', 0) := by
      rw [vdllInsertLoop, Option.mem_def.mp hanswer]
      simp only [hd, Option.bind_eq_bind, Option.bind_some, hloop]
    change Shape dll' (_ ++ _ ++ _) at hshape'
    rw [show ({ d with cap := sizeT (d.cap + 1) } : Vdll Elem).pos = dll.pos from hdpos] at hshape'
    obtain ⟨fresh', hperm', hplaced⟩ :=
      placed_again Prod.fst l (place after dll.pos) (new, data) fresh
    refine ⟨dll', fresh', hround, ?_, ?_, hplaced ▸ hshape', fun e he => ?_, hkept⟩
    · rw [hanswers']
      exact hperm'.trans (hperm.cons _)
    · rw [hperm'.length_eq, List.length_cons, hlength]
    · rcases List.mem_cons.mp (hperm'.mem_iff.mp he) with rfl | he
      · exact hdata
      · exact hfresh e he

theorem Shape.insert (h : Shape dll l) (after : Bool) {answers : VdllAnswers Elem} {n : Nat}
    (hn : n ≠ 0) (hpos : pos < l.length ∨ l = [] ∧ pos = 0) (hanswers : Granted dll answers n) :
    ∃ (dll' : Vdll Elem) (fresh : List (Nat × Elem)),
      _vdllInsert answers dll pos n after = some (dll', 0) ∧
      fresh.Perm ((List.range n).filterMap answers) ∧ fresh.length = n ∧
      Shape dll' (l.take (place after pos) ++ fresh.map Prod.fst ++ l.drop (place after pos)) ∧
      (∀ e ∈ fresh, dll'.dataOf e.1 = some e.2) ∧ ∀ z ∈ l, dll'.dataOf z = dll.dataOf z := by
  have hmoved : Shape (moveTo dll l pos) l := by
    rcases hpos with hpos | ⟨rfl, rfl⟩
    · exact h.moved hpos
    · have hzero : dll.pos = 0 := (h.cursor.resolve_right (by simp)).2.1
      rw [← hzero, h.moveTo_self]
      exact h
  have hrounds : ∀ j < 0 + n, 0 ≤ j → ∃ answer ∈ answers j,
      Unused (moveTo dll l pos) answer.1 ∧
        ∀ k < j, 0 ≤ k → (answers k).map Prod.fst ≠ some answer.1 := by
    intro j hj _
    obtain ⟨answer, hanswer, hunused, hother⟩ := hanswers j (by omega)
    exact ⟨answer, hanswer, ⟨hunused.real, hunused.bound, hunused.free⟩, fun k hk _ => hother k hk⟩
  obtain ⟨dll', fresh, hloop, hperm, hrest⟩ := hmoved.insertLoop after pos hrounds
  rw [← List.range_eq_range'] at hperm
  refine ⟨dll', fresh, ?_, hperm, hrest⟩
  rw [_vdllInsert, if_neg hn, h.seek_eq hpos]
  simpa using hloop

end Link

end Vdll

end Dert
