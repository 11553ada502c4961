import Dert.Library.Machine
import Dert.Store.VdllLaws

universe u

namespace Dert.Vdll

open Library

variable {Elem : Type u} {dll dll' : Vdll Elem} {l : List Nat}

inductive Call (Elem : Type u)
  | insert (pos numElems : Nat) (answers : VdllAnswers Elem)
  | grow (numElems : Nat) (answers : VdllAnswers Elem)
  | delete (pos numElems : Nat)
  | shrink (numElems : Nat)
  | get (pos : Nat)
  | set (pos : Nat) (src : Elem)

instance (dll : Vdll Elem) (new : Nat) : Decidable (Unused dll new) :=
  decidable_of_iff (new ≠ 0 ∧ new < sizeMax ∧ dll.nodes new = none)
    ⟨fun h => ⟨h.1, h.2.1, h.2.2⟩, fun h => ⟨h.real, h.bound, h.free⟩⟩

instance (dll : Vdll Elem) (answers : VdllAnswers Elem) (n : Nat) :
    Decidable (Granted dll answers n) := inferInstanceAs (Decidable (∀ i < n, _))

def InRange (dll : Vdll Elem) : Call Elem → Prop
  | .insert pos numElems answers =>
    (pos < vdllLen dll ∨ vdllLen dll = 0 ∧ pos = 0) ∧ Granted dll answers numElems
  | .grow numElems answers => Granted dll answers numElems
  | .delete pos numElems => pos + numElems ≤ vdllLen dll
  | .shrink numElems => numElems ≤ vdllLen dll
  | .get pos => pos < vdllLen dll
  | .set pos _ => pos < vdllLen dll

instance (dll : Vdll Elem) (call : Call Elem) : Decidable (InRange dll call) := by
  cases call with
  | insert pos numElems answers => exact inferInstanceAs (Decidable (_ ∧ _))
  | grow numElems answers => exact inferInstanceAs (Decidable (Granted _ _ _))
  | delete pos numElems => exact inferInstanceAs (Decidable (_ ≤ _))
  | shrink numElems => exact inferInstanceAs (Decidable (_ ≤ _))
  | get pos => exact inferInstanceAs (Decidable (_ < _))
  | set pos src => exact inferInstanceAs (Decidable (_ < _))

def run (dll : Vdll Elem) : Call Elem → Option (Vdll Elem)
  | .insert pos numElems answers => (vdllInsert answers dll pos numElems).map Prod.fst
  | .grow numElems answers => (vdllGrow answers dll numElems).map Prod.fst
  | .delete pos numElems => (vdllDelete dll pos numElems).map Prod.fst
  | .shrink numElems => (vdllShrink dll numElems).map Prod.fst
  | .get pos => (vdllGet dll pos).map Prod.fst
  | .set pos src => (vdllSet dll pos src).map Prod.fst

def machine (Elem : Type u) : Machine (Vdll Elem) (Call Elem) where
  init dll := ∃ elemSize, vdllCreate true elemSize = some dll
  step dll call := if InRange dll call then run dll call else none

def Call.added : Call Elem → Nat
  | .insert _ numElems _ => numElems
  | .grow numElems _ => numElems
  | _ => 0

def Call.removed : Call Elem → Nat
  | .delete _ numElems => numElems
  | .shrink numElems => numElems
  | _ => 0

structure Reaches (dll : Vdll Elem) (i node : Nat) : Prop where
  get : ∃ dll' data, dll.dataOf node = some data ∧ vdllGet dll i = some (dll', 0, data) ∧
    dll'.dataOf = dll.dataOf
  set : ∀ src, ∃ dll', vdllSet dll i src = some (dll', 0) ∧
    dll'.dataOf = Function.update dll.dataOf node (some src)

theorem Shape.init {elemSize : Nat} (h : vdllCreate true elemSize = some dll) : Shape dll [] := by
  rw [vdllCreate] at h
  split_ifs at h
  obtain rfl := Option.some.inj h
  exact ⟨Chain.nil, fun z => iff_of_false (by simp) (by simp [Vdll.dataOf]), nofun, rfl,
    Or.inl ⟨rfl, rfl, rfl⟩⟩

theorem Shape.setData {n : VdllNode Elem} {node : Nat} (h : Shape dll l)
    (hn : dll.nodes node = some n) (src : Elem) :
    Shape { dll with nodes := Function.update dll.nodes node (some { n with data := src }) } l := by
  refine ⟨?_, fun z => ?_, h.bound, h.cap, h.cursor⟩
  · rw [nextOf_update, prevOf_update]
    have hnext : Function.update dll.nextOf node (some n.next) = dll.nextOf :=
      Function.update_eq_self_iff.mpr (by simp [Vdll.nextOf, hn])
    have hprev : Function.update dll.prevOf node (some n.prev) = dll.prevOf :=
      Function.update_eq_self_iff.mpr (by simp [Vdll.prevOf, hn])
    simp only [Option.map_some, hnext, hprev]
    exact h.chain
  · rw [dataOf_update, h.nodes z]
    by_cases hz : z = node
    · rw [hz, Function.update_self]
      exact iff_of_true (exists_node.mpr ⟨n, hn⟩) rfl
    · rw [Function.update_of_ne hz]

theorem Shape.get (h : Shape dll l) {i : Nat} (hi : i < l.length) :
    ∃ n, dll.nodes l[i] = some n ∧ vdllGet dll i = some (moveTo dll l i, 0, n.data) := by
  obtain ⟨n, hn⟩ := exists_node.mp ((h.nodes l[i]).mp (List.getElem_mem hi))
  have hnode : (moveTo dll l i).nodes (moveTo dll l i).ptr = some n := by
    simpa [moveTo, List.getElem?_eq_getElem hi] using hn
  refine ⟨n, hn, ?_⟩
  rw [vdllGet, vdllGetDirect, h.seek_eq (Or.inl hi)]
  simp [hnode]

theorem Shape.set (h : Shape dll l) {i : Nat} (hi : i < l.length) (src : Elem) :
    ∃ dll', vdllSet dll i src = some (dll', 0) ∧ Shape dll' l ∧
      dll'.dataOf = Function.update dll.dataOf l[i] (some src) := by
  obtain ⟨n, hn⟩ := exists_node.mp ((h.nodes l[i]).mp (List.getElem_mem hi))
  have hptr : (moveTo dll l i).ptr = l[i] := by simp [moveTo, List.getElem?_eq_getElem hi]
  have hnode : (moveTo dll l i).nodes (moveTo dll l i).ptr = some n := by
    rw [hptr]
    exact hn
  refine ⟨_, ?_, (h.moved hi).setData hnode src, ?_⟩
  · rw [vdllSet, h.seek_eq (Or.inl hi)]
    simp [hnode]
  · rw [dataOf_update, hptr]
    rfl

theorem Shape.reaches (h : Shape dll l) {i node : Nat} (hi : l[i]? = some node) :
    Reaches dll i node := by
  obtain ⟨hlt, rfl⟩ := List.getElem?_eq_some_iff.mp hi
  constructor
  · obtain ⟨n, hn, hget⟩ := h.get hlt
    exact ⟨moveTo dll l i, n.data, by rw [Vdll.dataOf, hn]; rfl, hget, rfl⟩
  · intro src
    obtain ⟨dll', hset, -, hdata⟩ := h.set hlt src
    exact ⟨dll', hset, hdata⟩

theorem placed_length {α : Type*} (l : List Nat) (k : Nat) {fresh : List (Nat × α)} {n : Nat}
    (hn : fresh.length = n) :
    (l.take k ++ fresh.map Prod.fst ++ l.drop k).length = l.length + n := by
  simp only [List.length_append, List.length_map, List.length_take, List.length_drop, hn]
  omega

theorem cut_length {i n : Nat} (h : i + n ≤ l.length) :
    (l.take i ++ l.drop (i + n)).length + n = l.length := by
  rw [List.length_append, List.length_take, List.length_drop]
  omega

theorem Shape.run (h : Shape dll l) (call : Call Elem) (hrange : InRange dll call) :
    ∃ dll' l', run dll call = some dll' ∧ Shape dll' l' ∧
      l'.length + call.removed = l.length + call.added := by
  have hcap : vdllLen dll = l.length := h.cap
  cases call with
  | insert pos numElems answers =>
    obtain ⟨hpos, hanswers⟩ := hrange
    rw [hcap, List.length_eq_zero_iff] at hpos
    by_cases hn : numElems = 0
    · refine ⟨dll, l, ?_, h, by simp [Call.removed, Call.added, hn]⟩
      simp [Vdll.run, vdllInsert, _vdllInsert, hn]
    · obtain ⟨dll', fresh, hinsert, -, hlength, hshape, -⟩ := h.insert false hn hpos hanswers
      refine ⟨dll', _, ?_, hshape, placed_length l _ hlength⟩
      simp [Vdll.run, vdllInsert, hinsert]
  | grow numElems answers =>
    by_cases hn : numElems = 0
    · refine ⟨dll, l, ?_, h, by simp [Call.removed, Call.added, hn]⟩
      simp [Vdll.run, vdllGrow, hn]
    · have hpos : (if dll.cap > 1 then dll.cap - 1 else 0) < l.length ∨
          l = [] ∧ (if dll.cap > 1 then dll.cap - 1 else 0) = 0 := by
        rw [← List.length_eq_zero_iff, h.cap]
        split_ifs <;> omega
      obtain ⟨dll', fresh, hinsert, -, hlength, hshape, -⟩ := h.insert true hn hpos hrange
      refine ⟨dll', _, ?_, hshape, placed_length l _ hlength⟩
      simp [Vdll.run, vdllGrow, hn, hinsert]
  | delete pos numElems =>
    by_cases hn : numElems = 0
    · refine ⟨dll, l, ?_, h, by simp [Call.removed, Call.added, hn]⟩
      simp [Vdll.run, vdllDelete, hn]
    · have hle : pos + numElems ≤ l.length := hcap ▸ hrange
      obtain ⟨dll', hdelete, hshape, -⟩ := h.delete hn hle
      refine ⟨dll', _, ?_, hshape, cut_length (by omega)⟩
      simp [Vdll.run, hdelete]
  | shrink numElems =>
    by_cases hn : numElems = 0
    · refine ⟨dll, l, ?_, h, by simp [Call.removed, Call.added, hn]⟩
      simp [Vdll.run, vdllShrink, hn]
    · have hle : numElems ≤ l.length := hcap ▸ hrange
      have hsub : sizeT (dll.cap + (sizeMax - numElems)) = l.length - numElems := by
        rw [h.cap]
        exact sizeT_sub hle h.length_lt
      have hend : l.length - numElems + numElems ≤ l.length := by omega
      obtain ⟨dll', hdelete, hshape, -⟩ := h.delete hn hend
      refine ⟨dll', _, ?_, hshape, cut_length (by omega)⟩
      simp [Vdll.run, vdllShrink, hn, hsub, hdelete]
  | get pos =>
    have hpos : pos < l.length := hcap ▸ hrange
    obtain ⟨n, -, hget⟩ := h.get hpos
    refine ⟨moveTo dll l pos, l, ?_, h.moved hpos, rfl⟩
    simp [Vdll.run, hget]
  | set pos src =>
    have hpos : pos < l.length := hcap ▸ hrange
    obtain ⟨dll', hset, hshape, -⟩ := h.set hpos src
    refine ⟨dll', l, ?_, hshape, rfl⟩
    simp [Vdll.run, hset]

/-- Wherever the calls of a run have left the cursor, the list is one chain, a position
reaches the node that is that far from the head, and the next call in range succeeds and
changes the count by what it is told to. -/
theorem cursor_run {tr : List (Vdll Elem × Call Elem)} (hr : (machine Elem).Run tr dll) :
    (∃ l, Shape dll l ∧ ∀ i node, l[i]? = some node → Reaches dll i node) ∧
      ∀ call, InRange dll call → ∃ dll', (machine Elem).step dll call = some dll' ∧
        dll'.cap + call.removed = dll.cap + call.added := by
  have hshape : ∃ l, Shape dll l := by
    refine hr.always (I := fun dll => ∃ l, Shape dll l) ?_ ?_
    · rintro dll ⟨elemSize, hcreate⟩
      exact ⟨[], Shape.init hcreate⟩
    · rintro dll call dll' ⟨l, h⟩ hs
      obtain ⟨hrange, hs⟩ := Option.ite_none_right_eq_some.mp hs
      obtain ⟨d, l', hrun, hshape, -⟩ := h.run call hrange
      rw [hrun] at hs
      cases hs
      exact ⟨l', hshape⟩
  obtain ⟨l, h⟩ := hshape
  refine ⟨⟨l, h, fun i node hi => h.reaches hi⟩, fun call hrange => ?_⟩
  obtain ⟨dll', l', hrun, hshape, hlength⟩ := h.run call hrange
  refine ⟨dll', (if_pos hrange).trans hrun, ?_⟩
  rw [hshape.cap, h.cap]
  exact hlength

theorem cursor_run_four :
    ∃ tr dll, (machine Nat).Run tr dll ∧ dll.cap = 2 ∧
      (∃ l, Shape dll l ∧ ∀ i node, l[i]? = some node → Reaches dll i node) ∧
      ∀ call, InRange dll call → ∃ dll', (machine Nat).step dll call = some dll' ∧
        dll'.cap + call.removed = dll.cap + call.added := by
  obtain ⟨tr, dll, hr, hcap⟩ := Machine.exists_run_of_exec (machine Nat)
    ⟨fun _ => none, 0, 0, 0⟩
    [.insert 0 2 fun i => some (32 * i + 32, 0), .grow 2 fun i => some (32 * i + 96, 0),
      .set 3 7, .delete 1 2, .get 0]
    (fun dll => dll.cap = 2) ⟨8, rfl⟩ (by decide)
  simp only [decide_eq_true_eq] at hcap
  exact ⟨tr, dll, hr, hcap, cursor_run hr⟩

end Dert.Vdll
