import Dert.Library.Inorder
import Dert.Library.Preorder
import Dert.Tree.TreeIterator

universe u v

namespace Dert

open Library.LinkedTree Library.SearchTree BinaryTree

variable {Addr : Type u} {Val : Type v} {nodes : Nodes Addr Val} {top ptr up : Option Addr}
  {C : Context Addr} {t l r : BinaryTree Addr} {a b : Addr} {fuel n : Nat}

section Links

theorem right_link (hsib : Linked nodes (some b) (nodes b).lchild l) (ha : a ∉ inorder l) :
    (nodes b).lchild ≠ some a := by
  intro heq
  rw [heq] at hsib
  exact ha hsib.mem

theorem mem_around_of_above (h : above C = some a) : a ∈ around C := by
  cases C with
  | nil => cases h
  | cons f C =>
    obtain rfl := Option.some.inj h
    exact mem_around.mpr (.inl rfl)

variable (hlinked : Linked nodes none top (plug C (.node a l r)))
include hlinked

theorem children_eq : (nodes a).lchild = root l ∧ (nodes a).rchild = root r := by
  obtain ⟨-, -, -, hl, hr⟩ := linked_plug.mp hlinked
  exact ⟨hl.ptr_eq, hr.ptr_eq⟩

theorem parent_eq : (nodes a).parent = above C := by
  obtain ⟨-, -, hup, -⟩ := linked_plug.mp hlinked
  exact hup

end Links

section Init

theorem leftmost_eq (h : Linked nodes up (some a) t) (hfuel : t.height ≤ fuel) :
    treeIteratorLeftmost nodes fuel a = (inorder t).head? := by
  induction t generalizing up a fuel with
  | nil => cases h
  | node b l r ihl _ =>
    obtain ⟨hb, -, hl, -⟩ := h
    obtain rfl := Option.some.inj hb
    obtain ⟨fuel, rfl, hlfuel, -⟩ := exists_fuel hfuel
    cases l with
    | nil =>
      have hnone : (nodes a).lchild = none := hl
      simp [treeIteratorLeftmost, hnone]
    | node c ll lr =>
      have hc : (nodes a).lchild = some c := hl.1
      rw [hc] at hl
      rw [treeIteratorLeftmost, hc]
      simp only [ihl hl hlfuel, inorder_node, List.head?_append]
      simp

theorem init_leftmost (h : Linked nodes none top t) (hfuel : t.height ≤ fuel) {maxNodes : Nat}
    (hmax : maxNodes ≠ 0) {marker : TreeIteratorMarker} (hmarker : marker = .IN ∨ marker = .POST) :
    ∃ iterator, (treeIteratorInit nodes fuel top marker maxNodes).join = some iterator ∧
      iterator.marker = marker ∧ iterator.current = none ∧ iterator.next = (inorder t).head? := by
  cases t with
  | nil =>
    obtain rfl : top = none := h
    have hinit : treeIteratorInit nodes fuel none marker maxNodes =
        some (some ⟨marker, 0, maxNodes, none, none, none, none⟩) := by
      rw [treeIteratorInit, if_neg hmax]
      rcases hmarker with rfl | rfl <;> rfl
    exact ⟨_, congrArg Option.join hinit, rfl, rfl, rfl⟩
  | node a l r =>
    obtain rfl : top = some a := h.1
    obtain ⟨next, hnext⟩ : ∃ next, (inorder (.node a l r)).head? = some next := by
      rw [← Option.ne_none_iff_exists', ne_eq, List.head?_eq_none_iff]
      simp
    have hinit : treeIteratorInit nodes fuel (some a) marker maxNodes =
        some (some ⟨marker, 0, maxNodes, none, none, some next, none⟩) := by
      have hleft := (leftmost_eq h hfuel).trans hnext
      rw [treeIteratorInit, if_neg hmax]
      rcases hmarker with rfl | rfl <;> simp only [hleft, Option.map_some]
    exact ⟨_, congrArg Option.join hinit, rfl, rfl, hnext.symm⟩

end Init

variable [DecidableEq Addr] {iterator iterator' : TreeIterator Addr} {node : Option Addr}

structure Returned (iterator iterator' : TreeIterator Addr) (node : Option Addr) : Prop where
  node : node = iterator.next
  current : iterator'.current = iterator.next
  marker : iterator'.marker = iterator.marker

theorem preNext_returned (h : treeIteratorPreNext nodes fuel iterator = some (iterator', node)) :
    Returned iterator iterator' node := by
  rw [treeIteratorPreNext] at h
  cases hnext : iterator.next with
  | none =>
    simp only [hnext, Option.some.injEq, Prod.mk.injEq] at h
    obtain ⟨rfl, rfl⟩ := h
    exact ⟨hnext.symm, hnext.symm, rfl⟩
  | some current =>
    simp only [hnext] at h
    split_ifs at h
    · obtain ⟨rfl, rfl⟩ := Prod.mk.inj (Option.some.inj h)
      exact ⟨hnext.symm, hnext.symm, rfl⟩
    · obtain ⟨rfl, rfl⟩ := Prod.mk.inj (Option.some.inj h)
      exact ⟨hnext.symm, hnext.symm, rfl⟩
    · obtain ⟨next, -, heq⟩ := Option.map_eq_some_iff.mp h
      obtain ⟨rfl, rfl⟩ := Prod.mk.inj heq
      exact ⟨hnext.symm, hnext.symm, rfl⟩

theorem inNext_returned (h : treeIteratorInNext nodes fuel iterator = some (iterator', node)) :
    Returned iterator iterator' node := by
  rw [treeIteratorInNext] at h
  cases hnext : iterator.next with
  | none =>
    simp only [hnext, Option.some.injEq, Prod.mk.injEq] at h
    obtain ⟨rfl, rfl⟩ := h
    exact ⟨hnext.symm, hnext.symm, rfl⟩
  | some current =>
    simp only [hnext] at h
    obtain ⟨next, -, heq⟩ := Option.map_eq_some_iff.mp h
    obtain ⟨rfl, rfl⟩ := Prod.mk.inj heq
    exact ⟨hnext.symm, hnext.symm, rfl⟩

theorem postNext_returned (h : treeIteratorPostNext nodes fuel iterator = some (iterator', node)) :
    Returned iterator iterator' node := by
  rw [treeIteratorPostNext] at h
  cases hnext : iterator.next with
  | none =>
    simp only [hnext, Option.some.injEq, Prod.mk.injEq] at h
    obtain ⟨rfl, rfl⟩ := h
    exact ⟨hnext.symm, hnext.symm, rfl⟩
  | some current =>
    simp only [hnext] at h
    obtain ⟨next, -, heq⟩ := Option.map_eq_some_iff.mp h
    obtain ⟨rfl, rfl⟩ := Prod.mk.inj heq
    exact ⟨hnext.symm, hnext.symm, rfl⟩

theorem next_returned (hmarker : iterator.marker ≠ .BFS)
    (h : treeIteratorNext nodes fuel iterator = some (iterator', node)) :
    Returned iterator iterator' node := by
  rw [treeIteratorNext] at h
  cases hm : iterator.marker with
  | PRE => exact preNext_returned (by simpa only [hm] using h)
  | IN => exact inNext_returned (by simpa only [hm] using h)
  | POST => exact postNext_returned (by simpa only [hm] using h)
  | BFS => exact absurd hm hmarker

theorem calls_succ {results : List (Option Addr)}
    (h : treeIteratorCalls nodes fuel iterator (n + 1) = some (iterator', results)) :
    ∃ it earlier node, treeIteratorCalls nodes fuel iterator n = some (it, earlier) ∧
      treeIteratorNext nodes fuel it = some (iterator', node) ∧ results = earlier ++ [node] := by
  rw [treeIteratorCalls, Option.bind_eq_bind, Option.bind_eq_some_iff] at h
  obtain ⟨⟨it, earlier⟩, hearlier, h⟩ := h
  rw [Option.bind_eq_bind, Option.bind_eq_some_iff] at h
  obtain ⟨⟨it', node⟩, hnext, h⟩ := h
  obtain ⟨rfl, rfl⟩ := Prod.mk.inj (Option.some.inj h)
  exact ⟨it, earlier, node, hearlier, hnext, rfl⟩

theorem calls_marker (hmarker : iterator.marker ≠ .BFS) {results : List (Option Addr)}
    (h : treeIteratorCalls nodes fuel iterator n = some (iterator', results)) :
    iterator'.marker = iterator.marker := by
  induction n generalizing iterator' results with
  | zero =>
    obtain ⟨rfl, -⟩ := Prod.mk.inj (Option.some.inj h)
    rfl
  | succ n ih =>
    obtain ⟨it, earlier, node, hearlier, hnext, -⟩ := calls_succ h
    have hm := ih hearlier
    exact (next_returned (hm ▸ hmarker) hnext).marker.trans hm

/-- The run rule for calls: from `S k` a call returns `order k` and leads to `S (k + 1)`. -/
theorem calls_of_step {S : Nat → TreeIterator Addr → Prop} {order : Nat → Option Addr}
    (hinit : S 0 iterator)
    (hstep : ∀ k it, S k it → ∃ it', treeIteratorNext nodes fuel it = some (it', order k) ∧
      S (k + 1) it') (n : Nat) :
    ∃ it, treeIteratorCalls nodes fuel iterator n = some (it, (List.range n).map order) ∧
      S n it := by
  induction n with
  | zero => exact ⟨iterator, rfl, hinit⟩
  | succ n ih =>
    obtain ⟨it, hcalls, hit⟩ := ih
    obtain ⟨it', hnext, hit'⟩ := hstep n it hit
    refine ⟨it', ?_, hit'⟩
    simp [treeIteratorCalls, hcalls, hnext, List.range_succ]

section Order

theorem calls_last {order : Nat → Option Addr}
    (h : treeIteratorCalls nodes fuel iterator (n + 1) =
      some (iterator', (List.range (n + 1)).map order)) :
    ∃ it, treeIteratorCalls nodes fuel iterator n = some (it, (List.range n).map order) ∧
      treeIteratorNext nodes fuel it = some (iterator', order n) := by
  obtain ⟨it, earlier, node, hearlier, hnext, hresults⟩ := calls_succ h
  rw [List.range_succ, List.map_append, List.map_singleton] at hresults
  obtain ⟨rfl, hnode⟩ := List.append_inj' hresults rfl
  obtain rfl := List.singleton_inj.mp hnode
  exact ⟨it, hearlier, hnext⟩

variable {order : List Addr}

theorem calls_current (hmarker : iterator.marker ≠ .BFS) (hcurrent : iterator.current = none)
    (h : treeIteratorCalls nodes fuel iterator n =
      some (iterator', (List.range n).map fun k => order[k]?)) (hn : n ≤ order.length) :
    iterator'.current = (order.take n).getLast? := by
  cases n with
  | zero =>
    obtain ⟨rfl, -⟩ := Prod.mk.inj (Option.some.inj h)
    simpa using hcurrent
  | succ n =>
    obtain ⟨it, hearlier, hnext⟩ := calls_last h
    have hm := calls_marker hmarker hearlier
    obtain ⟨hreturned, hcur, -⟩ := next_returned (hm ▸ hmarker) hnext
    rw [hcur, ← hreturned, List.getElem?_eq_getElem hn, List.take_succ_eq_append_getElem hn,
      List.getLast?_append]
    rfl

omit [DecidableEq Addr] in
theorem init_fresh {marker : TreeIteratorMarker} {maxNodes : Nat}
    (h : (treeIteratorInit nodes fuel top marker maxNodes).join = some iterator) :
    iterator.marker = marker ∧ iterator.current = none := by
  rw [Option.join_eq_some_iff, treeIteratorInit] at h
  split_ifs at h
  · cases h
  · cases marker with
    | PRE =>
      obtain rfl := Option.some.inj (Option.some.inj h)
      exact ⟨rfl, rfl⟩
    | BFS =>
      obtain ⟨queue, -, h⟩ := Option.bind_eq_some_iff.mp (Option.some.inj h)
      split at h
      · obtain rfl := Option.some.inj h
        exact ⟨rfl, rfl⟩
      · cases h
    | _ =>
      cases top with
      | none =>
        obtain rfl := Option.some.inj (Option.some.inj h)
        exact ⟨rfl, rfl⟩
      | some top =>
        obtain ⟨next, -, h⟩ := Option.map_eq_some_iff.mp h
        obtain rfl := Option.some.inj h
        exact ⟨rfl, rfl⟩

theorem walk_eq_some {marker : TreeIteratorMarker} {maxNodes : Nat} {results : List (Option Addr)} :
    treeIteratorWalk nodes fuel top marker maxNodes n = some results ↔
      ∃ it it', (treeIteratorInit nodes fuel top marker maxNodes).join = some it ∧
        treeIteratorCalls nodes fuel it n = some (it', results) := by
  simp only [treeIteratorWalk, Option.bind_eq_bind, Option.bind_eq_some_iff, Option.some.injEq,
    Prod.exists, exists_eq_right]
  simp

theorem walk_step {marker : TreeIteratorMarker} {maxNodes : Nat} (hmarker : marker ≠ .BFS)
    (hn : n < order.length)
    (h : treeIteratorWalk nodes fuel top marker maxNodes (n + 2) =
      some ((List.range (n + 2)).map fun k => order[k]?)) :
    ∃ it it', it.marker = marker ∧ it.current = (order.take n).getLast? ∧ it.next = order[n]? ∧
      treeIteratorNext nodes fuel it = some (it', order[n]?) ∧ it'.next = order[n + 1]? := by
  obtain ⟨iterator, last, hinit, hcalls⟩ := walk_eq_some.mp h
  obtain ⟨hfresh, hcurrent⟩ := init_fresh hinit
  have hbfs : iterator.marker ≠ .BFS := hfresh ▸ hmarker
  obtain ⟨it', hcalls, hsecond⟩ := calls_last hcalls
  have hm' := calls_marker hbfs hcalls
  obtain ⟨it, hcalls, hfirst⟩ := calls_last hcalls
  have hm := calls_marker hbfs hcalls
  have hcur := calls_current hbfs hcurrent hcalls (Nat.le_of_lt hn)
  have hreturned := next_returned (hm ▸ hbfs) hfirst
  have hreturned' := next_returned (hm' ▸ hbfs) hsecond
  exact ⟨it, it', hm.trans hfresh, hcur, hreturned.node.symm, hfirst, hreturned'.node.symm⟩

end Order

end Dert
