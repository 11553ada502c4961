import Dert.Library.Levelorder
import Dert.Base.Bytes
import Dert.Queue.QueueLayout
import Dert.Queue.VqueueRefinement
import Dert.Tree.TreeIterator

universe u v

namespace Dert

open Library Library.LinkedTree Library.SearchTree

variable {Addr : Type u} {Val : Type v}

def sizeofTreeIterator : Nat := 56

def treeIteratorAdvise (marker : TreeIteratorMarker) (maxNodes : Nat) : Nat :=
  if maxNodes = 0 then 0
  else
    match marker with
    | .BFS => sizeT (sizeofTreeIterator + vqueueAdvise sizeofPointer maxNodes)
    | _ => sizeofTreeIterator

section Block

/-! The first `room` slots of the queue lie in the block. -/

variable (nodes : Nodes Addr Val) (room : Nat)

/-- `vqueue_enqueue` without overwriting; `none` when it writes behind the block. -/
def vqueueEnqueueIn {α : Type u} (queue : Vqueue α) (src : α) : Option (Vqueue α × Ret) :=
  if queue.len = queue.cap ∨ vqueueWrap queue queue.back < room then
    some (vqueueEnqueue queue src false)
  else none

def treeIteratorBfsPutIn (queue : Vqueue (Option Addr)) (child : Option Addr) :
    Option (Vqueue (Option Addr) × Ret) :=
  match child with
  | none => some (queue, .ok)
  | some child => vqueueEnqueueIn room queue (some child)

def treeIteratorBfsNextIn (iterator : TreeIterator Addr) :
    Option (TreeIterator Addr × Option Addr × Ret) :=
  match iterator.marker, iterator.nodeQueue with
  | .BFS, some queue =>
    match vqueueDequeue queue with
    | (queue, .ok, some (some node)) => do
      let (queue, ret) ← treeIteratorBfsPutIn room queue (nodes node).lchild
      if ret ≠ .ok then some ({ iterator with nodeQueue := some queue }, none, ret)
      else
        let (queue, ret) ← treeIteratorBfsPutIn room queue (nodes node).rchild
        if ret ≠ .ok then some ({ iterator with nodeQueue := some queue }, none, ret)
        else some ({ iterator with nodeQueue := some queue }, some node, .ok)
    | (queue, _, _) => some ({ iterator with nodeQueue := some queue }, none, .ok)
  | _, _ => some (iterator, none, .ok)

end Block

def treeIteratorBfsRoom (maxNodes : Nat) : Nat :=
  (treeIteratorAdvise .BFS maxNodes - (sizeofTreeIterator + sizeofVqueue)) / sizeofPointer

/-- `tree_iterator_create` of a breadth-first iterator; `none` when it fails, or the root is
enqueued behind the block. -/
def treeIteratorBfsCreate (granted : Bool) (root : Option Addr) (maxNodes : Nat) :
    Option (TreeIterator Addr) :=
  if maxNodes = 0 then none
  else if granted && treeIteratorAdvise .BFS maxNodes ≤ ptrdiffMax then do
    let queue ← vqueueInit none maxNodes
    match ← vqueueEnqueueIn (treeIteratorBfsRoom maxNodes) queue root with
    | (queue, .ok) =>
      some { marker := .BFS, numVisited := 0, maxNodes, prev := none, current := none,
             next := none, nodeQueue := some queue }
    | _ => none
  else none

def treeIteratorBfsCalls (nodes : Nodes Addr Val) (room : Nat) (iterator : TreeIterator Addr) :
    Nat → Option (TreeIterator Addr × List (Option Addr × Ret))
  | 0 => some (iterator, [])
  | n + 1 => do
    let (iterator, results) ← treeIteratorBfsCalls nodes room iterator n
    let (iterator, result) ← treeIteratorBfsNextIn nodes room iterator
    some (iterator, results ++ [result])

def treeIteratorBfsWalk (nodes : Nodes Addr Val) (root : Option Addr) (maxNodes n : Nat) :
    Option (List (Option Addr × Ret)) := do
  let iterator ← treeIteratorBfsCreate true root maxNodes
  let (_, results) ← treeIteratorBfsCalls nodes (treeIteratorBfsRoom maxNodes) iterator n
  some results

variable {nodes : Nodes Addr Val} {iterator iterator' : TreeIterator Addr} {node : Option Addr}
  {ret : Ret} {room cap : Nat}

section Iterator

/-! Inside the block it is the iterator that walks. -/

theorem enqueueIn_eq {α : Type u} {queue queue' : Vqueue α} {src : α}
    (h : vqueueEnqueueIn room queue src = some (queue', ret)) :
    vqueueEnqueue queue src false = (queue', ret) := by
  rw [vqueueEnqueueIn] at h
  split_ifs at h
  exact Option.some.inj h

theorem bfsPutIn_eq {queue queue' : Vqueue (Option Addr)} {child : Option Addr}
    (h : treeIteratorBfsPutIn room queue child = some (queue', ret)) :
    treeIteratorBfsPut queue child = (queue', decide (ret = .ok)) := by
  cases child with
  | none =>
    obtain ⟨rfl, rfl⟩ := Prod.mk.inj (Option.some.inj h)
    rfl
  | some child =>
    rw [treeIteratorBfsPut, enqueueIn_eq h]

theorem bfsNextIn_eq (h : treeIteratorBfsNextIn nodes room iterator = some (iterator', node, ret)) :
    treeIteratorBfsNext nodes iterator = (iterator', node) := by
  rw [treeIteratorBfsNextIn] at h
  split at h
  · next queue hmarker hqueue =>
    split at h
    · next q a hdequeue =>
      obtain ⟨⟨ql, retl⟩, hl, h⟩ := Option.bind_eq_some_iff.mp h
      simp only [treeIteratorBfsNext, hmarker, hqueue, hdequeue, bfsPutIn_eq hl]
      by_cases hok : retl = .ok
      · simp only [hok, ne_eq, not_true_eq_false, if_false] at h
        obtain ⟨⟨qr, retr⟩, hr, h⟩ := Option.bind_eq_some_iff.mp h
        simp only [hok, decide_true, bfsPutIn_eq hr]
        by_cases hok' : retr = .ok
        · simp only [hok', not_true_eq_false, if_false, Option.some.injEq, Prod.mk.injEq] at h
          obtain ⟨rfl, rfl, -⟩ := h
          simp [hok', hmarker]
        · simp only [hok', not_false_eq_true, if_true, Option.some.injEq, Prod.mk.injEq] at h
          obtain ⟨rfl, rfl, -⟩ := h
          simp [hok', hmarker]
      · simp only [hok, ne_eq, not_false_eq_true, if_true, Option.some.injEq, Prod.mk.injEq] at h
        obtain ⟨rfl, rfl, -⟩ := h
        simp [hok, hmarker]
    · next q r d hnot hdequeue =>
      simp only [Option.some.injEq, Prod.mk.injEq] at h
      obtain ⟨rfl, rfl, -⟩ := h
      simp [treeIteratorBfsNext, hqueue, hdequeue, hmarker]
  · next hnot =>
    simp only [Option.some.injEq, Prod.mk.injEq] at h
    obtain ⟨rfl, rfl, -⟩ := h
    rw [treeIteratorBfsNext]
    split
    · next queue hmarker hqueue => exact (hnot queue hmarker hqueue).elim
    · rfl

theorem bfsCreate_eq (nodes : Nodes Addr Val) {granted : Bool} {top : Option Addr} {maxNodes : Nat}
    (h : treeIteratorBfsCreate granted top maxNodes = some iterator) (fuel : Nat) :
    treeIteratorInit nodes fuel top .BFS maxNodes = some (some iterator) ∧
      iterator.marker = .BFS := by
  rw [treeIteratorBfsCreate] at h
  split_ifs at h with hmax hgranted
  obtain ⟨queue, hqueue, h⟩ := Option.bind_eq_some_iff.mp h
  obtain ⟨⟨q, r⟩, hput, h⟩ := Option.bind_eq_some_iff.mp h
  rw [treeIteratorInit, if_neg hmax]
  simp only [hqueue, Option.bind_some, enqueueIn_eq hput]
  cases r with
  | ok =>
    obtain rfl := Option.some.inj h
    exact ⟨rfl, rfl⟩
  | _ => cases h

theorem bfsNext_marker (nodes : Nodes Addr Val) (iterator : TreeIterator Addr) :
    (treeIteratorBfsNext nodes iterator).1.marker = iterator.marker := by
  rw [treeIteratorBfsNext]
  repeat' split
  all_goals rfl

theorem bfsCalls_eq [DecidableEq Addr] {n : Nat} {results : List (Option Addr × Ret)}
    (hmarker : iterator.marker = .BFS)
    (h : treeIteratorBfsCalls nodes room iterator n = some (iterator', results)) (fuel : Nat) :
    treeIteratorCalls nodes fuel iterator n = some (iterator', results.map Prod.fst) ∧
      iterator'.marker = .BFS := by
  induction n generalizing iterator' results with
  | zero =>
    obtain ⟨rfl, rfl⟩ := Prod.mk.inj (Option.some.inj h)
    exact ⟨rfl, hmarker⟩
  | succ n ih =>
    obtain ⟨⟨it, earlier⟩, hearlier, h⟩ := Option.bind_eq_some_iff.mp h
    obtain ⟨⟨it', node, ret⟩, hnext, h⟩ := Option.bind_eq_some_iff.mp h
    obtain ⟨rfl, rfl⟩ := Prod.mk.inj (Option.some.inj h)
    obtain ⟨hcalls, hm⟩ := ih hearlier
    have heq := bfsNextIn_eq hnext
    have hm' := bfsNext_marker nodes it
    rw [heq] at hm'
    refine ⟨?_, hm'.trans hm⟩
    simp [treeIteratorCalls, hcalls, treeIteratorNext, hm, heq]

/-- A walk that stays in the block is one of the iterator that `tree_iterator_init` makes. -/
theorem bfsWalk_eq [DecidableEq Addr] {top : Option Addr} {maxNodes n : Nat}
    {results : List (Option Addr × Ret)}
    (h : treeIteratorBfsWalk nodes top maxNodes n = some results) (fuel : Nat) :
    treeIteratorWalk nodes fuel top .BFS maxNodes n = some (results.map Prod.fst) := by
  obtain ⟨it, hcreate, h⟩ := Option.bind_eq_some_iff.mp h
  obtain ⟨⟨it', earlier⟩, hcalls, h⟩ := Option.bind_eq_some_iff.mp h
  obtain rfl := Option.some.inj h
  obtain ⟨hinit, hmarker⟩ := bfsCreate_eq nodes hcreate fuel
  simp [treeIteratorWalk, hinit, (bfsCalls_eq hmarker hcalls fuel).1]

end Iterator

section Frontier

open BinaryTree

structure Frontier (nodes : Nodes Addr Val) (queue : Vqueue (Option Addr))
    (s : Vqueue.Spec (Option Addr) cap) (ts : List (BinaryTree Addr)) : Prop where
  refines : Vqueue.Refines queue s
  back : queue.back = s.total % cap
  list : s.queue.list = ts.map root
  shaped : ∀ t ∈ ts, Shaped nodes (root t) t
  length_le : ts.length ≤ s.total

variable {queue : Vqueue (Option Addr)} {s : Vqueue.Spec (Option Addr) cap}
  {ts : List (BinaryTree Addr)} {t : BinaryTree Addr}

theorem Frontier.back_eq (hf : Frontier nodes queue s ts) (htotal : s.total < cap) :
    queue.back = s.total := by
  rw [hf.back, Nat.mod_eq_of_lt htotal]

theorem Frontier.not_full (hf : Frontier nodes queue s ts) (htotal : s.total < cap) :
    s.queue.length < cap := by
  rw [Fifo.length, hf.list, List.length_map]
  exact Nat.lt_of_le_of_lt hf.length_le htotal

theorem Frontier.slot_eq (hf : Frontier nodes queue s ts) (htotal : s.total < cap) :
    vqueueWrap queue queue.back = s.total := by
  rw [vqueueWrap, hf.refines.cap_eq, hf.back_eq htotal, Nat.mod_eq_of_lt htotal]

theorem Frontier.enqueue (hf : Frontier nodes queue s ts) (ht : Shaped nodes (root t) t)
    (htotal : s.total < cap) (hcap : cap < sizeMax) (hroom : s.total < room) :
    ∃ queue', ∃ s' : Vqueue.Spec (Option Addr) cap,
      vqueueEnqueueIn room queue (root t) = some (queue', .ok) ∧
      s'.total = s.total + 1 ∧ Frontier nodes queue' s' (ts ++ [t]) := by
  have hlt := hf.not_full htotal
  have hsize := Nat.lt_of_le_of_lt htotal hcap
  obtain ⟨queue', s', heq, hrefines, hlist, htotal'⟩ := hf.refines.pushed hlt hsize (root t)
  have hback : queue'.back = (s.total + 1) % cap := by
    have hne : queue.len ≠ queue.cap := by
      rw [hf.refines.len_eq, hf.refines.cap_eq]
      exact Nat.ne_of_lt hlt
    have hwrap : sizeT (queue.back + 1) = s.total + 1 := by
      rw [hf.back_eq htotal]
      exact sizeT_of_lt hsize
    have hqueue : queue' = (vqueueEnqueue queue (root t) false).1 := (congrArg Prod.fst heq).symm
    rw [hqueue]
    simp only [vqueueEnqueue, hne, false_and, if_false, hwrap]
    rw [vqueueWrap, hf.refines.cap_eq]
  refine ⟨queue', s', ?_, htotal', hrefines, htotal' ▸ hback, ?_, ?_, ?_⟩
  · rw [vqueueEnqueueIn, if_pos (.inr ((hf.slot_eq htotal).symm ▸ hroom)), heq]
  · rw [hlist, hf.list, List.map_append]
    rfl
  · intro u hu
    rcases List.mem_append.mp hu with hu | hu
    · exact hf.shaped u hu
    · exact List.mem_singleton.mp hu ▸ ht
  · rw [List.length_append, htotal']
    exact Nat.add_le_add_right hf.length_le 1

theorem Frontier.not_enqueue (hf : Frontier nodes queue s ts) (htotal : s.total < cap)
    (hroom : room ≤ s.total) (src : Option Addr) : vqueueEnqueueIn room queue src = none := by
  have hne : queue.len ≠ queue.cap := by
    rw [hf.refines.len_eq, hf.refines.cap_eq]
    exact Nat.ne_of_lt (hf.not_full htotal)
  rw [vqueueEnqueueIn, hf.slot_eq htotal, if_neg]
  exact not_or.mpr ⟨hne, Nat.not_lt.mpr hroom⟩

theorem Frontier.put (hf : Frontier nodes queue s ts) (ht : Shaped nodes (root t) t)
    (hcap : s.total + (stem t).length ≤ cap) (hsize : cap < sizeMax) (hroom : s.total ≤ room) :
    (treeIteratorBfsPutIn room queue (root t) = none ∧ room < s.total + (stem t).length) ∨
      ∃ queue', ∃ s' : Vqueue.Spec (Option Addr) cap,
        treeIteratorBfsPutIn room queue (root t) = some (queue', .ok) ∧
        s'.total = s.total + (stem t).length ∧ s'.total ≤ room ∧
        Frontier nodes queue' s' (ts ++ stem t) := by
  cases t with
  | nil => exact .inr ⟨queue, s, rfl, rfl, hroom, by simpa [stem] using hf⟩
  | node a l r =>
    have htotal : s.total < cap := hcap
    rcases Nat.lt_or_ge s.total room with hlt | hge
    · obtain ⟨queue', s', hput, htotal', hf'⟩ := hf.enqueue ht htotal hsize hlt
      exact .inr ⟨queue', s', hput, htotal', htotal' ▸ hlt, hf'⟩
    · exact .inl ⟨hf.not_enqueue htotal hge _, Nat.lt_succ_of_le hge⟩

theorem Frontier.dequeue (hf : Frontier nodes queue s (t :: ts)) (hsize : s.total < sizeMax) :
    ∃ queue', ∃ s' : Vqueue.Spec (Option Addr) cap,
      vqueueDequeue queue = (queue', .ok, some (root t)) ∧ s'.total = s.total ∧
      Frontier nodes queue' s' ts := by
  obtain ⟨queue', s', hdequeue, hback, hrefines, hlist, htotal⟩ :=
    hf.refines.popped (hf.list.trans (List.map_cons ..)) hsize
  refine ⟨queue', s', hdequeue, htotal, hrefines, ?_, hlist, ?_, ?_⟩
  · rw [hback, hf.back, htotal]
  · exact fun u hu => hf.shaped u (List.mem_cons_of_mem _ hu)
  · rw [htotal]
    exact Nat.le_of_succ_le hf.length_le

end Frontier

section Walk

open BinaryTree

structure Sweeping (nodes : Nodes Addr Val) (cap room count h : Nat) (rest : List Addr)
    (iterator : TreeIterator Addr) : Prop where
  marker : iterator.marker = .BFS
  frontier : ∃ queue, ∃ s : Vqueue.Spec (Option Addr) cap, ∃ ts, iterator.nodeQueue = some queue ∧
    Frontier nodes queue s ts ∧ (∀ t ∈ ts, t.height ≤ h) ∧ sweep h ts = rest ∧
    (.nil ∈ ts → rest = []) ∧ s.total + rest.length = (roots ts).length + count ∧ s.total ≤ room

variable {count h n : Nat} {rest : List Addr}

theorem bfs_step (hs : Sweeping nodes cap room count h rest iterator) (hcap : count ≤ cap)
    (hsize : cap < sizeMax) (hh : 0 < h) :
    (treeIteratorBfsNextIn nodes room iterator = none ∧ room < count) ∨
      ∃ iterator', treeIteratorBfsNextIn nodes room iterator = some (iterator', rest.head?, .ok) ∧
        Sweeping nodes cap room count h rest.tail iterator' := by
  obtain ⟨hmarker, queue, s, ts, hqueue, hf, hheight, hsweep, hnil, htotal, hroom⟩ := hs
  have htotal_le : s.total ≤ count := by
    have hroots := roots_le_sweep hh ts
    rw [hsweep] at hroots
    omega
  cases ts with
  | nil =>
    obtain rfl : rest = [] := by simpa using hsweep.symm
    refine .inr ⟨{ iterator with nodeQueue := some queue }, ?_,
      ⟨hmarker, queue, s, [], rfl, hf, by simp, hsweep, by simp, htotal, hroom⟩⟩
    simp only [treeIteratorBfsNextIn, hmarker, hqueue, hf.refines.drained hf.list]
    rfl
  | cons t ts =>
    obtain ⟨q, s', hdequeue, htotal', hf'⟩ := hf.dequeue
      (Nat.lt_of_le_of_lt (Nat.le_trans htotal_le hcap) hsize)
    rw [← htotal'] at htotal hroom
    have hheight' : ∀ u ∈ ts, u.height ≤ h := fun u hu => hheight u (List.mem_cons_of_mem _ hu)
    cases t with
    | nil =>
      obtain rfl := hnil List.mem_cons_self
      rw [sweep_nil_cons] at hsweep
      refine .inr ⟨{ iterator with nodeQueue := some q }, ?_,
        ⟨hmarker, q, s', ts, rfl, hf', hheight', hsweep, fun _ => rfl, htotal, hroom⟩⟩
      simp only [treeIteratorBfsNextIn, hmarker, hqueue, hdequeue]
      rfl
    | node a l r =>
      have hsome : vqueueDequeue queue = (q, .ok, some (some a)) := hdequeue
      have hle := hheight _ List.mem_cons_self
      rw [sweep_cons ts hle] at hsweep
      subst hsweep
      have hroots := roots_le_sweep hh (ts ++ (stem l ++ stem r))
      have hmore : (roots (ts ++ (stem l ++ stem r))).length =
          (roots ts).length + (stem l).length + (stem r).length := by
        rw [← List.append_assoc, roots_stem, roots_stem]
      have hone : (roots (.node a l r :: ts)).length = 1 + (roots ts).length := by
        simp [roots, level, Nat.add_comm]
      rw [List.length_cons] at htotal
      obtain ⟨-, hl, hr⟩ : Shaped nodes (some a) (.node a l r) := hf.shaped _ List.mem_cons_self
      have hlchild := hl.ptr_eq
      have hrchild := hr.ptr_eq
      rw [hlchild] at hl
      rw [hrchild] at hr
      rcases hf'.put hl (by omega) hsize hroom with ⟨hout, hlt⟩ | ⟨ql, sl, hputl, htl, hrooml, hfl⟩
      · refine .inl ⟨?_, by omega⟩
        simp [treeIteratorBfsNextIn, hmarker, hqueue, hsome, hlchild, hout]
      · rcases hfl.put hr (by omega) hsize hrooml with ⟨hout, hlt⟩ | ⟨qr, sr, hputr, htr, hroomr, hfr⟩
        · refine .inl ⟨?_, by omega⟩
          simp [treeIteratorBfsNextIn, hmarker, hqueue, hsome, hlchild, hrchild, hputl, hout]
        · rw [List.append_assoc] at hfr
          refine .inr ⟨{ iterator with nodeQueue := some qr }, ?_,
            ⟨hmarker, qr, sr, _, rfl, hfr, ?_, rfl, ?_, ?_, hroomr⟩⟩
          · simp [treeIteratorBfsNextIn, hmarker, hqueue, hsome, hlchild, hrchild, hputl, hputr]
          · rw [height] at hle
            intro u hu
            rcases mem_row.mp hu with hu | ⟨-, rfl | rfl⟩
            · exact hheight' u hu
            · omega
            · omega
          · intro hmem
            rcases mem_row.mp hmem with hmem | ⟨hne, -⟩
            · exact absurd (hnil (List.mem_cons_of_mem _ hmem)) (by simp)
            · exact absurd rfl hne
          · simp only [List.tail_cons]
            omega

theorem bfs_calls (hs : Sweeping nodes cap room count h rest iterator) (hcap : count ≤ cap)
    (hsize : cap < sizeMax) (hh : 0 < h) (n : Nat) :
    (treeIteratorBfsCalls nodes room iterator n = none ∧ room < count) ∨
      ∃ iterator', treeIteratorBfsCalls nodes room iterator n =
          some (iterator', (List.range n).map fun k => (rest[k]?, .ok)) ∧
        Sweeping nodes cap room count h (rest.drop n) iterator' := by
  induction n with
  | zero => exact .inr ⟨iterator, rfl, hs⟩
  | succ n ih =>
    rcases ih with ⟨hout, hlt⟩ | ⟨it, hcalls, hit⟩
    · exact .inl ⟨by rw [treeIteratorBfsCalls, hout]; rfl, hlt⟩
    · rcases bfs_step hit hcap hsize hh with ⟨hout, hlt⟩ | ⟨it', hnext, hit'⟩
      · refine .inl ⟨?_, hlt⟩
        rw [treeIteratorBfsCalls, hcalls]
        exact congrArg (Option.bind · _) hout
      · rw [List.head?_drop] at hnext
        rw [List.tail_drop] at hit'
        refine .inr ⟨it', ?_, hit'⟩
        simp [treeIteratorBfsCalls, hcalls, hnext, List.range_succ]

theorem Sweeping.count_le (hs : Sweeping nodes cap room count h [] iterator) (hh : 0 < h) :
    count ≤ room := by
  obtain ⟨-, queue, s, ts, -, -, -, hsweep, -, htotal, hroom⟩ := hs
  have hroots := roots_le_sweep hh ts
  rw [hsweep, List.length_nil] at hroots
  rw [List.length_nil] at htotal
  omega

variable {top : Option Addr} {t : BinaryTree Addr} {maxNodes : Nat}

theorem bfsCreate_sweeping (hshaped : Shaped nodes top t) (hmax : maxNodes ≠ 0)
    (hsize : maxNodes < sizeMax) (hgranted : treeIteratorAdvise .BFS maxNodes ≤ ptrdiffMax) :
    (treeIteratorBfsCreate true top maxNodes = none ∧ treeIteratorBfsRoom maxNodes = 0) ∨
      ∃ iterator, treeIteratorBfsCreate true top maxNodes = some iterator ∧
        Sweeping nodes maxNodes (treeIteratorBfsRoom maxNodes) (max 1 (levelorder t).length)
          (t.height + 1) (levelorder t) iterator := by
  have hinit : vqueueInit none maxNodes =
      some ⟨fun _ => (none : Option Addr), 0, 0, 0, maxNodes⟩ := if_neg hmax
  have hf : Frontier nodes _ (Vqueue.Spec.start maxNodes) [] :=
    ⟨Vqueue.refines_init none hinit, rfl, rfl, nofun, Nat.le_refl 0⟩
  have hpos : (Vqueue.Spec.start (α := Option Addr) maxNodes).total < maxNodes :=
    Nat.pos_of_ne_zero hmax
  have htop := hshaped.ptr_eq
  rw [htop] at hshaped ⊢
  rcases Nat.eq_zero_or_pos (treeIteratorBfsRoom maxNodes) with hroom | hroom
  · refine .inl ⟨?_, hroom⟩
    have hout := hf.not_enqueue hpos (Nat.le_of_eq hroom) (root t)
    simp [treeIteratorBfsCreate, hmax, hgranted, hinit, hout]
  · obtain ⟨queue, s, hput, htotal, hf⟩ := hf.enqueue hshaped hpos hsize hroom
    have hone : s.total = 1 := htotal
    refine .inr ⟨⟨.BFS, 0, maxNodes, none, none, none, some queue⟩, ?_,
      ⟨rfl, queue, s, [t], rfl, hf, ?_, sweep_singleton t (Nat.le_succ _), ?_, ?_, ?_⟩⟩
    · simp [treeIteratorBfsCreate, hmax, hgranted, hinit, hput]
    · intro u hu
      rw [List.mem_singleton.mp hu]
      exact Nat.le_succ _
    · intro hmem
      rw [← List.mem_singleton.mp hmem]
      rfl
    · cases t with
      | nil => simp [hone, roots, levelorder]
      | node a l r =>
        have hlength := (levelorder_perm (.node a l r)).length_eq
        rw [inorder_node, List.length_append, List.length_cons] at hlength
        simp only [hone, roots, List.flatMap_singleton, level, List.length_singleton]
        omega
    · rw [hone]
      exact hroom

theorem bfsWalk_cases (hshaped : Shaped nodes top t) (hmax : maxNodes ≠ 0)
    (hsize : maxNodes < sizeMax) (hgranted : treeIteratorAdvise .BFS maxNodes ≤ ptrdiffMax)
    (hcount : (inorder t).length ≤ maxNodes) (n : Nat) :
    (treeIteratorBfsWalk nodes top maxNodes n = none ∧
        treeIteratorBfsRoom maxNodes < max 1 (inorder t).length) ∨
      treeIteratorBfsWalk nodes top maxNodes n =
          some ((List.range n).map fun k => ((levelorder t)[k]?, .ok)) ∧
        ((levelorder t).length ≤ n → max 1 (inorder t).length ≤ treeIteratorBfsRoom maxNodes) := by
  rw [← (levelorder_perm t).length_eq] at hcount ⊢
  rcases bfsCreate_sweeping hshaped hmax hsize hgranted with ⟨hout, hroom⟩ | ⟨it, hcreate, hit⟩
  · refine .inl ⟨?_, by omega⟩
    rw [treeIteratorBfsWalk, hout]
    rfl
  · rcases bfs_calls hit (by omega) hsize (Nat.succ_pos _) n with
      ⟨hout, hlt⟩ | ⟨it', hcalls, hit'⟩
    · refine .inl ⟨?_, hlt⟩
      simp [treeIteratorBfsWalk, hcreate, hout]
    · refine .inr ⟨?_, fun hn => ?_⟩
      · simp [treeIteratorBfsWalk, hcreate, hcalls]
      · rw [List.drop_of_length_le hn] at hit'
        exact hit'.count_le (Nat.succ_pos _)

/-- The calls return the nodes level by level, and then NULL, without a failed enqueue, just where
the block has a slot for each node, and for the root of an empty tree. -/
theorem bfs_walk (hshaped : Shaped nodes top t) (hmax : maxNodes ≠ 0)
    (hsize : maxNodes < sizeMax) (hgranted : treeIteratorAdvise .BFS maxNodes ≤ ptrdiffMax)
    (hcount : (inorder t).length ≤ maxNodes) :
    (∀ n, treeIteratorBfsWalk nodes top maxNodes n =
      some ((List.range n).map fun k => ((levelorder t)[k]?, .ok))) ↔
      sizeofTreeIterator + sizeofVqueue + sizeofPointer * max 1 (inorder t).length ≤
        treeIteratorAdvise .BFS maxNodes := by
  have hroom : max 1 (inorder t).length ≤ treeIteratorBfsRoom maxNodes ↔
      sizeofTreeIterator + sizeofVqueue + sizeofPointer * max 1 (inorder t).length ≤
        treeIteratorAdvise .BFS maxNodes := by
    rw [treeIteratorBfsRoom, Nat.le_div_iff_mul_le (by decide)]
    have hone := Nat.le_max_left 1 (inorder t).length
    simp only [sizeofPointer] at *
    omega
  rw [← hroom]
  constructor
  · intro hwalk
    rcases bfsWalk_cases hshaped hmax hsize hgranted hcount (levelorder t).length with
      ⟨hout, -⟩ | ⟨-, hle⟩
    · exact absurd ((hwalk _).symm.trans hout) nofun
    · exact hle (Nat.le_refl _)
  · intro hle n
    rcases bfsWalk_cases hshaped hmax hsize hgranted hcount n with ⟨-, hlt⟩ | ⟨hwalk, -⟩
    · exact absurd hle (Nat.not_le.mpr hlt)
    · exact hwalk

end Walk

def branching : Nodes Nat Unit
  | 0 => ⟨(), none, some 1, some 2⟩
  | 1 => ⟨(), some 0, none, some 3⟩
  | 2 => ⟨(), some 0, none, none⟩
  | _ => ⟨(), some 1, none, none⟩

theorem bfs_walk_branching :
    (∀ n, treeIteratorBfsWalk branching (some 0) 4 n =
      some ((List.range n).map fun k => ([0, 1, 2, 3][k]?, .ok))) ↔
      sizeofTreeIterator + sizeofVqueue + sizeofPointer * 4 ≤ treeIteratorAdvise .BFS 4 :=
  bfs_walk (t := .node 0 (.node 1 .nil (.node 3 .nil .nil)) (.node 2 .nil .nil))
    ⟨rfl, ⟨rfl, rfl, rfl, rfl, rfl⟩, rfl, rfl, rfl⟩ (by decide) (by decide) (by decide) (by decide)

theorem bfsWalk_eq_branching :
    treeIteratorWalk branching 0 (some 0) .BFS 4 5 = some [some 0, some 1, some 2, some 3, none] :=
  bfsWalk_eq (show treeIteratorBfsWalk branching (some 0) 4 5 = some
    [(some 0, .ok), (some 1, .ok), (some 2, .ok), (some 3, .ok), (none, .ok)] from rfl) 0

/-- The block for `2 ^ 61` nodes has no slot: the root is put behind it. -/
theorem not_bfs_walk_wrapped :
    Shaped branching (some 2) (.node 2 .nil .nil) ∧ treeIteratorAdvise .BFS (2 ^ 61) = 104 ∧
      ¬ ∀ n, treeIteratorBfsWalk branching (some 2) (2 ^ 61) n =
        some ((List.range n).map fun k => ([2][k]?, .ok)) := by
  refine ⟨⟨rfl, rfl, rfl⟩, rfl, fun hwalk => ?_⟩
  exact absurd (hwalk 0) (by decide)

end Dert
