import Dert.Tree.TreeIteratorCalls

universe u v

namespace Dert

open Library.LinkedTree Library.SearchTree BinaryTree

variable {Addr : Type u} {Val : Type v} {nodes : Nodes Addr Val} {top ptr up : Option Addr}
  {C : Context Addr} {t l r : BinaryTree Addr} {a c : Addr} {fuel : Nat}

theorem left_link {b : Addr} {rb : BinaryTree Addr} (hC : LinkedAround nodes top C)
    (hhole : hole nodes top C = some c) (hmem : Frame.left b rb ∈ C) :
    (nodes b).lchild ≠ none ∧ (nodes b).rchild = root rb ∧ b ∈ around C := by
  induction C generalizing c with
  | nil => cases hmem
  | cons f C ih =>
    obtain ⟨hholeC, -, hsib, hC⟩ := hC
    rcases List.mem_cons.mp hmem with rfl | hmem
    · have hleft : (nodes b).lchild = some c := hhole
      exact ⟨hleft ▸ nofun, hsib.ptr_eq, mem_around.mpr (.inl rfl)⟩
    · obtain ⟨hl, hr, hb⟩ := ih hC hholeC hmem
      exact ⟨hl, hr, mem_around.mpr (.inr (.inr hb))⟩

variable [DecidableEq Addr]

section Climb

theorem preAboveLoop_left {parent : Addr} (hup : (nodes c).parent = some parent)
    (hleft : (nodes parent).lchild = some c) :
    (∀ next, (nodes parent).rchild = some next →
      ∀ fuel, treeIteratorPreAboveLoop nodes (fuel + 1) c = some (some next)) ∧
    ((nodes parent).rchild = none → ∀ fuel, treeIteratorPreAboveLoop nodes fuel c = none) := by
  constructor
  · intro next hnext fuel
    simp [treeIteratorPreAboveLoop, hup, hleft, hnext]
  · intro hnone fuel
    induction fuel with
    | zero => rfl
    | succ fuel ih => simpa [treeIteratorPreAboveLoop, hup, hleft, hnone] using ih

theorem preAboveLoop_right {parent : Addr} (hup : (nodes c).parent = some parent)
    (hleft : (nodes parent).lchild ≠ some c) (hright : (nodes parent).rchild = some c) :
    treeIteratorPreAboveLoop nodes (fuel + 1) c = treeIteratorPreAboveLoop nodes fuel parent := by
  simp [treeIteratorPreAboveLoop, hup, hleft, hright]

/-- The loop climbs as the context of its node says, and so it may go on for ever. -/
theorem preAboveLoop_eq (hC : LinkedAround nodes top C) (hhole : hole nodes top C = some c)
    (hup : (nodes c).parent = above C) (hc : c ∉ around C) (hnd : (around C).Nodup) :
    (∀ next, climb C = some next → ∀ fuel, C.length < fuel →
      treeIteratorPreAboveLoop nodes fuel c = some next) ∧
    (climb C = none → ∀ fuel, treeIteratorPreAboveLoop nodes fuel c = none) := by
  induction C generalizing c with
  | nil =>
    refine ⟨fun next hnext fuel hfuel => ?_, nofun⟩
    obtain ⟨fuel, rfl⟩ := Nat.exists_eq_succ_of_ne_zero (Nat.ne_zero_of_lt hfuel)
    rw [← Option.some.inj hnext]
    simp [treeIteratorPreAboveLoop, hup, above]
  | cons f C ih =>
    obtain ⟨hholeC, hupC, hsib, hC⟩ := hC
    obtain ⟨-, hfC⟩ := nodup_around hnd
    have hndC : (around C).Nodup :=
      ((around_perm f C).nodup_iff.mp hnd).tail.of_append_right
    cases f with
    | left a r =>
      obtain ⟨hfound, hstuck⟩ := preAboveLoop_left hup hhole
      have hr : (nodes a).rchild = root r := hsib.ptr_eq
      constructor
      · intro next hnext fuel hfuel
        obtain ⟨fuel, rfl⟩ := Nat.exists_eq_succ_of_ne_zero (Nat.ne_zero_of_lt hfuel)
        obtain ⟨x, hx, rfl⟩ := Option.map_eq_some_iff.mp hnext
        exact hfound x (hr.trans hx) fuel
      · intro hnone
        exact hstuck (hr.trans (Option.map_eq_none_iff.mp hnone))
    | right l a =>
      have hleft : (nodes a).lchild ≠ some c :=
        right_link hsib fun hl => hc (mem_around.mpr (.inr (.inl hl)))
      obtain ⟨hfound, hstuck⟩ := ih hC hholeC hupC hfC hndC
      constructor
      · intro next hnext fuel hfuel
        obtain ⟨fuel, rfl⟩ := Nat.exists_eq_succ_of_ne_zero (Nat.ne_zero_of_lt hfuel)
        rw [preAboveLoop_right hup hleft hhole]
        exact hfound next hnext fuel (Nat.lt_of_succ_lt_succ hfuel)
      · intro hnone fuel
        cases fuel with
        | zero => rfl
        | succ fuel => rw [preAboveLoop_right hup hleft hhole, hstuck hnone fuel]

end Climb

section Next

variable (hlinked : Linked nodes none top (plug C (.node a l r)))
  (hnd : (inorder (plug C (.node a l r))).Nodup)
include hlinked hnd

theorem preFindSmallestAbove_eq :
    (∀ next, climb C = some next → ∀ fuel, C.length < fuel →
      treeIteratorPreFindSmallestAbove nodes fuel a = some next) ∧
    (climb C = none → ∀ fuel, treeIteratorPreFindSmallestAbove nodes fuel a = none) := by
  obtain ⟨hC, hhole, hup, -⟩ := linked_plug.mp hlinked
  obtain ⟨-, hndC, hapart⟩ := nodup_plug.mp hnd
  cases C with
  | nil =>
    have hnone : (nodes a).parent = none := hup
    refine ⟨fun next hnext fuel _ => ?_, nofun⟩
    rw [treeIteratorPreFindSmallestAbove, if_pos hnone]
    exact hnext
  | cons f C =>
    have hne : (nodes a).parent ≠ none := hup ▸ nofun
    simp only [treeIteratorPreFindSmallestAbove, if_neg hne]
    exact preAboveLoop_eq hC hhole hup (hapart a (by simp)) hndC

theorem preNext_eq (hsib : ∀ b ∈ inorder (plug C (.node a l r)),
      (nodes b).lchild ≠ none → (nodes b).rchild ≠ none) (hfuel : C.length < fuel)
    {iterator : TreeIterator Addr} (hnext : iterator.next = some a) :
    treeIteratorPreNext nodes fuel iterator =
      some ({ iterator with
        prev := iterator.current
        current := some a
        next := (preorder l ++ preorder r ++ preAfter C).head? }, some a) := by
  obtain ⟨hl, hr⟩ := children_eq hlinked
  rw [List.append_assoc, List.head?_append, List.head?_append, head_preorder, head_preorder, ← hl,
    ← hr]
  cases hlchild : (nodes a).lchild with
  | some x => simp [treeIteratorPreNext, hnext, hlchild]
  | none =>
    cases hrchild : (nodes a).rchild with
    | some x => simp [treeIteratorPreNext, hnext, hlchild, hrchild]
    | none =>
      obtain ⟨hC, hhole, -⟩ := linked_plug.mp hlinked
      have hclimb : climb C = some (preAfter C).head? := climb_eq fun b rb hmem => by
        obtain ⟨hb, hrb, hbC⟩ := left_link hC hhole hmem
        exact hrb ▸ hsib b (mem_plug.mpr (.inr hbC)) hb
      have hfound := (preFindSmallestAbove_eq hlinked hnd).1 _ hclimb fuel hfuel
      simp [treeIteratorPreNext, hnext, hlchild, hrchild, hfound]

/-- At a leaf that the climb does not get away from a call does not return. -/
theorem preNext_stuck (hl : l = .nil) (hr : r = .nil) (hC : climb C = none)
    {iterator : TreeIterator Addr} (hnext : iterator.next = some a) (fuel : Nat) :
    treeIteratorPreNext nodes fuel iterator = none := by
  obtain ⟨hlchild, hrchild⟩ := children_eq hlinked
  subst hl hr
  have hstuck := (preFindSmallestAbove_eq hlinked hnd).2 hC fuel
  simp only [root] at hlchild hrchild
  simp [treeIteratorPreNext, hnext, hlchild, hrchild, hstuck]

end Next

section Calls

variable {iterator : TreeIterator Addr} {n : Nat}

omit [DecidableEq Addr] in
theorem nodup_preorder (hnd : (inorder t).Nodup) : (preorder t).Nodup :=
  (preorder_perm t).nodup_iff.mpr hnd

theorem preorder_step (hlinked : Linked nodes none top t) (hnd : (inorder t).Nodup)
    (hsib : ∀ b ∈ inorder t, (nodes b).lchild ≠ none → (nodes b).rchild ≠ none)
    (hfuel : (preorder t).length ≤ fuel) (hmarker : iterator.marker = .PRE)
    (hnext : iterator.next = (preorder t)[n]?) :
    ∃ iterator', treeIteratorNext nodes fuel iterator = some (iterator', (preorder t)[n]?) ∧
      iterator'.marker = .PRE ∧ iterator'.next = (preorder t)[n + 1]? := by
  have hpre : treeIteratorNext nodes fuel iterator = treeIteratorPreNext nodes fuel iterator := by
    rw [treeIteratorNext, hmarker]
  rw [hpre]
  cases hn : (preorder t)[n]? with
  | none =>
    have hle := List.getElem?_eq_none_iff.mp hn
    rw [hn] at hnext
    rw [List.getElem?_eq_none (by omega)]
    exact ⟨{ iterator with prev := iterator.current, current := none, next := none },
      by simp [treeIteratorPreNext, hnext], hmarker, rfl⟩
  | some a =>
    rw [hn] at hnext
    have ha := (preorder_perm t).mem_iff.mp (List.mem_of_getElem? hn)
    obtain ⟨C, l, r, hplug⟩ := exists_plug [] ha
    obtain rfl : plug C (.node a l r) = t := hplug
    have hndp := nodup_preorder hnd
    have horder : preorder (plug C (.node a l r)) =
        preBefore C ++ a :: (preorder l ++ preorder r ++ preAfter C) := by
      simp [preorder_plug, preorder]
    rw [horder] at hn hndp hfuel ⊢
    obtain rfl := length_of_getElem? hndp hn
    have hC : C.length < fuel := by
      have hle := length_le_preBefore C
      simp only [List.length_append, List.length_cons] at hfuel
      omega
    rw [getElem?_next]
    exact ⟨_, preNext_eq hlinked hnd hsib hC hnext, hmarker, rfl⟩

omit [DecidableEq Addr] in
theorem exists_stuck_leaf (hlinked : Linked nodes none top t) (ha : a ∈ inorder t)
    (hl : (nodes a).lchild ≠ none) (hr : (nodes a).rchild = none) :
    ∃ D b, plug D (.node b .nil .nil) = t ∧ climb D = none := by
  obtain ⟨C, l, r, hplug⟩ := exists_plug [] ha
  obtain rfl : plug C (.node a l r) = t := hplug
  obtain ⟨hlchild, hrchild⟩ := children_eq hlinked
  rw [hlchild] at hl
  cases r with
  | nil => exact exists_stuck (C := .left a .nil :: C) rfl hl
  | node => exact absurd (hrchild.symm.trans hr) nofun

/-- Every call returns, with the nodes in pre-order and then NULL, just where no node has a
left child only. -/
theorem preorder_calls (hlinked : Linked nodes none top t) (hnd : (inorder t).Nodup)
    {maxNodes : Nat} {anyFuel : Nat}
    (hinit : treeIteratorInit nodes anyFuel top .PRE maxNodes = some (some iterator)) :
    (∀ n, ∃ fuel, (treeIteratorCalls nodes fuel iterator n).map Prod.snd =
      some ((List.range n).map fun k => (preorder t)[k]?)) ↔
      ∀ b ∈ inorder t, (nodes b).lchild ≠ none → (nodes b).rchild ≠ none := by
  have hiterator : iterator.marker = .PRE ∧ iterator.next = top := by
    rw [treeIteratorInit] at hinit
    split_ifs at hinit
    · cases hinit
    · obtain rfl := Option.some.inj (Option.some.inj hinit)
      exact ⟨rfl, rfl⟩
  obtain ⟨hmarker, hnext⟩ := hiterator
  have hfirst : iterator.next = (preorder t)[0]? := by
    rw [hnext, hlinked.ptr_eq, ← head_preorder, List.head?_eq_getElem?]
  constructor
  · intro h b hb hl hr
    obtain ⟨D, leaf, rfl, hD⟩ := exists_stuck_leaf hlinked hb hl hr
    obtain ⟨fuel, hcalls⟩ := h ((preBefore D).length + 1)
    obtain ⟨⟨it', results⟩, hcalls, rfl⟩ := Option.map_eq_some_iff.mp hcalls
    obtain ⟨it, hcalls, hstep⟩ := calls_last hcalls
    have hbfs : iterator.marker ≠ .BFS := by simp [hmarker]
    have hmarker' : it.marker = .PRE := (calls_marker hbfs hcalls).trans hmarker
    rw [treeIteratorNext, hmarker'] at hstep
    have hleaf : it.next = some leaf := by
      rw [← (preNext_returned hstep).node, preorder_plug, List.append_assoc,
        List.getElem?_append_right (Nat.le_refl _), Nat.sub_self]
      rfl
    rw [preNext_stuck hlinked hnd rfl rfl hD hleaf] at hstep
    cases hstep
  · intro hsib n
    obtain ⟨iterator', hcalls, -⟩ := calls_of_step
      (S := fun n it => it.marker = .PRE ∧ it.next = (preorder t)[n]?) ⟨hmarker, hfirst⟩
      (fun _ _ hit => preorder_step hlinked hnd hsib (Nat.le_refl _) hit.1 hit.2) n
    exact ⟨_, congrArg (Option.map Prod.snd) hcalls⟩

def pair : Nodes Nat Unit
  | 0 => ⟨(), none, some 1, some 2⟩
  | _ => ⟨(), some 0, none, none⟩

theorem preorder_calls_pair :
    (∀ n, ∃ fuel, (treeIteratorCalls pair fuel ⟨.PRE, 0, 3, none, none, some 0, none⟩ n).map
        Prod.snd = some ((List.range n).map fun k => [0, 1, 2][k]?)) ↔
      ∀ b ∈ [1, 0, 2], (pair b).lchild ≠ none → (pair b).rchild ≠ none :=
  preorder_calls (t := .node 0 (.node 1 .nil .nil) (.node 2 .nil .nil))
    ⟨rfl, rfl, ⟨rfl, rfl, rfl, rfl⟩, rfl, rfl, rfl, rfl⟩ (by decide)
    (show treeIteratorInit pair 0 (some 0) .PRE 3 = some (some _) from rfl)

def single : Nodes Nat Unit
  | 0 => ⟨(), none, some 1, none⟩
  | _ => ⟨(), some 0, none, none⟩

/-- After the root the second call does not return. -/
theorem second_call_stuck :
    Linked single none (some 0) (.node 0 (.node 1 .nil .nil) .nil) ∧
      treeIteratorInit single 0 (some 0) .PRE 2 =
        some (some ⟨.PRE, 0, 2, none, none, some 0, none⟩) ∧
      ¬ ∀ n, ∃ fuel, (treeIteratorCalls single fuel ⟨.PRE, 0, 2, none, none, some 0, none⟩ n).map
        Prod.snd = some ((List.range n).map fun k => [0, 1][k]?) := by
  refine ⟨⟨rfl, rfl, ⟨rfl, rfl, rfl, rfl⟩, rfl⟩, rfl, fun h => ?_⟩
  obtain ⟨fuel, hcalls⟩ := h 2
  have hstuck : treeIteratorPreAboveLoop single fuel 1 = none :=
    (preAboveLoop_left rfl rfl).2 rfl fuel
  simp [treeIteratorCalls, treeIteratorNext, treeIteratorPreNext, treeIteratorPreFindSmallestAbove,
    single, hstuck] at hcalls

end Calls

end Dert
