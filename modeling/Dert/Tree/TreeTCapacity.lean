import Dert.Tree.TreeTRuns

namespace Dert.TreeT

open BinaryTree Library Library.SearchTree Library.LinkedTree

/-- `num_nodes` is the number of linked nodes, and an insertion succeeds exactly while that
is below `max_nodes`. -/
def CapacityLaw (x : Option State) : Prop :=
  ∃ s t, x = some s ∧ Shaped s.tree.nodes s.tree.root t ∧
    s.tree.numNodes = (inorder t).length ∧
    ∀ v, (∃ s', insert s v = some (s', .ok)) ↔ (inorder t).length < s.tree.maxNodes

def Call.isInsert : Call → Bool
  | .insert _ => true
  | .delete _ => false

def insertions (tr : List (Option State × Call)) : Nat := tr.countP fun p => p.2.isInsert

def NothingDeleted (tr : List (Option State × Call)) : Prop :=
  ∀ p ∈ tr, ∀ s v, p = (some s, .delete v) → treeLookup s.tree v = some none

def Roomy (maxNodes n : Nat) : Prop := maxNodes < 2 ^ 59 ∨ n < maxNodes % 2 ^ 59

structure Kept (maxNodes n : Nat) (s : State) (t : BinaryTree Nat) : Prop where
  good : Good s t
  count : s.tree.numNodes = (inorder t).length
  inserted : s.tree.numNodes = min n maxNodes
  within : s.tree.numNodes ≤ s.tree.room
  maxNodes_eq : s.tree.maxNodes = maxNodes
  room_eq : s.tree.room = maxNodes % 2 ^ 59

variable {granted : Bool} {maxNodes n : Nat} {tree : TreeTree} {s : State} {t : BinaryTree Nat}
  {v : UInt8} {a : Nat} {x x' : Option State} {tr : List (Option State × Call)} {call : Call}

theorem Roomy.mono {m : Nat} (h : Roomy maxNodes n) (hmn : m ≤ n) : Roomy maxNodes m :=
  h.imp_right (Nat.lt_of_le_of_lt hmn)

theorem insertions_insert : insertions ((x, .insert v) :: tr) = insertions tr + 1 :=
  List.countP_cons_of_pos rfl

theorem insertions_delete : insertions ((x, .delete v) :: tr) = insertions tr :=
  List.countP_cons_of_neg (by simp [Call.isInsert])

theorem insertions_le : insertions tr ≤ insertions ((x, call) :: tr) := by
  cases call with
  | insert v =>
    rw [insertions_insert]
    exact Nat.le_succ _
  | delete v => rw [insertions_delete]

theorem nothingDeleted_insert : NothingDeleted ((x, .insert v) :: tr) ↔ NothingDeleted tr := by
  simp [NothingDeleted]

theorem nothingDeleted_delete :
    NothingDeleted ((some s, .delete v) :: tr) ↔
      treeLookup s.tree v = some none ∧ NothingDeleted tr := by
  simp only [NothingDeleted, List.forall_mem_cons]
  apply and_congr_left'
  constructor
  · exact fun h => h s v rfl
  · rintro h _ _ heq
    cases heq
    exact h

theorem kept_fresh (h : treeCreate granted maxNodes = some (some tree)) :
    Kept maxNodes 0 ⟨tree, []⟩ .nil := by
  obtain ⟨hroot, hnum, hmax, hroom⟩ := treeCreate_eq h
  exact ⟨⟨sound_empty hroot, by simp, by simp⟩, hnum, by simp [hnum], by simp [hnum], hmax, hroom⟩

section Kept

variable (h : Kept maxNodes n s t)

include h

theorem Kept.room (hroomy : Roomy maxNodes n) (hfull : s.tree.numNodes ≠ s.tree.maxNodes) :
    s.tree.numNodes < s.tree.room := by
  obtain ⟨-, -, hinserted, -, hmax, hroom⟩ := h
  rcases hroomy with hroomy | hroomy
  · rw [Nat.mod_eq_of_lt hroomy] at hroom
    omega
  · omega

theorem Kept.capacityLaw_iff : CapacityLaw (some s) ↔ Roomy maxNodes n := by
  have hcount := h.count
  constructor
  · rintro ⟨_, t', ⟨⟩, hshaped, -, hlaw⟩
    obtain rfl := h.good.sound.linked.shaped.unique hshaped
    by_contra hroomy
    obtain ⟨hwraps, hout⟩ := not_or.mp hroomy
    have hmod : maxNodes % 2 ^ 59 < 2 ^ 59 := Nat.mod_lt _ (by decide)
    have hfull : s.tree.numNodes < s.tree.maxNodes := by
      rw [h.maxNodes_eq]
      have hwithin := h.within
      rw [h.room_eq] at hwithin
      omega
    have hroom : ¬ s.tree.numNodes < s.tree.room := by
      rw [h.room_eq, h.inserted]
      omega
    obtain ⟨s', hinsert⟩ := (hlaw 0).mpr (hcount ▸ hfull)
    rw [insert_outside (Nat.ne_of_lt hfull) hroom] at hinsert
    cases hinsert
  · intro hroomy
    refine ⟨s, t, rfl, h.good.sound.linked.shaped, hcount, fun v => ?_⟩
    rw [← hcount]
    by_cases hfull : s.tree.numNodes = s.tree.maxNodes
    · rw [insert_full hfull, hfull]
      simp
    · obtain ⟨s', hinsert, -⟩ := h.good.inserted v hfull (h.room hroomy hfull)
      have hle : s.tree.numNodes ≤ s.tree.maxNodes := by
        rw [h.inserted, h.maxNodes_eq]
        exact Nat.min_le_right _ _
      exact ⟨fun _ => Nat.lt_of_le_of_ne hle hfull, fun _ => ⟨s', hinsert⟩⟩

theorem Kept.insert (hroomy : Roomy maxNodes n) (v : UInt8) :
    ∃ s' t', (TreeT.insert s v).map Prod.fst = some s' ∧ Kept maxNodes (n + 1) s' t' := by
  by_cases hfull : s.tree.numNodes = s.tree.maxNodes
  · refine ⟨s, t, by rw [insert_full hfull]; rfl, { h with inserted := ?_ }⟩
    have hinserted := h.inserted
    have hmax := h.maxNodes_eq
    omega
  · have hroom := h.room hroomy hfull
    obtain ⟨s', hinsert, hgood, hnum, hmax, hroom'⟩ := h.good.inserted v hfull hroom
    refine ⟨s', _, by rw [hinsert]; rfl, hgood, ?_, ?_, ?_, ?_, ?_⟩
    · rw [hnum, h.count, (inorder_grow_perm t).length_eq, List.length_cons]
    · have hinserted := h.inserted
      have hmax := h.maxNodes_eq
      omega
    · rw [hnum, hroom']
      exact hroom
    · rw [hmax, h.maxNodes_eq]
    · rw [hroom', h.room_eq]

theorem Kept.deleted (hlookup : treeLookup s.tree v = some (some a)) :
    ¬ CapacityLaw ((delete s v).map Prod.fst) := by
  rintro ⟨s', t', hs', hshaped, hcount, -⟩
  obtain ⟨⟨_, ret⟩, hdelete, rfl⟩ := Option.map_eq_some_iff.mp hs'
  obtain ⟨⟨tree', _⟩, htree, heq⟩ := Option.map_eq_some_iff.mp hdelete
  cases heq
  have hbefore := h.count
  obtain ⟨C, l, r, rfl, -, hnode⟩ := h.good.sound.located hlookup
  rw [hnode] at htree
  have hdet : Detachable C l r := by
    by_contra hdet
    rw [h.good.sound.stuck hdet] at htree
    cases htree
  obtain ⟨root, nodes, heq, hshaped', -⟩ := h.good.sound.detached hdet
  rw [heq] at htree
  cases htree
  obtain rfl := hshaped.unique hshaped'
  simp only [hbefore, inorder_plug, inorder_node, inorder_join, List.length_append,
    List.length_cons] at hcount
  omega

end Kept

theorem kept_run (hcreate : treeCreate granted maxNodes = some (some tree))
    (hr : (machine.after (some ⟨tree, []⟩)).Run tr x) (hnothing : NothingDeleted tr)
    (hroomy : Roomy maxNodes (insertions tr)) :
    ∃ s t, x = some s ∧ Kept maxNodes (insertions tr) s t := by
  induction hr with
  | start hinit =>
    cases hinit
    exact ⟨_, _, rfl, kept_fresh hcreate⟩
  | @next tr x call x' hr hs ih =>
    have hroomy' : Roomy maxNodes (insertions tr) := hroomy.mono insertions_le
    cases call with
    | insert v =>
      obtain ⟨s, t, rfl, hkept⟩ := ih (nothingDeleted_insert.mp hnothing) hroomy'
      cases hs
      rw [insertions_insert]
      obtain ⟨s', t', heq, hkept⟩ := hkept.insert hroomy' v
      exact ⟨s', t', heq, hkept⟩
    | delete v =>
      have htail : NothingDeleted tr := fun p hp => hnothing p (List.mem_cons_of_mem _ hp)
      obtain ⟨s, t, rfl, hkept⟩ := ih htail hroomy'
      cases hs
      rw [insertions_delete]
      have hdelete := (hkept.good.missing (nothingDeleted_delete.mp hnothing).1).2
      exact ⟨s, t, by rw [hdelete]; rfl, hkept⟩

theorem Kept.step_iff (h : Kept maxNodes (insertions tr) s t)
    (hroomy : Roomy maxNodes (insertions tr)) (hnothing : NothingDeleted tr)
    (hs : machine.step (some s) call = some x') :
    CapacityLaw x' ↔ NothingDeleted ((some s, call) :: tr) ∧
      Roomy maxNodes (insertions ((some s, call) :: tr)) := by
  cases call with
  | insert v =>
    cases hs
    obtain ⟨s', t', heq, hkept⟩ := h.insert hroomy v
    rw [heq, hkept.capacityLaw_iff, nothingDeleted_insert, insertions_insert]
    exact (and_iff_right hnothing).symm
  | delete v =>
    cases hs
    rw [nothingDeleted_delete, insertions_delete]
    obtain ⟨found, hlookup⟩ : ∃ found, treeLookup s.tree v = some found :=
      ⟨_, h.good.sound.treeLookup_eq v⟩
    cases found with
    | none =>
      have hlaw := h.capacityLaw_iff.mpr hroomy
      rw [(h.good.missing hlookup).2]
      exact ⟨fun _ => ⟨⟨hlookup, hnothing⟩, hroomy⟩, fun _ => hlaw⟩
    | some a =>
      have hmiss : treeLookup s.tree v ≠ some none := by simp [hlookup]
      exact ⟨fun hlaw => absurd hlaw (h.deleted hlookup), fun hcond => absurd hcond.1.1 hmiss⟩

theorem capacity_created (hcreate : treeCreate granted maxNodes = some (some tree))
    (hr : (machine.after (some ⟨tree, []⟩)).Run tr x) :
    (∀ y, Machine.Visits tr x y → CapacityLaw y) ↔
      NothingDeleted tr ∧ Roomy maxNodes (insertions tr) := by
  induction hr with
  | start hinit =>
    cases hinit
    simp only [Machine.visits_nil, forall_eq, (kept_fresh hcreate).capacityLaw_iff]
    exact ⟨fun hroomy => ⟨fun _ hp => absurd hp List.not_mem_nil, hroomy⟩, fun h => h.2⟩
  | @next tr x call x' hr hs ih =>
    simp only [Machine.visits_cons, forall_eq_or_imp, ih]
    constructor
    · rintro ⟨hlaw, hnothing, hroomy⟩
      obtain ⟨s, t, rfl, hkept⟩ := kept_run hcreate hr hnothing hroomy
      exact (hkept.step_iff hroomy hnothing hs).mp hlaw
    · rintro ⟨hnothing, hroomy⟩
      have hnothing' : NothingDeleted tr := fun p hp => hnothing p (List.mem_cons_of_mem _ hp)
      have hroomy' : Roomy maxNodes (insertions tr) := hroomy.mono insertions_le
      obtain ⟨s, t, rfl, hkept⟩ := kept_run hcreate hr hnothing' hroomy'
      exact ⟨(hkept.step_iff hroomy' hnothing' hs).mpr ⟨hnothing, hroomy⟩, hnothing', hroomy'⟩

/-- The capacity is the number of linked nodes, in every state of a run, exactly when the tree
lies in its block, the run takes no node out and its insertions fit into the block. -/
theorem capacity_run_iff (hcreate : treeCreate granted maxNodes ≠ some none)
    (hr : (machine.after
      ((treeCreate granted maxNodes).join.map fun tree => ⟨tree, []⟩)).Run tr x) :
    (∀ y, Machine.Visits tr x y → CapacityLaw y) ↔
      maxNodes % 2 ^ 59 ≠ 2 ^ 59 - 1 ∧ NothingDeleted tr ∧ Roomy maxNodes (insertions tr) := by
  rcases treeCreate_cases hcreate with ⟨hlast, hnone⟩ | ⟨hlast, tree, hcreate⟩
  · have hstray : ¬ CapacityLaw none := by
      rintro ⟨s, -, h, -⟩
      cases h
    refine iff_of_false (fun hlaw => ?_) fun h => h.1 hlast
    rw [hnone] at hr
    obtain ⟨y, rfl, hvisits⟩ := hr.visits_init
    exact hstray (hlaw none hvisits)
  · rw [hcreate] at hr
    rw [and_iff_right hlast]
    exact capacity_created hcreate hr

theorem capacity_run_iff_full :
    ∃ tr x, (machine.after ((treeCreate true 2).join.map fun tree => ⟨tree, []⟩)).Run tr x ∧
      insertions tr = 3 ∧ ∀ y, Machine.Visits tr x y → CapacityLaw y := by
  have hcreate : treeCreate true 2 ≠ some none := by simp [treeCreate, treeInit, treeAdvise, sizeT,
    sizeMax, sizeofTreeTree, sizeofTreeNode, ptrdiffMax]
  obtain ⟨tr, x, hr, htr⟩ := Machine.exists_run_of_record
    (machine.after ((treeCreate true 2).join.map fun tree => ⟨tree, []⟩)) _
    [.insert 5, .insert 9, .insert 5]
    (fun tr _ => (insertions tr = 3) && tr.all fun p => p.2.isInsert) rfl (by decide)
  simp only [Bool.and_eq_true, decide_eq_true_eq, List.all_eq_true] at htr
  refine ⟨tr, x, hr, htr.1, (capacity_run_iff hcreate hr).mpr
    ⟨by decide, ?_, .inl (by decide)⟩⟩
  rintro p hp s v rfl
  cases htr.2 _ hp

/-- After its only node was taken out again, the tree is empty and still full. -/
theorem not_capacity_emptied :
    ¬ ∀ granted maxNodes tree tr x, treeCreate granted maxNodes = some (some tree) →
      (machine.after (some ⟨tree, []⟩)).Run tr x → CapacityLaw x := by
  intro h
  have hcreate : treeCreate true 1 = some (some { created with maxNodes := 1, room := 1 }) := rfl
  obtain ⟨tr, x, hr, hx⟩ := Machine.exists_run_of_exec
    (machine.after (some ⟨{ created with maxNodes := 1, room := 1 }, []⟩)) _ [.insert 5, .delete 5]
    (fun x => x.any fun s => (s.tree.root = none) && (s.tree.maxNodes = 1) &&
      (insert s 5).all fun r => r.2 = .EINVAL) rfl (by decide)
  obtain ⟨s, t, rfl, hshaped, -, hlaw⟩ := h true 1 _ tr x hcreate hr
  simp only [Option.any_some, Bool.and_eq_true, decide_eq_true_eq] at hx
  obtain ⟨⟨hroot, hmax⟩, hfails⟩ := hx
  rw [hroot] at hshaped
  obtain rfl : t = .nil := hshaped.unique (show Shaped s.tree.nodes none .nil from rfl)
  obtain ⟨s', hinsert⟩ := (hlaw 5).mpr (by rw [hmax]; exact Nat.zero_lt_one)
  simp [hinsert] at hfails

end Dert.TreeT
