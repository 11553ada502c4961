import Dert.Tree.TreeTRuns

namespace Dert.TreeT

open BinaryTree Library.SearchTree Library.LinkedTree

variable {nodes nodes' : Nodes Nat UInt8} {ptr : Option Nat} {t : BinaryTree Nat} {tree : TreeTree}
  {a p n fuel : Nat} {v : UInt8}

/-- A tree in memory as far as its child links go: parents and order may be wrong. -/
structure Standing (tree : TreeTree) (t : BinaryTree Nat) : Prop where
  shaped : Shaped tree.nodes tree.root t
  nodup : (inorder t).Nodup
  harvested : ∀ a ∈ inorder t, a < tree.numNodes

theorem Sound.standing (h : Sound tree t) : Standing tree t :=
  ⟨h.linked.shaped, h.nodup, h.harvested⟩

theorem Standing.height_le (h : Standing tree t) : t.height ≤ tree.numNodes :=
  Nat.le_trans (height_le_length t) (length_le_of_harvested h.nodup h.harvested)

section Insert

def attach (nodes : Nodes Nat UInt8) (v : UInt8) (p n : Nat) : Nodes Nat UInt8 :=
  if v < valAt nodes p then setLchild nodes p (some n) else setRchild nodes p (some n)

theorem attach_of_ne {b : Nat} (h : b ≠ p) : attach nodes v p n b = nodes b := by
  rw [attach]
  split_ifs
  · exact setLchild_of_ne _ _ h
  · exact setRchild_of_ne _ _ h

theorem attach_left (h : v < valAt nodes p) :
    attach nodes v p n p = { nodes p with lchild := some n } := by
  rw [attach, if_pos h, setLchild_self]

theorem attach_right (h : ¬ v < valAt nodes p) :
    attach nodes v p n p = { nodes p with rchild := some n } := by
  rw [attach, if_neg h, setRchild_self]

theorem shaped_frame (h : Shaped nodes ptr t) (hsame : ∀ b ∈ inorder t, nodes' b = nodes b) :
    Shaped nodes' ptr t := by
  induction t generalizing ptr with
  | nil => exact h
  | node a l r ihl ihr =>
    obtain ⟨hptr, hl, hr⟩ := h
    simp only [inorder_node, List.mem_append, List.mem_cons] at hsame
    refine ⟨hptr, ?_, ?_⟩
    · rw [hsame a (.inr (.inl rfl))]
      exact ihl hl fun b hb => hsame b (.inl hb)
    · rw [hsame a (.inr (.inl rfl))]
      exact ihr hr fun b hb => hsame b (.inr (.inr hb))

theorem insertLoop_frame (h : Shaped nodes ptr t) (hsame : ∀ b ∈ inorder t, nodes' b = nodes b)
    (up : Option Nat) :
    treeInsertLoop nodes' v fuel up ptr = treeInsertLoop nodes v fuel up ptr := by
  induction t generalizing ptr fuel up with
  | nil =>
    obtain rfl : ptr = none := h
    cases fuel <;> rfl
  | node a l r ihl ihr =>
    obtain ⟨rfl, hl, hr⟩ := h
    simp only [inorder_node, List.mem_append, List.mem_cons] at hsame
    cases fuel with
    | zero => rfl
    | succ fuel =>
      rw [treeInsertLoop, treeInsertLoop, hsame a (.inr (.inl rfl)),
        ihl hl (fun b hb => hsame b (.inl hb)), ihr hr (fun b hb => hsame b (.inr (.inr hb)))]

theorem shaped_attach_of_notMem (h : Shaped nodes ptr t) (hp : p ∉ inorder t) :
    Shaped (attach nodes v p n) ptr t := by
  refine shaped_frame h fun b hb => attach_of_ne ?_
  rintro rfl
  exact hp hb

theorem val_attach (nodes : Nodes Nat UInt8) (v : UInt8) (p n : Nat) :
    valAt (attach nodes v p n) = valAt nodes := by
  rw [attach]
  split_ifs
  · exact val_setLchild ..
  · exact val_setRchild ..

theorem shaped_attach (h : Shaped nodes ptr t) (hnd : (inorder t).Nodup) (hn : n ∉ inorder t)
    (hleaf : (nodes n).lchild = none ∧ (nodes n).rchild = none) (hfuel : t.height ≤ fuel)
    (ht : t ≠ .nil) (up : Option Nat) :
    ∃ p ∈ inorder t, treeInsertLoop nodes v fuel up ptr = some (some p) ∧
      Shaped (attach nodes v p n) ptr (grow (valAt nodes) v n t) := by
  induction t generalizing ptr fuel up with
  | nil => exact absurd rfl ht
  | node a l r ihl ihr =>
    obtain ⟨rfl, hl, hr⟩ := h
    obtain ⟨fuel, rfl, hlfuel, hrfuel⟩ := exists_fuel hfuel
    obtain ⟨hndl, hndar, hdisj⟩ := List.nodup_append.mp hnd
    obtain ⟨har, hndr⟩ := List.nodup_cons.mp hndar
    simp only [inorder_node, List.mem_append, List.mem_cons, not_or] at hn
    obtain ⟨hnl, hna, hnr⟩ := hn
    have hnew : Shaped (attach nodes v a n) (some n) (.node n .nil .nil) := by
      rw [Shaped, attach_of_ne hna, hleaf.1, hleaf.2]
      exact ⟨rfl, rfl, rfl⟩
    have hal : a ∉ inorder l := fun h => hdisj a h a List.mem_cons_self rfl
    simp only [treeInsertLoop, treeCompare_neg, grow]
    by_cases hlt : v < valAt nodes a
    · rw [if_pos (show v < (nodes a).val from hlt), if_pos hlt]
      cases l with
      | nil =>
        have hnone : (nodes a).lchild = none := hl
        rw [hnone]
        refine ⟨a, by simp, by cases fuel <;> rfl, rfl, ?_, ?_⟩
        · rw [attach_left hlt]
          exact hnew
        · rw [attach_left hlt]
          exact shaped_attach_of_notMem hr har
      | node c ll lr =>
        obtain ⟨p, hp, hloop, hshaped⟩ := ihl hl hndl hnl hlfuel (by simp) (some a)
        have hpa : a ≠ p := by
          rintro rfl
          exact hal hp
        refine ⟨p, List.mem_append_left _ hp, hloop, rfl, ?_, ?_⟩
        · rw [attach_of_ne hpa]
          exact hshaped
        · rw [attach_of_ne hpa]
          exact shaped_attach_of_notMem hr fun hpr =>
            hdisj p hp p (List.mem_cons_of_mem _ hpr) rfl
    · rw [if_neg (show ¬ v < (nodes a).val from hlt), if_neg hlt]
      cases r with
      | nil =>
        have hnone : (nodes a).rchild = none := hr
        rw [hnone]
        refine ⟨a, by simp, by cases fuel <;> rfl, rfl, ?_, ?_⟩
        · rw [attach_right hlt]
          exact shaped_attach_of_notMem hl hal
        · rw [attach_right hlt]
          exact hnew
      | node c rl rr =>
        obtain ⟨p, hp, hloop, hshaped⟩ := ihr hr hndr hnr hrfuel (by simp) (some a)
        have hpa : a ≠ p := by
          rintro rfl
          exact har hp
        refine ⟨p, List.mem_append_right _ (List.mem_cons_of_mem _ hp), hloop, rfl, ?_, ?_⟩
        · rw [attach_of_ne hpa]
          exact shaped_attach_of_notMem hl fun hpl =>
            hdisj p hpl p (List.mem_cons_of_mem _ hp) rfl
        · rw [attach_of_ne hpa]
          exact hshaped

theorem Standing.inserted (h : Standing tree t) (v : UInt8) (hfull : tree.numNodes ≠ tree.maxNodes)
    (hroom : tree.numNodes < tree.room) :
    ∃ root nodes,
      treeInsert tree v =
        some ({ tree with root, nodes, numNodes := tree.numNodes + 1 }, .ok) ∧
      Standing { tree with root, nodes, numNodes := tree.numNodes + 1 }
        (grow (valAt tree.nodes) v tree.numNodes t) ∧
      valAt nodes = Function.update (valAt tree.nodes) tree.numNodes v := by
  have hnew : tree.numNodes ∉ inorder t := fun hmem => Nat.lt_irrefl _ (h.harvested _ hmem)
  have hmem : ∀ b ∈ inorder (grow (valAt tree.nodes) v tree.numNodes t), b < tree.numNodes + 1 := by
    intro b hb
    rcases mem_grow.mp hb with rfl | hb
    · exact Nat.lt_succ_self _
    · exact Nat.lt_succ_of_lt (h.harvested b hb)
  have hnd : (inorder (grow (valAt tree.nodes) v tree.numNodes t)).Nodup :=
    (inorder_grow_perm t).nodup_iff.mpr (List.nodup_cons.mpr ⟨hnew, h.nodup⟩)
  obtain ⟨base, hbase⟩ : ∃ base, base =
      Function.update tree.nodes tree.numNodes { zeroNode with val := v } := ⟨_, rfl⟩
  have hvals : valAt base = Function.update (valAt tree.nodes) tree.numNodes v := by
    rw [hbase, ← val_planted tree v none, planted, val_setParent]
  have hold : ∀ b ∈ inorder t, base b = tree.nodes b := by
    intro b hb
    rw [hbase]
    exact Function.update_of_ne (Nat.ne_of_lt (h.harvested b hb)) ..
  have hleaf : base tree.numNodes = { zeroNode with val := v } := by
    rw [hbase, Function.update_self]
  by_cases ht : t = .nil
  · subst ht
    have hroot : tree.root = none := h.shaped
    refine ⟨some tree.numNodes, setParent base tree.numNodes none, ?_, ⟨?_, hnd, hmem⟩, ?_⟩
    · rw [treeInsert, if_neg hfull, hroot, treeInsertLoop, Option.bind_some, treeNodeInsert,
        treeHarvest, if_neg hfull]
      simp [treeNodeInit, hroom, hroot, hbase]
    · simp [grow, Shaped, hleaf, zeroNode]
    · rw [val_setParent, hvals]
  · obtain ⟨p, hp, hloop, hshaped⟩ := shaped_attach (v := v) (shaped_frame h.shaped hold) h.nodup hnew
      (by rw [hleaf]; exact ⟨rfl, rfl⟩) h.height_le ht none
    refine ⟨tree.root, setParent (attach base v p tree.numNodes) tree.numNodes (some p), ?_,
      ⟨?_, hnd, hmem⟩, ?_⟩
    · rw [treeInsert, if_neg hfull, ← insertLoop_frame h.shaped hold none, hloop, Option.bind_some,
        treeNodeInsert, treeHarvest, if_neg hfull]
      simp only [treeNodeInit, if_pos hroom, Option.map_some, ← hbase, treeCompare_neg]
      rfl
    · have hgrow : grow (valAt base) v tree.numNodes t = grow (valAt tree.nodes) v tree.numNodes t :=
        grow_congr fun b hb => congrArg Node.val (hold b hb)
      rw [hgrow] at hshaped
      refine hshaped.congr fun b => ⟨?_, ?_⟩
      · rw [setParent_lchild]
      · rw [setParent_rchild]
    · rw [val_setParent, val_attach, hvals]

theorem Standing.values_grow (h : Standing tree t) (root : Option Nat)
    (hval : valAt nodes = Function.update (valAt tree.nodes) tree.numNodes v) :
    (values { tree with root, nodes, numNodes := tree.numNodes + 1 }
      (grow (valAt tree.nodes) v tree.numNodes t)).Perm (v :: values tree t) := by
  have hold : (inorder t).map (valAt nodes) = (inorder t).map (valAt tree.nodes) := by
    refine List.map_congr_left fun b hb => ?_
    rw [hval, Function.update_of_ne (Nat.ne_of_lt (h.harvested b hb))]
  have hgrow : (inorder (grow (valAt tree.nodes) v tree.numNodes t)).Perm
      (tree.numNodes :: inorder t) := inorder_grow_perm t
  have hperm := hgrow.map (valAt nodes)
  rw [List.map_cons, hold, hval, Function.update_self] at hperm
  rw [values, values, hval]
  exact hperm

end Insert

end Dert.TreeT
