import Dert.Library.LinkedTree

universe u v

namespace Dert.Library.SearchTree

open BinaryTree

variable {α : Type u}

def mirror : BinaryTree α → BinaryTree α
  | .nil => .nil
  | .node a l r => .node a (mirror r) (mirror l)

@[simp] theorem mirror_node (a : α) (l r : BinaryTree α) :
    mirror (.node a l r) = .node a (mirror r) (mirror l) := rfl

@[simp] theorem inorder_mirror (t : BinaryTree α) : inorder (mirror t) = (inorder t).reverse := by
  induction t with
  | nil => rfl
  | node a l r ihl ihr => simp [ihl, ihr]

end Dert.Library.SearchTree

namespace Dert.Library.LinkedTree

open BinaryTree SearchTree

variable {Addr : Type u} {Val : Type v}

def Node.mirror (node : Node Addr Val) : Node Addr Val :=
  { node with lchild := node.rchild, rchild := node.lchild }

def mirrored (nodes : Nodes Addr Val) : Nodes Addr Val := fun a => (nodes a).mirror

@[simp] theorem mirrored_mirrored (nodes : Nodes Addr Val) : mirrored (mirrored nodes) = nodes := rfl

variable {nodes : Nodes Addr Val} {up ptr : Option Addr} {t : BinaryTree Addr} {a c : Addr}

theorem Linked.mirrored (h : Linked nodes up ptr t) :
    Linked (mirrored nodes) up ptr (mirror t) := by
  induction t generalizing up ptr with
  | nil => exact h
  | node a l r ihl ihr =>
    obtain ⟨hptr, hup, hl, hr⟩ := h
    exact ⟨hptr, hup, ihr hr, ihl hl⟩

theorem Linked.parent_lchild (h : Linked nodes up ptr t) (ha : a ∈ inorder t)
    (hc : (nodes a).lchild = some c) : (nodes c).parent = some a := by
  induction t generalizing up ptr with
  | nil => cases ha
  | node b l r ihl ihr =>
    obtain ⟨-, -, hl, hr⟩ := h
    rw [inorder_node, List.mem_append, List.mem_cons] at ha
    rcases ha with ha | rfl | ha
    · exact ihl hl ha
    · rw [hc] at hl
      exact hl.exists_node.1
    · exact ihr hr ha

theorem Linked.parent_rchild (h : Linked nodes up ptr t) (ha : a ∈ inorder t)
    (hc : (nodes a).rchild = some c) : (nodes c).parent = some a := by
  apply h.mirrored.parent_lchild (a := a) _ hc
  rwa [inorder_mirror, List.mem_reverse]

variable [DecidableEq Addr]

theorem mirrored_setParent (nodes : Nodes Addr Val) (a : Addr) (ptr : Option Addr) :
    mirrored (setParent nodes a ptr) = setParent (mirrored nodes) a ptr :=
  Function.comp_update Node.mirror nodes a _

theorem mirrored_setRchild (nodes : Nodes Addr Val) (a : Addr) (ptr : Option Addr) :
    mirrored (setRchild nodes a ptr) = setLchild (mirrored nodes) a ptr :=
  Function.comp_update Node.mirror nodes a _

theorem mirrored_adopt (nodes : Nodes Addr Val) (ptr up : Option Addr) :
    mirrored (adopt nodes ptr up) = adopt (mirrored nodes) ptr up := by
  cases ptr with
  | none => rfl
  | some c => exact mirrored_setParent nodes c up

theorem setParent_eq_self_iff : setParent nodes a ptr = nodes ↔ (nodes a).parent = ptr := by
  rw [setParent, Function.update_eq_self_iff]
  constructor
  · intro h
    rw [← h]
  · rintro rfl
    rfl

end Dert.Library.LinkedTree
