import Mathlib.Logic.Function.Basic
import Dert.Library.Preorder

universe u v

namespace Dert.Library.LinkedTree

open BinaryTree SearchTree

structure Node (Addr : Type u) (Val : Type v) where
  val : Val
  parent : Option Addr
  lchild : Option Addr
  rchild : Option Addr
  deriving DecidableEq

abbrev Nodes (Addr : Type u) (Val : Type v) := Addr → Node Addr Val

variable {Addr : Type u} {Val : Type v}

def SameChildren (nodes nodes' : Nodes Addr Val) : Prop :=
  ∀ b, (nodes' b).lchild = (nodes b).lchild ∧ (nodes' b).rchild = (nodes b).rchild

section Assignments

variable [DecidableEq Addr] (nodes : Nodes Addr Val) (a : Addr) (ptr : Option Addr)

def setParent : Nodes Addr Val := Function.update nodes a { nodes a with parent := ptr }

def setLchild : Nodes Addr Val := Function.update nodes a { nodes a with lchild := ptr }

def setRchild : Nodes Addr Val := Function.update nodes a { nodes a with rchild := ptr }

def adopt (ptr up : Option Addr) : Nodes Addr Val :=
  match ptr with
  | none => nodes
  | some c => setParent nodes c up

variable {a} {b : Addr}

@[simp] theorem setParent_self : setParent nodes a ptr a = { nodes a with parent := ptr } :=
  Function.update_self ..

@[simp] theorem setLchild_self : setLchild nodes a ptr a = { nodes a with lchild := ptr } :=
  Function.update_self ..

@[simp] theorem setRchild_self : setRchild nodes a ptr a = { nodes a with rchild := ptr } :=
  Function.update_self ..

theorem setParent_of_ne (h : b ≠ a) : setParent nodes a ptr b = nodes b :=
  Function.update_of_ne h ..

theorem setLchild_of_ne (h : b ≠ a) : setLchild nodes a ptr b = nodes b :=
  Function.update_of_ne h ..

theorem setRchild_of_ne (h : b ≠ a) : setRchild nodes a ptr b = nodes b :=
  Function.update_of_ne h ..

theorem update_field {β : Type*} (f : Node Addr Val → β) {node : Node Addr Val}
    (h : f node = f (nodes a)) (b : Addr) : f (Function.update nodes a node b) = f (nodes b) := by
  by_cases hb : b = a
  · subst hb
    rw [Function.update_self, h]
  · rw [Function.update_of_ne hb]

theorem setParent_lchild : (setParent nodes a ptr b).lchild = (nodes b).lchild :=
  update_field nodes Node.lchild (by rfl) b

theorem setParent_rchild : (setParent nodes a ptr b).rchild = (nodes b).rchild :=
  update_field nodes Node.rchild (by rfl) b

theorem setLchild_rchild : (setLchild nodes a ptr b).rchild = (nodes b).rchild :=
  update_field nodes Node.rchild (by rfl) b

theorem setRchild_lchild : (setRchild nodes a ptr b).lchild = (nodes b).lchild :=
  update_field nodes Node.lchild (by rfl) b

theorem adopt_of_ne {up : Option Addr} (h : ∀ c, ptr = some c → b ≠ c) :
    adopt nodes ptr up b = nodes b := by
  cases ptr with
  | none => rfl
  | some c => exact setParent_of_ne nodes up (h c rfl)

theorem update_comm (f g : Node Addr Val → Node Addr Val) (hfg : ∀ node, f (g node) = g (f node))
    (a c : Addr) :
    Function.update (Function.update nodes a (g (nodes a))) c
        (f (Function.update nodes a (g (nodes a)) c)) =
      Function.update (Function.update nodes c (f (nodes c))) a
        (g (Function.update nodes c (f (nodes c)) a)) := by
  by_cases hac : a = c
  · subst hac
    simp [hfg]
  · rw [Function.update_of_ne (Ne.symm hac), Function.update_of_ne hac, Function.update_comm hac]

theorem setParent_setLchild (c : Addr) (q : Option Addr) :
    setParent (setLchild nodes a ptr) c q = setLchild (setParent nodes c q) a ptr :=
  update_comm nodes (fun node => { node with parent := q }) (fun node => { node with lchild := ptr })
    (fun _ => rfl) a c

theorem setParent_setRchild (c : Addr) (q : Option Addr) :
    setParent (setRchild nodes a ptr) c q = setRchild (setParent nodes c q) a ptr :=
  update_comm nodes (fun node => { node with parent := q }) (fun node => { node with rchild := ptr })
    (fun _ => rfl) a c

theorem sameChildren_setParent (q : Option Addr) :
    SameChildren (setParent nodes a ptr) (setParent nodes a q) := by
  intro b
  simp only [setParent_lchild, setParent_rchild, and_self]

variable {nodes} {nodes' : Nodes Addr Val}

theorem SameChildren.update (h : SameChildren nodes nodes') {node node' : Node Addr Val}
    (hl : node'.lchild = node.lchild) (hr : node'.rchild = node.rchild) :
    SameChildren (Function.update nodes a node) (Function.update nodes' a node') := by
  intro b
  by_cases hb : b = a
  · subst hb
    simp [hl, hr]
  · simpa only [Function.update_of_ne hb] using h b

theorem SameChildren.setRchild (h : SameChildren nodes nodes') :
    SameChildren (setRchild nodes a ptr) (setRchild nodes' a ptr) :=
  h.update (h a).1 rfl

end Assignments

section Trees

/-- The nodes below the pointer `ptr` have the shape `t`, and `up` is the parent of the
first. -/
def Linked (nodes : Nodes Addr Val) : Option Addr → Option Addr → BinaryTree Addr → Prop
  | _, ptr, .nil => ptr = none
  | up, ptr, .node a l r => ptr = some a ∧ (nodes a).parent = up ∧
      Linked nodes (some a) (nodes a).lchild l ∧ Linked nodes (some a) (nodes a).rchild r

variable {nodes nodes' : Nodes Addr Val} {up ptr root : Option Addr} {t : BinaryTree Addr}

theorem Linked.congr (h : Linked nodes up ptr t)
    (hsame : ∀ a ∈ inorder t, nodes' a = nodes a) : Linked nodes' up ptr t := by
  induction t generalizing up ptr with
  | nil => exact h
  | node a l r ihl ihr =>
    obtain ⟨hptr, hup, hl, hr⟩ := h
    simp only [inorder_node, List.mem_append, List.mem_cons] at hsame
    have ha := hsame a (.inr (.inl rfl))
    refine ⟨hptr, ?_, ?_, ?_⟩
    · rw [ha, hup]
    · rw [ha]
      exact ihl hl fun b hb => hsame b (.inl hb)
    · rw [ha]
      exact ihr hr fun b hb => hsame b (.inr (.inr hb))

def Shaped (nodes : Nodes Addr Val) : Option Addr → BinaryTree Addr → Prop
  | ptr, .nil => ptr = none
  | ptr, .node a l r => ptr = some a ∧ Shaped nodes (nodes a).lchild l ∧
      Shaped nodes (nodes a).rchild r

theorem Linked.shaped (h : Linked nodes up ptr t) : Shaped nodes ptr t := by
  induction t generalizing up ptr with
  | nil => exact h
  | node a l r ihl ihr =>
    obtain ⟨hptr, -, hl, hr⟩ := h
    exact ⟨hptr, ihl hl, ihr hr⟩

theorem Shaped.ptr_eq (h : Shaped nodes ptr t) : ptr = SearchTree.root t := by
  cases t with
  | nil => exact h
  | node a l r => exact h.1

theorem Linked.ptr_eq (h : Linked nodes up ptr t) : ptr = SearchTree.root t := h.shaped.ptr_eq

theorem Shaped.congr (h : Shaped nodes ptr t) (hsame : SameChildren nodes nodes') :
    Shaped nodes' ptr t := by
  induction t generalizing ptr with
  | nil => exact h
  | node a l r ihl ihr =>
    obtain ⟨hptr, hl, hr⟩ := h
    rw [← (hsame a).1] at hl
    rw [← (hsame a).2] at hr
    exact ⟨hptr, ihl hl, ihr hr⟩

theorem Shaped.unique {t' : BinaryTree Addr} (h : Shaped nodes ptr t) (h' : Shaped nodes ptr t') :
    t = t' := by
  induction t generalizing t' ptr with
  | nil =>
    cases h
    cases t' with
    | nil => rfl
    | node => cases h'.1
  | node a l r ihl ihr =>
    obtain ⟨rfl, hl, hr⟩ := h
    cases t' with
    | nil => cases h'
    | node b l' r' =>
      obtain ⟨hb, hl', hr'⟩ := h'
      cases hb
      rw [ihl hl hl', ihr hr hr']

theorem Shaped.below {a : Addr} (h : Shaped nodes ptr t) (ha : a ∈ inorder t) :
    ∃ t', Shaped nodes (some a) t' ∧ (inorder t').length ≤ (inorder t).length := by
  induction t generalizing ptr with
  | nil => cases ha
  | node b l r ihl ihr =>
    obtain ⟨hptr, hl, hr⟩ := h
    rw [inorder_node, List.mem_append, List.mem_cons] at ha
    rw [inorder_node, List.length_append, List.length_cons]
    rcases ha with ha | rfl | ha
    · obtain ⟨t', ht', hle⟩ := ihl hl ha
      exact ⟨t', ht', by omega⟩
    · exact ⟨.node a l r, ⟨rfl, hl, hr⟩, by simp⟩
    · obtain ⟨t', ht', hle⟩ := ihr hr ha
      exact ⟨t', ht', by omega⟩

theorem Shaped.not_mem_of_child {a : Addr} {c : BinaryTree Addr} (h : Shaped nodes (some a) t)
    (hc : Shaped nodes ptr c) (hlt : (inorder c).length < (inorder t).length) : a ∉ inorder c := by
  intro ha
  obtain ⟨t', ht', hle⟩ := hc.below ha
  obtain rfl := h.unique ht'
  omega

theorem Shaped.nodup {β : Type*} [LinearOrder β] {key : Addr → β} (h : Shaped nodes ptr t)
    (ho : Ordered key t) : (inorder t).Nodup := by
  induction t generalizing ptr with
  | nil => exact List.nodup_nil
  | node a l r ihl ihr =>
    obtain ⟨rfl, hl, hr⟩ := h
    obtain ⟨hleft, hright, hol, hor⟩ := ho
    have har : a ∉ inorder r :=
      Shaped.not_mem_of_child (t := .node a l r) ⟨rfl, hl, hr⟩ hr (by simp; omega)
    rw [inorder_node, List.nodup_append, List.nodup_cons]
    refine ⟨ihl hl hol, ⟨har, ihr hr hor⟩, fun b hb c hc heq => ?_⟩
    subst heq
    rcases List.mem_cons.mp hc with rfl | hc
    · exact lt_irrefl _ (hleft b hb)
    · exact not_lt_of_ge (hright b hc) (hleft b hb)

theorem Linked.mem {a : Addr} (h : Linked nodes up (some a) t) : a ∈ inorder t := by
  cases t with
  | nil => cases h
  | node b l r =>
    cases h.1
    simp

theorem Linked.exists_node {a : Addr} (h : Linked nodes up (some a) t) :
    (nodes a).parent = up ∧ ∃ l r, t = .node a l r := by
  cases t with
  | nil => cases h
  | node b l r =>
    obtain ⟨hab, hup, -, -⟩ := h
    obtain rfl : b = a := (Option.some.inj hab).symm
    exact ⟨hup, l, r, rfl⟩

variable [DecidableEq Addr]

theorem Linked.adopted (h : Linked nodes up ptr t) (hnd : (inorder t).Nodup) (up' : Option Addr) :
    Linked (adopt nodes ptr up') up' ptr t := by
  cases t with
  | nil => exact h
  | node a l r =>
    obtain ⟨rfl, -, hl, hr⟩ := h
    simp only [inorder_node, List.nodup_append, List.nodup_cons, List.mem_cons] at hnd
    obtain ⟨-, ⟨har, -⟩, hdisj⟩ := hnd
    simp only [adopt, Linked, setParent_self, true_and]
    constructor
    · apply hl.congr
      intro b hb
      exact setParent_of_ne _ _ (hdisj b hb a (.inl rfl))
    · apply hr.congr
      intro b hb
      apply setParent_of_ne
      rintro rfl
      exact har hb

theorem hang_frame {a c : Addr} {r : BinaryTree Addr} {up q : Option Addr}
    (ht : Linked nodes up ptr t) (hspine : c ∉ a :: inorder r) (hct : c ∉ inorder t) :
    adopt (setRchild nodes (rightmost a r) ptr) ptr q c = nodes c := by
  have hptr : ∀ d, ptr = some d → c ≠ d := by
    rintro d rfl rfl
    exact hct ht.mem
  have hm : c ≠ rightmost a r := by
    rintro rfl
    exact hspine (rightmost_mem a r)
  rw [adopt_of_ne _ _ hptr, setRchild_of_ne _ _ hm]

theorem Linked.hung {a : Addr} {l r : BinaryTree Addr} {up' : Option Addr}
    (h : Linked nodes up (some a) (.node a l r)) (ht : Linked nodes up' ptr t)
    (hnd : (inorder (hang (.node a l r) t)).Nodup) :
    Linked (adopt (setRchild nodes (rightmost a r) ptr) ptr (some (rightmost a r)))
      up (some a) (hang (.node a l r) t) := by
  obtain ⟨-, hup, hl, hr⟩ := h
  induction r generalizing a l up with
  | nil =>
    rw [hang, hang, inorder_node, List.nodup_append, List.nodup_cons] at hnd
    obtain ⟨-, ⟨hat, hndt⟩, hdisj⟩ := hnd
    have hptr : ∀ d, ptr = some d → a ≠ d := by
      rintro d rfl rfl
      exact hat ht.mem
    have ha : adopt (setRchild nodes a ptr) ptr (some a) a =
        { nodes a with rchild := ptr } := by
      rw [adopt_of_ne _ _ hptr, setRchild_self]
    simp only [hang, rightmost, Linked, ha, true_and]
    refine ⟨hup, hl.congr fun b hb => ?_, ?_⟩
    · apply hang_frame (r := .nil) ht
      · intro hba
        exact hdisj b hb a List.mem_cons_self (List.mem_singleton.mp hba)
      · intro hbt
        exact hdisj b hb b (List.mem_cons_of_mem _ hbt) rfl
    · have hset : ∀ b ∈ inorder t, setRchild nodes a ptr b = nodes b := by
        intro b hb
        apply setRchild_of_ne
        rintro rfl
        exact hat hb
      exact (ht.congr hset).adopted hndt (some a)
  | node b bl br _ ih =>
    obtain ⟨hb, hbup, hbl, hbr⟩ := hr
    rw [hang, inorder_node, List.nodup_append, List.nodup_cons] at hnd
    obtain ⟨-, ⟨har, hndr⟩, hdisj⟩ := hnd
    have hother : ∀ c, c ∉ inorder (hang (.node b bl br) t) →
        adopt (setRchild nodes (rightmost b br) ptr) ptr (some (rightmost b br)) c =
          nodes c := by
      intro c hc
      simp only [inorder_hang, inorder_node, List.mem_append, List.mem_cons, not_or] at hc
      apply hang_frame ht
      · simp only [List.mem_cons, not_or]
        exact hc.1.2
      · exact hc.2
    have ih := ih hndr hbup hbl hbr
    rw [hang, rightmost, Linked, hother a har, hb]
    refine ⟨rfl, hup, hl.congr fun c hc => hother c fun h => ?_, ih⟩
    exact hdisj c hc c (List.mem_cons_of_mem _ h) rfl

def mount (nodes : Nodes Addr Val) (a b : Addr) : Nodes Addr Val :=
  setParent (setLchild nodes b (some a)) a (some b)

theorem mount_of_ne {a b c : Addr} (ha : c ≠ a) (hb : c ≠ b) : mount nodes a b c = nodes c := by
  rw [mount, setParent_of_ne _ _ ha, setLchild_of_ne _ _ hb]

theorem mount_left {a b : Addr} (h : b ≠ a) :
    mount nodes a b a = { nodes a with parent := some b } := by
  rw [mount, setParent_self, setLchild_of_ne _ _ h.symm]

theorem mount_right {a b : Addr} (h : b ≠ a) :
    mount nodes a b b = { nodes b with lchild := some a } := by
  rw [mount, setParent_of_ne _ _ h, setLchild_self]

@[simp] theorem mount_rchild (nodes : Nodes Addr Val) (a b c : Addr) :
    (mount nodes a b c).rchild = (nodes c).rchild := by
  rw [mount, setParent_rchild, setLchild_rchild]

theorem Linked.mounted {a b : Addr} {l r : BinaryTree Addr}
    (h : Linked nodes up (some a) (.node a l r)) (hnd : (inorder (.node a l r)).Nodup)
    (hb : b ∉ inorder (.node a l r)) :
    Linked (mount nodes a b) (some b) (some a) (.node a l r) := by
  obtain ⟨-, -, hl, hr⟩ := h
  simp only [inorder_node, List.nodup_append, List.nodup_cons, List.mem_append, List.mem_cons,
    not_or] at hnd hb
  obtain ⟨hbl, hba, hbr⟩ := hb
  obtain ⟨-, ⟨har, -⟩, hal⟩ := hnd
  refine ⟨rfl, by rw [mount_left hba], ?_, ?_⟩
  · rw [mount_left hba]
    apply hl.congr
    intro c hc
    apply mount_of_ne
    · exact hal c hc a (.inl rfl)
    · rintro rfl
      exact hbl hc
  · rw [mount_left hba]
    apply hr.congr
    intro c hc
    apply mount_of_ne
    · rintro rfl
      exact har hc
    · rintro rfl
      exact hbr hc

theorem Linked.joined {a b : Addr} {ll lr rl rr : BinaryTree Addr} {upL upR : Option Addr}
    (hL : Linked nodes upL (some a) (.node a ll lr))
    (hR : Linked nodes upR (some b) (.node b rl rr))
    (hnd : (inorder (.node a ll lr) ++ inorder (.node b rl rr)).Nodup) :
    let last := rightmost a lr
    let ptr := (nodes b).lchild
    let nodes' := adopt (setRchild (mount nodes a b) last ptr) ptr (some last)
    Linked nodes' upR (some b) (join (.node a ll lr) (.node b rl rr)) ∧
      ∀ c ∉ inorder (.node a ll lr) ++ inorder (.node b rl rr), nodes' c = nodes c := by
  intro last ptr nodes'
  obtain ⟨hndL, hndR, hdisj⟩ := List.nodup_append.mp hnd
  have hbL : b ∉ inorder (.node a ll lr) := fun h => hdisj b h b (by simp) rfl
  obtain ⟨-, hbup, hrl, hrr⟩ := hR
  rw [inorder_node, List.nodup_append, List.nodup_cons] at hndR
  obtain ⟨hndrl, ⟨hbrr, -⟩, hrlrr⟩ := hndR
  have hbrl : b ∉ inorder rl := fun h => hrlrr b h b List.mem_cons_self rfl
  have hba : b ≠ a := fun h => hbL (by simp [h])
  have hmount : ∀ c ∉ inorder (.node a ll lr), c ≠ b → mount nodes a b c = nodes c := by
    intro c hc hcb
    apply mount_of_ne _ hcb
    rintro rfl
    exact hc (by simp)
  have hrl' : Linked (mount nodes a b) (some b) ptr rl := by
    apply hrl.congr
    intro c hc
    apply hmount
    · exact fun h => hdisj c h c (by simp [hc]) rfl
    · exact hrlrr c hc b List.mem_cons_self
  have hhung := (hL.mounted hndL hbL).hung hrl' (by
    rw [inorder_hang]
    refine List.nodup_append.mpr ⟨hndL, hndrl, fun c hc d hd => hdisj c hc d (by simp [hd])⟩)
  have hframe : ∀ c ∉ inorder (.node a ll lr), c ∉ inorder rl →
      nodes' c = mount nodes a b c := by
    intro c hc hcrl
    simp only [inorder_node, List.mem_append, not_or] at hc
    exact hang_frame hrl' hc.2 hcrl
  have hb : nodes' b = { nodes b with lchild := some a } := by
    rw [hframe b hbL hbrl, mount_right hba]
  constructor
  · refine ⟨rfl, ?_, ?_, ?_⟩
    · rw [hb, hbup]
    · rw [hb]
      exact hhung
    · rw [hb]
      apply hrr.congr
      intro c hc
      have hcL : c ∉ inorder (.node a ll lr) := fun h => hdisj c h c (by simp [hc]) rfl
      rw [hframe c hcL fun h => hrlrr c h c (List.mem_cons_of_mem _ hc) rfl]
      apply hmount c hcL
      rintro rfl
      exact hbrr hc
  · intro c hc
    rw [List.mem_append, not_or, inorder_node b, List.mem_append, List.mem_cons, not_or, not_or] at hc
    rw [hframe c hc.1 hc.2.1, hmount c hc.1 hc.2.2.1]

end Trees

section Contexts

def above : Context Addr → Option Addr
  | [] => none
  | f :: _ => some f.addr

def hole (nodes : Nodes Addr Val) (root : Option Addr) : Context Addr → Option Addr
  | [] => root
  | .left a _ :: _ => (nodes a).lchild
  | .right _ a :: _ => (nodes a).rchild

def sibling (nodes : Nodes Addr Val) : Frame Addr → Option Addr
  | .left a _ => (nodes a).rchild
  | .right _ a => (nodes a).lchild

def LinkedAround (nodes : Nodes Addr Val) (root : Option Addr) : Context Addr → Prop
  | [] => True
  | f :: C => hole nodes root C = some f.addr ∧ (nodes f.addr).parent = above C ∧
      Linked nodes (some f.addr) (sibling nodes f) f.sibling ∧ LinkedAround nodes root C

variable {nodes nodes' : Nodes Addr Val} {ptr root : Option Addr} {C : Context Addr}
  {t t' : BinaryTree Addr}

theorem linked_fill (root : Option Addr) (C : Context Addr) {f : Frame Addr} {up : Option Addr} :
    Linked nodes up ptr (f.fill t) ↔ ptr = some f.addr ∧ (nodes f.addr).parent = up ∧
      Linked nodes (some f.addr) (sibling nodes f) f.sibling ∧
      Linked nodes (some f.addr) (hole nodes root (f :: C)) t := by
  cases f with
  | left a r => simp only [Frame.fill, Linked, Frame.addr, Frame.sibling, sibling, hole]; tauto
  | right l a => simp only [Frame.fill, Linked, Frame.addr, Frame.sibling, sibling, hole]

theorem linked_plug : Linked nodes none root (plug C t) ↔
    LinkedAround nodes root C ∧ Linked nodes (above C) (hole nodes root C) t := by
  induction C generalizing t with
  | nil => simp [plug, LinkedAround, above, hole]
  | cons f C ih =>
    rw [plug, ih, linked_fill root C, LinkedAround, above]
    tauto

theorem hole_congr (hsame : ∀ a ∈ around C, nodes' a = nodes a) :
    hole nodes' root C = hole nodes root C := by
  cases C with
  | nil => rfl
  | cons f C =>
    have hf := hsame f.addr (mem_around.mpr (.inl rfl))
    cases f with
    | left => exact congrArg Node.lchild hf
    | right => exact congrArg Node.rchild hf

theorem LinkedAround.congr (h : LinkedAround nodes root C)
    (hsame : ∀ a ∈ around C, nodes' a = nodes a) : LinkedAround nodes' root C := by
  induction C with
  | nil => trivial
  | cons f C ih =>
    obtain ⟨hhole, hup, hsib, hC⟩ := h
    simp only [mem_around] at hsame
    have hsameC := fun a ha => hsame a (.inr (.inr ha))
    have hf := hsame f.addr (.inl rfl)
    refine ⟨?_, ?_, ?_, ih hC hsameC⟩
    · rw [hole_congr hsameC, hhole]
    · rw [hf, hup]
    · have hptr : sibling nodes' f = sibling nodes f := by
        cases f with
        | left => exact congrArg Node.rchild hf
        | right => exact congrArg Node.lchild hf
      rw [hptr]
      exact hsib.congr fun a ha => hsame a (.inr (.inl ha))

variable [DecidableEq Addr]

def repoint (nodes : Nodes Addr Val) : Context Addr → Option Addr → Nodes Addr Val
  | [], _ => nodes
  | .left a _ :: _, ptr => setLchild nodes a ptr
  | .right _ a :: _, ptr => setRchild nodes a ptr

def reroot (root : Option Addr) : Context Addr → Option Addr → Option Addr
  | [], ptr => ptr
  | _ :: _, _ => root

theorem repoint_of_ne {a : Addr} (h : a ∉ around C) :
    repoint nodes C ptr a = nodes a := by
  cases C with
  | nil => rfl
  | cons f C =>
    have hne : a ≠ f.addr := fun haf => h (mem_around.mpr (.inl haf))
    cases f with
    | left => exact setLchild_of_ne _ _ hne
    | right => exact setRchild_of_ne _ _ hne

theorem LinkedAround.repointed (h : LinkedAround nodes root C) (hnd : (around C).Nodup)
    (ptr : Option Addr) : LinkedAround (repoint nodes C ptr) (reroot root C ptr) C := by
  cases C with
  | nil => trivial
  | cons f C =>
    obtain ⟨hhole, hup, hsib, hC⟩ := h
    obtain ⟨hfsib, hfC⟩ := nodup_around hnd
    have hother : ∀ a, a ≠ f.addr → repoint nodes (f :: C) ptr a = nodes a := by
      intro a ha
      cases f with
      | left => exact setLchild_of_ne _ _ ha
      | right => exact setRchild_of_ne _ _ ha
    have hsameC : ∀ a ∈ around C, repoint nodes (f :: C) ptr a = nodes a :=
      fun a ha => hother a fun haf => hfC (haf ▸ ha)
    refine ⟨?_, ?_, ?_, hC.congr hsameC⟩
    · rw [hole_congr hsameC]
      exact hhole
    · cases f <;> simpa [repoint, Frame.addr] using hup
    · have hptr : sibling (repoint nodes (f :: C) ptr) f = sibling nodes f := by
        cases f <;> simp [sibling, repoint]
      rw [hptr]
      exact hsib.congr fun a ha => hother a fun haf => hfsib (haf ▸ ha)

theorem hole_repoint : hole (repoint nodes C ptr) (reroot root C ptr) C = ptr := by
  cases C with
  | nil => rfl
  | cons f C => cases f <;> simp [hole, repoint]

theorem Linked.replace (h : Linked nodes none root (plug C t))
    (hnd : (inorder (plug C t)).Nodup) (hsame : ∀ a ∈ around C, nodes' a = nodes a)
    (ht' : Linked nodes' (above C) ptr t') (hapart : ∀ a ∈ inorder t', a ∉ around C) :
    Linked (repoint nodes' C ptr) none (reroot root C ptr) (plug C t') := by
  have hC := (linked_plug.mp h).1
  obtain ⟨-, hndC, -⟩ := nodup_plug.mp hnd
  apply linked_plug.mpr
  refine ⟨(hC.congr hsame).repointed hndC ptr, ?_⟩
  rw [hole_repoint]
  exact ht'.congr fun a ha => repoint_of_ne (hapart a ha)

end Contexts

end Dert.Library.LinkedTree
