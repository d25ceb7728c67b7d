import ShardedLedger.Index.RBTree
import Mathlib.Data.List.Sort

/-! The tree a node store represents, each node with its address, and the zipper that
`fixInsert`'s `node` pointer walks. `Rep` ties a store to a tree, parent pointers included. -/

namespace ShardedLedger.Index

inductive Tree (α : Type) where
  | nil
  | node (c : Color) (l : Tree α) (a : Nat) (x : α) (r : Tree α)

namespace Tree
variable {α : Type}

def ptr : Tree α → Nat
  | nil => 0
  | node _ _ a _ _ => a

def color : Tree α → Color
  | nil => .black
  | node c _ _ _ _ => c

def toList : Tree α → List α
  | nil => []
  | node _ l _ x r => l.toList ++ x :: r.toList

def addrs : Tree α → List Nat
  | nil => []
  | node _ l a _ r => l.addrs ++ a :: r.addrs

@[simp] private theorem ptr_nil : (nil : Tree α).ptr = 0 := rfl

@[simp] theorem ptr_node (c : Color) (l : Tree α) (a : Nat) (x : α) (r : Tree α) :
    (node c l a x r).ptr = a := rfl

@[simp] private theorem addrs_nil : (nil : Tree α).addrs = [] := rfl

@[simp] theorem addrs_node (c : Color) (l : Tree α) (a : Nat) (x : α) (r : Tree α) :
    (node c l a x r).addrs = l.addrs ++ a :: r.addrs := rfl

@[simp] private theorem toList_nil : (nil : Tree α).toList = [] := rfl

@[simp] theorem toList_node (c : Color) (l : Tree α) (a : Nat) (x : α) (r : Tree α) :
    (node c l a x r).toList = l.toList ++ x :: r.toList := rfl

def setColor (c : Color) : Tree α → Tree α
  | nil => nil
  | node _ l a x r => node c l a x r

/-- The node whose `d` child is `h` and whose other child is `s`. -/
def mk : Dir → Color → Tree α → Nat → α → Tree α → Tree α
  | .left, c, h, a, x, s => node c h a x s
  | .right, c, h, a, x, s => node c s a x h

@[simp] theorem ptr_mk (d : Dir) (c : Color) (h : Tree α) (a : Nat) (x : α) (s : Tree α) :
    (mk d c h a x s).ptr = a := by cases d <;> rfl

@[simp] private theorem color_mk (d : Dir) (c : Color) (h : Tree α) (a : Nat) (x : α) (s : Tree α) :
    (mk d c h a x s).color = c := by cases d <;> rfl

theorem mk_ne_nil (d : Dir) (c : Color) (h : Tree α) (a : Nat) (x : α) (s : Tree α) :
    mk d c h a x s ≠ nil := by
  cases d <;> simp [mk]

theorem mk_opp (d : Dir) (c : Color) (h : Tree α) (a : Nat) (x : α) (s : Tree α) :
    mk d.opp c s a x h = mk d c h a x s := by cases d <;> rfl

@[simp] theorem setColor_mk (d : Dir) (c c' : Color) (h : Tree α) (a : Nat) (x : α) (s : Tree α) :
    (mk d c h a x s).setColor c' = mk d c' h a x s := by cases d <;> rfl

theorem perm_addrs_mk (d : Dir) (c : Color) (h : Tree α) (a : Nat) (x : α) (s : Tree α) :
    (mk d c h a x s).addrs.Perm (a :: h.addrs ++ s.addrs) := by
  cases d <;> simp only [mk, addrs]
  · exact List.perm_middle.trans (by simp)
  · exact List.perm_middle.trans ((List.perm_append_comm).cons a)

@[simp] private theorem toList_mk_left (c : Color) (h : Tree α) (a : Nat) (x : α) (s : Tree α) :
    (mk .left c h a x s).toList = h.toList ++ x :: s.toList := rfl

@[simp] private theorem toList_mk_right (c : Color) (h : Tree α) (a : Nat) (x : α) (s : Tree α) :
    (mk .right c h a x s).toList = s.toList ++ x :: h.toList := rfl

@[simp] private theorem addrs_setColor (c : Color) (t : Tree α) : (t.setColor c).addrs = t.addrs := by
  cases t <;> rfl

@[simp] private theorem toList_setColor (c : Color) (t : Tree α) : (t.setColor c).toList = t.toList := by
  cases t <;> rfl

@[simp] private theorem ptr_setColor (c : Color) (t : Tree α) : (t.setColor c).ptr = t.ptr := by
  cases t <;> rfl

theorem ptr_eq_zero_or_mem (t : Tree α) : t.ptr = 0 ∨ t.ptr ∈ t.addrs := by
  cases t <;> simp [ptr, addrs]

theorem ptr_mem {t : Tree α} (ht : t ≠ nil) : t.ptr ∈ t.addrs := by
  cases t with
  | nil => exact absurd rfl ht
  | node c l a x r => simp [ptr, addrs]

end Tree

/-- One step of the path from a subtree up to the root: the parent's address and shard, its
colour, the side `dir` the subtree hangs on, and the sibling on the other side. -/
structure Frame (α : Type) where
  dir : Dir
  color : Color
  addr : Nat
  val : α
  sib : Tree α

namespace Frame
variable {α : Type}

def fill (f : Frame α) (t : Tree α) : Tree α := Tree.mk f.dir f.color t f.addr f.val f.sib

/-- The node record the store holds for a frame whose hole is at `hole`. -/
def cell (f : Frame α) (hole par : Nat) : RBNode α :=
  (RBNode.setChild ⟨some f.val, f.color, 0, 0, par⟩ f.dir hole).setChild f.dir.opp f.sib.ptr

def addrs (f : Frame α) : List Nat := f.addr :: f.sib.addrs

theorem fill_ne_nil (f : Frame α) (t : Tree α) : f.fill t ≠ .nil := Tree.mk_ne_nil _ _ _ _ _ _

@[simp] theorem ptr_fill (f : Frame α) (t : Tree α) : (f.fill t).ptr = f.addr := Tree.ptr_mk _ _ _ _ _ _

@[simp] private theorem color_fill (f : Frame α) (t : Tree α) : (f.fill t).color = f.color :=
  Tree.color_mk _ _ _ _ _ _

@[simp] theorem cell_child (f : Frame α) (hole par : Nat) : (f.cell hole par).child f.dir = hole := by
  cases f with | mk d c a x s => cases d <;> rfl

@[simp] theorem cell_child_opp (f : Frame α) (hole par : Nat) :
    (f.cell hole par).child f.dir.opp = f.sib.ptr := by
  cases f with | mk d c a x s => cases d <;> rfl

@[simp] theorem cell_color (f : Frame α) (hole par : Nat) : (f.cell hole par).color = f.color := by
  cases f with | mk d c a x s => cases d <;> rfl

@[simp] private theorem cell_parent (f : Frame α) (hole par : Nat) : (f.cell hole par).parent = par := by
  cases f with | mk d c a x s => cases d <;> rfl

@[simp] theorem cell_shard (f : Frame α) (hole par : Nat) : (f.cell hole par).shard = some f.val := by
  cases f with | mk d c a x s => cases d <;> rfl

theorem cell_setChild (f : Frame α) (p q r : Nat) : (f.cell p r).setChild f.dir q = f.cell q r := by
  cases f with | mk d c a x s => cases d <;> rfl

theorem cell_reparent (f : Frame α) (p q r : Nat) : { f.cell p q with parent := r } = f.cell p r := by
  cases f with | mk d c a x s => cases d <;> rfl

theorem cell_setSib (f : Frame α) (p r : Nat) (s : Tree α) :
    (f.cell p r).setChild f.dir.opp s.ptr = { f with sib := s }.cell p r := by
  cases f with | mk d c a x s => cases d <;> rfl

/-- The frame of `f`'s other child, with `t` on `f`'s side. -/
def flip (f : Frame α) (t : Tree α) : Frame α := ⟨f.dir.opp, f.color, f.addr, f.val, t⟩

@[simp] theorem fill_flip (f : Frame α) (t : Tree α) : (f.flip t).fill f.sib = f.fill t :=
  Tree.mk_opp _ _ _ _ _ _

theorem relink_dir (f : Frame α) (d : Dir) (x r : Nat) (hx : x ≠ f.sib.ptr) :
    (if x = (f.cell x r).child d then d else d.opp) = f.dir := by
  rcases f with ⟨fd, c, a, v, s⟩
  cases fd <;> cases d <;> simp_all [cell, RBNode.setChild, RBNode.child, Dir.opp]

theorem left_dir (f : Frame α) (x r : Nat) (hx : x ≠ f.sib.ptr) :
    (if x = (f.cell x r).left then Dir.left else Dir.right) = f.dir := by
  rcases f with ⟨fd, c, a, v, s⟩
  cases fd <;> simp_all [cell, RBNode.setChild, Dir.opp]

end Frame

/-- Rebuild the tree from a subtree and the path above it. -/
def plug {α : Type} : List (Frame α) → Tree α → Tree α
  | [], t => t
  | f :: fs, t => plug fs (f.fill t)

@[simp] theorem plug_nil {α : Type} (t : Tree α) : plug [] t = t := rfl

@[simp] private theorem plug_cons {α : Type} (f : Frame α) (fs : List (Frame α)) (t : Tree α) :
    plug (f :: fs) t = plug fs (f.fill t) := rfl

theorem toList_plug_congr {α : Type} (fs : List (Frame α)) {t t' : Tree α}
    (h : t.toList = t'.toList) : (plug fs t).toList = (plug fs t').toList := by
  induction fs generalizing t t' with
  | nil => exact h
  | cons f fs ih =>
    refine ih ?_
    rcases f with ⟨d, c, a, x, s⟩
    cases d <;> simp [Frame.fill, h]

/-- The address of the parent of the subtree at the bottom of a path. -/
def upAddr {α : Type} : List (Frame α) → Nat
  | [] => 0
  | f :: _ => f.addr

def ctxAddrs {α : Type} (fs : List (Frame α)) : List Nat := fs.flatMap Frame.addrs

@[simp] theorem upAddr_nil {α : Type} : upAddr ([] : List (Frame α)) = 0 := rfl

@[simp] theorem upAddr_cons {α : Type} (f : Frame α) (fs : List (Frame α)) :
    upAddr (f :: fs) = f.addr := rfl

@[simp] private theorem ctxAddrs_nil {α : Type} : ctxAddrs ([] : List (Frame α)) = [] := rfl

@[simp] theorem ctxAddrs_cons {α : Type} (f : Frame α) (fs : List (Frame α)) :
    ctxAddrs (f :: fs) = f.addr :: (f.sib.addrs ++ ctxAddrs fs) := by
  simp [ctxAddrs, Frame.addrs]

theorem upAddr_eq_zero_or_mem {α : Type} (fs : List (Frame α)) :
    upAddr fs = 0 ∨ upAddr fs ∈ ctxAddrs fs := by
  cases fs <;> simp [upAddr, ctxAddrs, Frame.addrs]

theorem toList_plug_ne_nil {α : Type} (fs : List (Frame α)) {t : Tree α} (ht : t ≠ .nil) :
    (plug fs t).toList ≠ [] := by
  induction fs generalizing t with
  | nil => cases t with
    | nil => exact absurd rfl ht
    | node c l a x r => simp [Tree.toList]
  | cons f fs ih => exact ih (Frame.fill_ne_nil f t)

theorem ptr_plug_mem {α : Type} (f : Frame α) (fs : List (Frame α)) (t : Tree α) :
    (plug (f :: fs) t).ptr ∈ f.addr :: ctxAddrs fs := by
  induction fs generalizing f t with
  | nil => simp
  | cons g fs ih =>
    have h := ih g (f.fill t)
    simp only [plug_cons, List.mem_cons] at h
    rcases h with h | h <;> simp [h]

section Rep
variable {α : Type} (h : Nat → RBNode α)

/-- The store holds tree `t` below a node at address `par`, parent pointers included. -/
def Rep (par : Nat) : Tree α → Prop
  | .nil => True
  | .node c l a x r => a ≠ 0 ∧ h a = ⟨some x, c, l.ptr, r.ptr, par⟩ ∧ Rep a l ∧ Rep a r

/-- The store holds the path `fs` above a hole at address `p`, and `root` is its top. -/
def RepCtx (root : Nat) : List (Frame α) → Nat → Prop
  | [], p => root = p
  | f :: fs, p => f.addr ≠ 0 ∧ h f.addr = f.cell p (upAddr fs) ∧ Rep h f.addr f.sib ∧
      RepCtx root fs f.addr

end Rep

section Balance
variable {α : Type}

/-- Red-black balance, indexed by the root colour and the black height (as in Batteries). -/
inductive Balanced : Tree α → Color → Nat → Prop
  | nil : Balanced .nil .black 0
  | red {l r : Tree α} {a : Nat} {x : α} {n : Nat} :
      Balanced l .black n → Balanced r .black n → Balanced (.node .red l a x r) .red n
  | black {l r : Tree α} {a : Nat} {x : α} {n : Nat} {c₁ c₂ : Color} :
      Balanced l c₁ n → Balanced r c₂ n → Balanced (.node .black l a x r) .black (n + 1)

/-- A path accepts a subtree of root colour `c` and black height `n` below it, so that the whole
tree is balanced with a black root. -/
def PathOK : List (Frame α) → Color → Nat → Prop
  | [], c, _ => c = .black
  | f :: fs, c, n =>
    match f.color with
    | .red => c = .black ∧ Balanced f.sib .black n ∧ PathOK fs .red n
    | .black => (∃ c', Balanced f.sib c' n) ∧ PathOK fs .black (n + 1)

/-- `fixInsert`'s loop invariant on the path: it accepts a red subtree of black height `n`,
except that the subtree's parent may be red too, or the subtree may be the whole tree. -/
def PathViol : List (Frame α) → Nat → Prop
  | [], _ => True
  | f :: fs, n =>
    match f.color with
    | .red => Balanced f.sib .black n ∧ PathOK fs .red n
    | .black => (∃ c', Balanced f.sib c' n) ∧ PathOK fs .black (n + 1)

end Balance
end ShardedLedger.Index
