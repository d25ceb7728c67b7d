import Mathlib.Logic.Function.Basic

/-! The shard index of part_000: a pointer red-black tree over a node store. Address `0` is the
`Nil` sentinel; loops run on fuel equal to the number of allocated addresses. -/

namespace ShardedLedger.Index

/-- `Color`: `Red = true`, `Black = false`. -/
inductive Color
  | red
  | black
  deriving DecidableEq, Repr

/-- A child side. The source's mirrored branches differ only in it. -/
inductive Dir
  | left
  | right
  deriving DecidableEq, Repr

def Dir.opp : Dir → Dir
  | .left => .right
  | .right => .left

@[simp] private theorem Dir.opp_opp (d : Dir) : d.opp.opp = d := by cases d <;> rfl

@[simp] private theorem Dir.opp_ne (d : Dir) : d.opp ≠ d := by cases d <;> decide

@[simp] private theorem Dir.ne_opp (d : Dir) : d ≠ d.opp := by cases d <;> decide

/-- `RBNode`; `shard` is `none` only at the sentinel. -/
structure RBNode (α : Type) where
  shard : Option α
  color : Color
  left : Nat
  right : Nat
  parent : Nat

def RBNode.child (n : RBNode α) : Dir → Nat
  | .left => n.left
  | .right => n.right

def RBNode.setChild (n : RBNode α) : Dir → Nat → RBNode α
  | .left, p => { n with left := p }
  | .right, p => { n with right := p }

@[simp] private theorem RBNode.child_setChild (n : RBNode α) (d : Dir) (p : Nat) :
    (n.setChild d p).child d = p := by
  cases d <;> rfl

@[simp] private theorem RBNode.child_opp_setChild (n : RBNode α) (d : Dir) (p : Nat) :
    (n.setChild d p).child d.opp = n.child d.opp := by
  cases d <;> rfl

@[simp] private theorem RBNode.child_setChild_opp (n : RBNode α) (d : Dir) (p : Nat) :
    (n.setChild d.opp p).child d = n.child d := by
  cases d <;> rfl

@[simp] theorem RBNode.parent_setChild (n : RBNode α) (d : Dir) (p : Nat) :
    (n.setChild d p).parent = n.parent := by
  cases d <;> rfl

@[simp] private theorem RBNode.color_setChild (n : RBNode α) (d : Dir) (p : Nat) :
    (n.setChild d p).color = n.color := by
  cases d <;> rfl

/-- The sentinel `&RBNode{Color: Black}`; its own pointers are never read. -/
def nilNode : RBNode α := ⟨none, .black, 0, 0, 0⟩

/-- `RBTree`: the node store, the next free address, and `Root`. -/
structure RBTree (α : Type) where
  nodes : Nat → RBNode α
  next : Nat
  root : Nat

/-- `NewRBTree`: only the sentinel is allocated, and it is the root. -/
def newRBTree : RBTree α := ⟨fun _ => nilNode, 1, 0⟩

namespace RBTree
variable {α : Type}

def modify (t : RBTree α) (p : Nat) (f : RBNode α → RBNode α) : RBTree α :=
  { t with nodes := Function.update t.nodes p (f (t.nodes p)) }

def setColor (t : RBTree α) (p : Nat) (c : Color) : RBTree α := t.modify p fun n => { n with color := c }

def setParent (t : RBTree α) (p q : Nat) : RBTree α := t.modify p fun n => { n with parent := q }

def setChild (t : RBTree α) (p : Nat) (d : Dir) (q : Nat) : RBTree α := t.modify p fun n => n.setChild d q

@[simp] private theorem setColor_nodes (t : RBTree α) (p : Nat) (c : Color) :
    (t.setColor p c).nodes = Function.update t.nodes p { t.nodes p with color := c } := rfl

@[simp] private theorem setColor_root (t : RBTree α) (p : Nat) (c : Color) : (t.setColor p c).root = t.root :=
  rfl

@[simp] private theorem setColor_next (t : RBTree α) (p : Nat) (c : Color) : (t.setColor p c).next = t.next :=
  rfl

@[simp] theorem setParent_nodes (t : RBTree α) (p q : Nat) :
    (t.setParent p q).nodes = Function.update t.nodes p { t.nodes p with parent := q } := rfl

@[simp] private theorem setParent_root (t : RBTree α) (p q : Nat) : (t.setParent p q).root = t.root := rfl

@[simp] private theorem setParent_next (t : RBTree α) (p q : Nat) : (t.setParent p q).next = t.next := rfl

@[simp] private theorem setChild_nodes (t : RBTree α) (p : Nat) (d : Dir) (q : Nat) :
    (t.setChild p d q).nodes = Function.update t.nodes p ((t.nodes p).setChild d q) := rfl

@[simp] private theorem setChild_root (t : RBTree α) (p : Nat) (d : Dir) (q : Nat) :
    (t.setChild p d q).root = t.root := rfl

@[simp] private theorem setChild_next (t : RBTree α) (p : Nat) (d : Dir) (q : Nat) :
    (t.setChild p d q).next = t.next := rfl

@[simp] theorem setColor_parent (t : RBTree α) (p : Nat) (c : Color) (a : Nat) :
    ((t.setColor p c).nodes a).parent = (t.nodes a).parent := by
  by_cases h : a = p <;> simp [h]

@[simp] private theorem setColor_left (t : RBTree α) (p : Nat) (c : Color) (a : Nat) :
    ((t.setColor p c).nodes a).left = (t.nodes a).left := by
  by_cases h : a = p <;> simp [h]

@[simp] private theorem setColor_child (t : RBTree α) (p : Nat) (c : Color) (a : Nat) (d : Dir) :
    ((t.setColor p c).nodes a).child d = (t.nodes a).child d := by
  by_cases h : a = p <;> cases d <;> simp [h, RBNode.child]

/-- `leftRotate` for `d = left`, `rightRotate` for `d = right`: `x`'s `d.opp` child `y` takes its
place and `x` becomes `y`'s `d` child. Each read sees the writes before it. -/
def rotate (d : Dir) (t : RBTree α) (x : Nat) : RBTree α :=
  let y := (t.nodes x).child d.opp
  let t := t.setChild x d.opp ((t.nodes y).child d)
  let t := if (t.nodes y).child d ≠ 0 then t.setParent ((t.nodes y).child d) x else t
  let t := t.setParent y (t.nodes x).parent
  let t :=
    if (t.nodes x).parent = 0 then { t with root := y }
    else if x = (t.nodes (t.nodes x).parent).child d then t.setChild (t.nodes x).parent d y
    else t.setChild (t.nodes x).parent d.opp y
  let t := t.setChild y d x
  t.setParent x y

def leftRotate (t : RBTree α) (x : Nat) : RBTree α := rotate .left t x

def rightRotate (t : RBTree α) (x : Nat) : RBTree α := rotate .right t x

/-- The last case of `fixInsert`'s loop body, reached directly or after the inner rotation:
recolour the parent black and the grandparent red, then rotate the grandparent the other way. -/
def fixCase3 (d : Dir) (t : RBTree α) (node : Nat) : RBTree α × Nat :=
  let t := t.setColor (t.nodes node).parent .black
  let t := t.setColor (t.nodes (t.nodes node).parent).parent .red
  (rotate d.opp t (t.nodes (t.nodes node).parent).parent, node)

/-- One pass of `fixInsert`'s loop body when `node`'s parent is the grandparent's `d` child. -/
def fixStep (d : Dir) (t : RBTree α) (node : Nat) : RBTree α × Nat :=
  let uncle := (t.nodes (t.nodes (t.nodes node).parent).parent).child d.opp
  if (t.nodes uncle).color = .red then
    let t := t.setColor (t.nodes node).parent .black
    let t := t.setColor uncle .black
    let t := t.setColor (t.nodes (t.nodes node).parent).parent .red
    (t, (t.nodes (t.nodes node).parent).parent)
  else if node = (t.nodes (t.nodes node).parent).child d.opp then
    fixCase3 d (rotate d t (t.nodes node).parent) (t.nodes node).parent
  else fixCase3 d t node

/-- The `for node.Parent.Color == Red` loop of `fixInsert`, with its `break` at the root;
`none` when the fuel runs out (`fixLoop_isSome` shows it does not). -/
def fixLoop : Nat → RBTree α → Nat → Option (RBTree α)
  | 0, _, _ => none
  | fuel + 1, t, node =>
    if (t.nodes (t.nodes node).parent).color = .red then
      let (t, node) :=
        if (t.nodes node).parent = (t.nodes (t.nodes (t.nodes node).parent).parent).left
        then fixStep .left t node else fixStep .right t node
      if node = t.root then some t else fixLoop fuel t node
    else some t

/-- `fixInsert`: the loop, then `t.Root.Color = Black`. -/
def fixInsert (t : RBTree α) (node : Nat) : RBTree α :=
  match fixLoop t.next t node with
  | some t => t.setColor t.root .black
  | none => t

/-- Whether `Insert` goes left at node `n`: `shard.ID < current.Shard.ID`. -/
def goesLeft (key : α → Int) (x : α) (n : RBNode α) : Bool :=
  match n.shard with
  | some s => decide (key x < key s)
  | none => false

/-- The descent loop of `Insert`: returns the last node visited before `Nil`. -/
def descend (key : α → Int) (t : RBTree α) (x : α) : Nat → Nat → Nat → Nat
  | 0, _, parent => parent
  | fuel + 1, current, parent =>
    if current = 0 then parent
    else descend key t x fuel
      (if goesLeft key x (t.nodes current) then (t.nodes current).left else (t.nodes current).right)
      current

/-- The "standard BST insertion" part of `Insert`: allocate a red node at `next` and hang it below
the descent's last node. -/
def bstInsert (key : α → Int) (t : RBTree α) (x : α) : RBTree α :=
  let node := t.next
  let t := { t with nodes := Function.update t.nodes node ⟨some x, .red, 0, 0, 0⟩, next := t.next + 1 }
  let parent := descend key t x t.next t.root 0
  let t := t.setParent node parent
  if parent = 0 then { t with root := node }
  else if goesLeft key x (t.nodes parent) then t.setChild parent .left node
  else t.setChild parent .right node

/-- `Insert`: the BST insertion, then `fixInsert` from the new node. -/
def insert (key : α → Int) (t : RBTree α) (x : α) : RBTree α := fixInsert (bstInsert key t x) t.next

/-- The search loop of `FindShard`. -/
def findFrom (key : α → Int) (t : RBTree α) (id : Int) : Nat → Nat → Option α
  | 0, _ => none
  | fuel + 1, current =>
    if current = 0 then none
    else match (t.nodes current).shard with
      | none => none
      | some s =>
        if id = key s then some s
        else if id < key s then findFrom key t id fuel (t.nodes current).left
        else findFrom key t id fuel (t.nodes current).right

/-- `FindShard`: `some s` is `(s, true)`, `none` is `(nil, false)`. -/
def findShard (key : α → Int) (t : RBTree α) (id : Int) : Option α := findFrom key t id t.next t.root

def inOrderTraversal (t : RBTree α) : Nat → Nat → List α
  | 0, _ => []
  | fuel + 1, p =>
    if p = 0 then []
    else inOrderTraversal t fuel (t.nodes p).left ++ (t.nodes p).shard.toList ++
      inOrderTraversal t fuel (t.nodes p).right

def getAllShards (t : RBTree α) : List α := inOrderTraversal t t.next t.root

/-- Successive `Insert` calls. -/
def insertAll (key : α → Int) (t : RBTree α) (xs : List α) : RBTree α :=
  xs.foldl (insert key) t

end RBTree
end ShardedLedger.Index
