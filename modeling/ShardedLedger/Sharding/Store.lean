import ShardedLedger.Core.MerkleTree

/-! Shards and the heap that holds them. A `*Shard` is an address into a `Store`; a write through
the pointer is a `Store.set`, and `NewShard` allocates at the next free address. Go slices are
values here: no two live shards share a backing array. -/

namespace ShardedLedger.Sharding
open ShardedLedger.Core

def maxBlocksPerShard : Nat := 3

/-- `Shard`, without its mutex. -/
structure Shard where
  id : Int
  blocks : List Block
  tree : Option MerkleTree
  deriving DecidableEq

/-- `NewShard`: no blocks and a nil tree. -/
def newShard (id : Int) : Shard := ⟨id, [], none⟩

/-- `getDataStrings`, also the loop that `AddBlock`, `MergeShards` and `SyncBlock` write inline. -/
def getDataStrings (blocks : List Block) : List Bytes := blocks.map Block.data

section
variable (sha : Bytes → Bytes)

/-- Assign `Blocks` and rebuild `Tree` from them, as the split, the merge, `SyncBlock` and the
rollback each do. -/
def Shard.setBlocks (s : Shard) (bs : List Block) : Shard :=
  { s with blocks := bs, tree := some (newMerkleTree sha (getDataStrings bs)) }

def Shard.addBlock (s : Shard) (b : Block) : Shard := s.setBlocks sha (s.blocks ++ [b])

/-- A shard's tree is the one `NewMerkleTree` builds from its data, and a nil tree means no
blocks. -/
def Shard.Consistent : Shard → Prop
  | ⟨_, bs, none⟩ => bs = []
  | ⟨_, bs, some t⟩ => t = newMerkleTree sha (getDataStrings bs)

instance : DecidablePred (Shard.Consistent sha)
  | ⟨_, _, none⟩ => inferInstanceAs (Decidable (_ = _))
  | ⟨_, _, some _⟩ => inferInstanceAs (Decidable (_ = _))

@[simp] theorem Shard.id_setBlocks (s : Shard) (bs : List Block) : (s.setBlocks sha bs).id = s.id :=
  rfl

@[simp] theorem Shard.blocks_setBlocks (s : Shard) (bs : List Block) :
    (s.setBlocks sha bs).blocks = bs := rfl

@[simp] theorem Shard.id_addBlock (s : Shard) (b : Block) : (s.addBlock sha b).id = s.id := rfl

@[simp] private theorem Shard.blocks_addBlock (s : Shard) (b : Block) :
    (s.addBlock sha b).blocks = s.blocks ++ [b] := rfl

theorem Shard.consistent_setBlocks (s : Shard) (bs : List Block) :
    (s.setBlocks sha bs).Consistent sha := rfl

theorem consistent_newShard (id : Int) : (newShard id).Consistent sha := rfl

/-- `Shard.GetRoot`: the root of the shard's tree, or "" while the tree is nil. -/
def Shard.getRoot (s : Shard) : Bytes :=
  match s.tree with
  | some t => t.root
  | none => []

theorem Shard.Consistent.getRoot {s : Shard} (h : s.Consistent sha) :
    s.getRoot = (newMerkleTree sha (getDataStrings s.blocks)).root ∨ s.getRoot = [] ∧ s.blocks = [] := by
  rcases s with ⟨_, bs, _ | t⟩
  · exact .inr ⟨rfl, h⟩
  · exact .inl (congrArg MerkleTree.root h)

end

/-- The heap of shards: the shard at each address, and the next address `NewShard` returns. -/
@[ext] structure Store where
  get : Nat → Shard
  next : Nat

namespace Store

/-- A write through a `*Shard`. -/
def set (s : Store) (r : Nat) (v : Shard) : Store := ⟨Function.update s.get r v, s.next⟩

/-- Allocation of a new shard at `s.next`. -/
def alloc (s : Store) (v : Shard) : Store := ⟨Function.update s.get s.next v, s.next + 1⟩

/-- The `ID` read through a pointer, which is what the index compares. -/
def id (s : Store) (r : Nat) : Int := (s.get r).id

@[simp] private theorem get_set (s : Store) (r : Nat) (v : Shard) :
    (s.set r v).get = Function.update s.get r v := rfl

@[simp] private theorem next_set (s : Store) (r : Nat) (v : Shard) : (s.set r v).next = s.next := rfl

@[simp] theorem get_alloc (s : Store) (v : Shard) :
    (s.alloc v).get = Function.update s.get s.next v := rfl

@[simp] private theorem next_alloc (s : Store) (v : Shard) : (s.alloc v).next = s.next + 1 := rfl

@[simp] private theorem set_set (s : Store) (r : Nat) (v w : Shard) : (s.set r v).set r w = s.set r w := by
  simp [set]

@[simp] private theorem set_get_self (s : Store) (r : Nat) : s.set r (s.get r) = s := by
  simp [set]

@[simp] private theorem alloc_set (s : Store) (v w : Shard) {a : Nat} (h : a = s.next) :
    (s.alloc v).set a w = s.alloc w := by
  subst h; simp [alloc, set]

theorem id_set {s : Store} {r : Nat} {v : Shard} (h : v.id = (s.get r).id) : (s.set r v).id = s.id := by
  funext a
  by_cases ha : a = r
  · subst ha; simp [id, h]
  · simp [id, Function.update_noteq ha]

theorem id_alloc_of_lt (s : Store) (v : Shard) {a : Nat} (ha : a < s.next) :
    (s.alloc v).id a = s.id a := by
  simp [id, Function.update_noteq ha.ne]

@[simp] private theorem id_alloc_next (s : Store) (v : Shard) : (s.alloc v).id s.next = v.id := by
  simp [id]

section
variable (sha : Bytes → Bytes)

/-- Every shard of the heap has the tree its blocks give. -/
def Consistent (s : Store) : Prop := ∀ r, (s.get r).Consistent sha

variable {sha} {s : Store}

theorem Consistent.set (h : s.Consistent sha) {r : Nat} {v : Shard} (hv : v.Consistent sha) :
    (s.set r v).Consistent sha := fun a => by
  by_cases ha : a = r
  · subst ha; simpa using hv
  · simpa [Function.update_noteq ha] using h a

theorem Consistent.alloc (h : s.Consistent sha) {v : Shard} (hv : v.Consistent sha) :
    (s.alloc v).Consistent sha := fun a => by
  by_cases ha : a = s.next
  · subst ha; simpa using hv
  · simpa [Function.update_noteq ha] using h a

end

end Store

end ShardedLedger.Sharding
