import ShardedLedger.Index.Query
import ShardedLedger.Sharding.Store

/-! `ShardManager`: an index of shard pointers over the heap. `RebalanceShards` and `MergeShards`
read `GetAllShards`, write shards through their pointers and insert pointers into a fresh index one
at a time; `DistributeBlock` appends to the last shard and rebalances. -/

namespace ShardedLedger.Sharding
open ShardedLedger.Core ShardedLedger.Index

/-- `ShardManager`, together with the heap its pointers refer to. -/
structure ShardManager where
  store : Store
  shards : RBTree Nat

/-- The heap before any allocation; the shard at an unused address is never read. -/
def emptyStore : Store := ⟨fun _ => newShard 0, 0⟩

/-- `NewShardManager`: `NewShard(0)` inserted into `NewRBTree()`. -/
def newShardManager : ShardManager :=
  ⟨emptyStore.alloc (newShard 0), RBTree.insert (emptyStore.alloc (newShard 0)).id newRBTree 0⟩

section
variable (sha : Bytes → Bytes)

/-- `for _, b := range bs { shard.AddBlock(b) }` through the pointer `r`. -/
def addBlocks (s : Store) (r : Nat) (bs : List Block) : Store :=
  bs.foldl (fun s b => s.set r ((s.get r).addBlock sha b)) s

/-- One iteration of the loop of `RebalanceShards`: the shard at `r`, with `shardIDCounter`; the
index under construction is `newTree`. -/
def splitOne (sm : ShardManager) (r : Nat) (counter : Int) : ShardManager × Int :=
  let shard := sm.store.get r
  if maxBlocksPerShard < shard.blocks.length then
    let mid := shard.blocks.length / 2
    let store := sm.store.set r (shard.setBlocks sha (shard.blocks.take mid))
    let tree := sm.shards.insert store.id r
    let store' := addBlocks sha (store.alloc (newShard counter)) store.next (shard.blocks.drop mid)
    (⟨store', tree.insert store'.id store.next⟩, counter + 1)
  else (⟨sm.store, sm.shards.insert sm.store.id r⟩, counter)

/-- The loop of `RebalanceShards` over `currentShards`. -/
def splitAll : List Nat → ShardManager → Int → ShardManager
  | [], sm, _ => sm
  | r :: rs, sm, counter => splitAll rs (splitOne sha sm r counter).1 (splitOne sha sm r counter).2

def rebalanceShards (sm : ShardManager) : ShardManager :=
  splitAll sha (RBTree.getAllShards sm.shards) ⟨sm.store, newRBTree⟩
    (RBTree.getAllShards sm.shards).length

/-- `DistributeBlock`; `none` where Go panics on an empty index. -/
def distributeBlock (sm : ShardManager) (b : Block) : Option ShardManager :=
  match (RBTree.getAllShards sm.shards).getLast? with
  | none => none
  | some r => some (rebalanceShards sha ⟨sm.store.set r ((sm.store.get r).addBlock sha b), sm.shards⟩)

/-- The loop of `MergeShards`. A merge marks entries `i` and `i+1` as `used`, so the loop resumes
after the partner; `used[i+1]` is always false where it is read. -/
def mergeAll (threshold : Int) : List Nat → ShardManager → ShardManager
  | [], sm => sm
  | [r], sm => ⟨sm.store, sm.shards.insert sm.store.id r⟩
  | r :: r' :: rest, sm =>
    let current := sm.store.get r
    if (current.blocks.length : Int) < threshold then
      let merged := sm.store.alloc (newShard current.id)
      let merged := merged.set sm.store.next
        ((merged.get sm.store.next).setBlocks sha (current.blocks ++ (sm.store.get r').blocks))
      mergeAll threshold rest ⟨merged, sm.shards.insert merged.id sm.store.next⟩
    else mergeAll threshold (r' :: rest) ⟨sm.store, sm.shards.insert sm.store.id r⟩

def mergeShards (threshold : Int) (sm : ShardManager) : ShardManager :=
  mergeAll sha threshold (RBTree.getAllShards sm.shards) ⟨sm.store, newRBTree⟩

/-- `ShardManager.FindShard`: the index's search by ID. -/
def ShardManager.findShard (sm : ShardManager) (id : Int) : Option Nat :=
  RBTree.findShard sm.store.id sm.shards id

/-- `ReconstructState(shardID)`: the root of the shard the index finds, or `("", false)`. -/
def ShardManager.reconstructState (sm : ShardManager) (shardID : Int) : Bytes × Bool :=
  match sm.findShard shardID with
  | none => ([], false)
  | some r => ((sm.store.get r).getRoot, true)

end

section
variable {sha : Bytes → Bytes}

/-! Every write of the manager rebuilds the tree of the shard whose blocks it sets. -/

theorem consistent_newShardManager : newShardManager.store.Consistent sha :=
  Store.Consistent.alloc (fun _ => consistent_newShard sha 0) (consistent_newShard sha 0)

theorem Store.Consistent.addBlocks {s : Store} (h : s.Consistent sha) (r : Nat) (bs : List Block) :
    (addBlocks sha s r bs).Consistent sha := by
  induction bs generalizing s with
  | nil => exact h
  | cons b bs ih => exact ih (h.set (Shard.consistent_setBlocks sha _ _))

private theorem consistent_splitOne {sm : ShardManager} (h : sm.store.Consistent sha) (r : Nat) (c : Int) :
    (splitOne sha sm r c).1.store.Consistent sha := by
  unfold splitOne
  dsimp only
  split_ifs
  · exact ((h.set (Shard.consistent_setBlocks sha _ _)).alloc (consistent_newShard sha c)).addBlocks _ _
  · exact h

private theorem consistent_splitAll (rs : List Nat) : ∀ {sm : ShardManager} (c : Int),
    sm.store.Consistent sha → (splitAll sha rs sm c).store.Consistent sha := by
  induction rs with
  | nil => exact fun _ h => h
  | cons r rs ih => exact fun c h => ih _ (consistent_splitOne h r c)

private theorem consistent_mergeAll (t : Int) : ∀ (rs : List Nat) {sm : ShardManager},
    sm.store.Consistent sha → (mergeAll sha t rs sm).store.Consistent sha
  | [], _, h => h
  | [_], _, h => h
  | r :: r' :: rest, sm, h => by
    unfold mergeAll
    dsimp only
    split_ifs
    · exact consistent_mergeAll t rest
        ((h.alloc (consistent_newShard sha _)).set (Shard.consistent_setBlocks sha _ _))
    · exact consistent_mergeAll t (r' :: rest) h

private theorem consistent_distributeBlock {sm sm' : ShardManager} {b : Block} (h : sm.store.Consistent sha)
    (hd : distributeBlock sha sm b = some sm') : sm'.store.Consistent sha := by
  unfold distributeBlock at hd
  split at hd
  · cases hd
  · cases hd
    exact consistent_splitAll _ _ (h.set (Shard.consistent_setBlocks sha _ _))

private theorem consistent_mergeShards {sm : ShardManager} (h : sm.store.Consistent sha) (t : Int) :
    (mergeShards sha t sm).store.Consistent sha :=
  consistent_mergeAll t _ h

end

/-- A call on the shard manager. -/
inductive Op
  | distribute (b : Block)
  | merge (threshold : Int)
  deriving DecidableEq, Repr

/-- The block a call distributes. -/
def Op.block? : Op → Option Block
  | .distribute b => some b
  | .merge _ => none

section
variable (sha : Bytes → Bytes)

def Op.apply : Op → ShardManager → Option ShardManager
  | .distribute b, sm => distributeBlock sha sm b
  | .merge t, sm => some (mergeShards sha t sm)

/-- A sequence of calls; `none` once one of them panics. -/
def run : List Op → ShardManager → Option ShardManager
  | [], sm => some sm
  | op :: ops, sm => (op.apply sha sm).bind (run ops)

variable {sha}

theorem Op.consistent_apply {sm sm' : ShardManager} (op : Op) (h : sm.store.Consistent sha)
    (ho : op.apply sha sm = some sm') : sm'.store.Consistent sha := by
  cases op with
  | distribute b => exact consistent_distributeBlock h ho
  | merge t => cases ho; exact consistent_mergeShards h t

theorem consistent_run (ops : List Op) : ∀ {sm sm' : ShardManager}, sm.store.Consistent sha →
    run sha ops sm = some sm' → sm'.store.Consistent sha := by
  induction ops with
  | nil => intro sm sm' h hr; cases hr; exact h
  | cons op ops ih =>
    intro sm sm' h hr
    obtain ⟨sm₁, h₁, h'⟩ := Option.bind_eq_some.1 hr
    exact ih (op.consistent_apply h h₁) h'

end

end ShardedLedger.Sharding
