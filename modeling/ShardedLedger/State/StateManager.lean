import ShardedLedger.State.Trie

/-! `StateManager` of the state pruning code: a sliding window of active blocks, the blocks evicted
from it kept as `(Index, Data, Hash)` triples, and two succinct tries from block hash to data, one
for every block added and one for the evicted ones. After `n` blocks with bound `m`, the window
holds the last `min(n, max(m, 0))` of them and the archive the rest, in order. -/

namespace ShardedLedger.State
open ShardedLedger.Core

structure ArchivedBlock where
  index : Int
  data : Bytes
  hash : Bytes
  deriving DecidableEq, Repr

/-- The triple `AddBlock` archives for a block. -/
def ArchivedBlock.ofBlock (b : Block) : ArchivedBlock := ⟨b.index, b.data, b.hash⟩

structure StateManager where
  prunedBlocks : List ArchivedBlock
  activeBlocks : List Block
  activeTrie : SuccinctTrie
  archiveTrie : SuccinctTrie
  maxActiveCount : Int

def newStateManager (maxActive : Int) : StateManager := ⟨[], [], newSuccinctTrie, newSuccinctTrie, maxActive⟩

section
variable (sha : Bytes → Bytes) (order : List (UInt8 × Bytes) → List (UInt8 × Bytes))

namespace StateManager

/-- `AddBlock(block)`: append it and insert `Hash → Data` into the active trie; past
`MaxActiveCount`, move the oldest active block to the archive list and the archive trie. -/
def addBlock (sm : StateManager) (block : Block) : StateManager :=
  let active := sm.activeBlocks ++ [block]
  let activeTrie := sm.activeTrie.insert sha order block.hash block.data
  if sm.maxActiveCount < active.length then
    let archived := active.head (List.append_ne_nil_of_right_ne_nil _ (List.cons_ne_nil _ _))
    { sm with
      prunedBlocks := sm.prunedBlocks ++ [ArchivedBlock.ofBlock archived]
      activeBlocks := active.tail
      activeTrie := activeTrie
      archiveTrie := sm.archiveTrie.insert sha order archived.hash archived.data }
  else { sm with activeBlocks := active, activeTrie := activeTrie }

/-- `UpdateArchiveRoot`: the archive trie's hashes recomputed. -/
def updateArchiveRoot (sm : StateManager) : StateManager :=
  { sm with archiveTrie := ⟨sm.archiveTrie.root.updateHashes sha order⟩ }

def getActiveRoot (sm : StateManager) : Bytes := sm.activeTrie.getMerkleRoot

def getArchiveRoot (sm : StateManager) : Bytes := sm.archiveTrie.getMerkleRoot

/-- Successive `AddBlock` calls. -/
def addBlocks (sm : StateManager) (bs : List Block) : StateManager :=
  bs.foldl (fun sm b => sm.addBlock sha order b) sm

@[simp] private theorem maxActiveCount_addBlock (sm : StateManager) (b : Block) :
    (sm.addBlock sha order b).maxActiveCount = sm.maxActiveCount := by
  unfold addBlock; dsimp only; split_ifs <;> rfl

private theorem maxActiveCount_addBlocks (bs : List Block) :
    ∀ sm : StateManager, (sm.addBlocks sha order bs).maxActiveCount = sm.maxActiveCount := by
  induction bs with
  | nil => exact fun _ => rfl
  | cons b bs ih => exact fun sm => (ih (sm.addBlock sha order b)).trans (maxActiveCount_addBlock sha order sm b)

end StateManager

/-- The trie entries of a list of blocks: hash to data, in order. -/
def trieEntries (bs : List Block) : List (Bytes × Bytes) := bs.map fun b => (b.hash, b.data)

/-- The state after the blocks `hist`: the window holds all but the first
`hist.length - max(m, 0)`, which are archived in order; the active trie has every block inserted,
the archive trie the archived ones. -/
structure Window (sm : StateManager) (hist : List Block) : Prop where
  active : sm.activeBlocks = hist.drop (hist.length - sm.maxActiveCount.toNat)
  pruned : sm.prunedBlocks = (hist.take (hist.length - sm.maxActiveCount.toNat)).map ArchivedBlock.ofBlock
  activeTrie : sm.activeTrie = newSuccinctTrie.insertAll sha order (trieEntries hist)
  archiveTrie : sm.archiveTrie =
    newSuccinctTrie.insertAll sha order (trieEntries (hist.take (hist.length - sm.maxActiveCount.toNat)))

private theorem window_newStateManager (m : Int) : Window sha order (newStateManager m) [] :=
  ⟨by simp [newStateManager], by simp [newStateManager], rfl, by simp [newStateManager, trieEntries]; rfl⟩

theorem Window.addBlock {sm : StateManager} {hist : List Block} (W : Window sha order sm hist) (b : Block) :
    Window sha order (sm.addBlock sha order b) (hist ++ [b]) := by
  set k := hist.length - sm.maxActiveCount.toNat with hk
  have hdrop : sm.activeBlocks ++ [b] = (hist ++ [b]).drop k := by
    rw [W.active, List.drop_append_of_le_length (by omega)]
  have hlen : (sm.activeBlocks ++ [b]).length = hist.length - k + 1 := by
    simp [W.active]
  unfold StateManager.addBlock
  dsimp only
  split_ifs with hfull
  · -- full: the oldest block of the window, `hist ++ [b]` at `k`, is archived
    have hk' : (hist ++ [b]).length - sm.maxActiveCount.toNat = k + 1 := by
      simp only [List.length_append, List.length_singleton]; omega
    have htake : (hist ++ [b]).take (k + 1) = (hist ++ [b]).take k ++ [(sm.activeBlocks ++ [b]).head
        (List.append_ne_nil_of_right_ne_nil _ (List.cons_ne_nil _ _))] := by
      rw [List.take_succ, ← List.head?_drop, ← hdrop, List.head?_eq_head]
      rfl
    refine ⟨?_, ?_, ?_, ?_⟩ <;>
      simp only [StateManager.maxActiveCount_addBlock, hk', hdrop, List.tail_drop, htake, List.map_append,
        W.pruned, W.activeTrie, W.archiveTrie, trieEntries, SuccinctTrie.insertAll, List.foldl_append,
        List.foldl_cons, List.foldl_nil, List.take_append_of_le_length (show k ≤ hist.length by omega),
        List.map_cons, List.map_nil]
  · -- not full: nothing leaves the window
    have hk' : (hist ++ [b]).length - sm.maxActiveCount.toNat = k := by
      simp only [List.length_append, List.length_singleton]; omega
    refine ⟨?_, ?_, ?_, ?_⟩ <;>
      simp only [hk', hdrop, W.pruned, W.activeTrie, W.archiveTrie, trieEntries, SuccinctTrie.insertAll,
        List.map_append, List.foldl_append, List.foldl_cons, List.foldl_nil, List.map_cons, List.map_nil,
        List.take_append_of_le_length (show k ≤ hist.length by omega)]

theorem Window.addBlocks {sm : StateManager} {hist : List Block} (W : Window sha order sm hist) :
    ∀ bs : List Block, Window sha order (sm.addBlocks sha order bs) (hist ++ bs) := by
  intro bs
  induction bs generalizing sm hist with
  | nil => simpa [StateManager.addBlocks] using W
  | cons b bs ih => simpa using ih (W.addBlock sha order b)

/-- After `AddBlock(b₁) … AddBlock(bₙ)` on `NewStateManager(m)`, with `a = min(n, max(m, 0))`,
the window holds the last `a` blocks and the archive the first `n - a` as triples, each in order;
so every block is in exactly one of the two. -/
theorem addBlocks_window (m : Int) (bs : List Block) :
    ((newStateManager m).addBlocks sha order bs).activeBlocks =
        bs.drop (bs.length - min bs.length (max m 0).toNat) ∧
      ((newStateManager m).addBlocks sha order bs).prunedBlocks =
        (bs.take (bs.length - min bs.length (max m 0).toNat)).map ArchivedBlock.ofBlock ∧
      ((newStateManager m).addBlocks sha order bs).prunedBlocks.length +
        ((newStateManager m).addBlocks sha order bs).activeBlocks.length = bs.length := by
  have W := (window_newStateManager sha order m).addBlocks sha order bs
  rw [List.nil_append] at W
  have hm : ((newStateManager m).addBlocks sha order bs).maxActiveCount = m :=
    StateManager.maxActiveCount_addBlocks sha order bs _
  have hk : bs.length - min bs.length (max m 0).toNat = bs.length - m.toNat := by omega
  rw [hk, W.active, W.pruned, hm, List.length_map, List.length_take, List.length_drop]
  exact ⟨rfl, rfl, by omega⟩

/-- The tries after `AddBlock(b₁) … AddBlock(bₙ)` on `NewStateManager(m)`: the active trie is a
fresh trie with every block inserted in order, evicted ones included; the archive trie is a fresh
trie with the evicted blocks inserted in order. -/
theorem addBlocks_tries (m : Int) (bs : List Block) :
    ((newStateManager m).addBlocks sha order bs).activeTrie = newSuccinctTrie.insertAll sha order (trieEntries bs) ∧
      ((newStateManager m).addBlocks sha order bs).archiveTrie = newSuccinctTrie.insertAll sha order
        (trieEntries (bs.take (bs.length - min bs.length (max m 0).toNat))) := by
  have W := (window_newStateManager sha order m).addBlocks sha order bs
  rw [List.nil_append] at W
  have hm : ((newStateManager m).addBlocks sha order bs).maxActiveCount = m :=
    StateManager.maxActiveCount_addBlocks sha order bs _
  have hk : bs.length - min bs.length (max m 0).toNat = bs.length - m.toNat := by omega
  rw [hk, W.activeTrie, W.archiveTrie, hm]
  exact ⟨rfl, rfl⟩

end

end ShardedLedger.State
