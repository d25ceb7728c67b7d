import ShardedLedger.Sharding.Laws
import ShardedLedger.Transfer.Conservation

/-! The whole program: the shard manager, and sync managers moving blocks between its shards, all
calls in any order. Each call that writes a shard's blocks rebuilds its Merkle tree, so in every
reachable state each shard's tree is the one its blocks give. -/

namespace ShardedLedger.System
open ShardedLedger.Core ShardedLedger.Index ShardedLedger.Sharding ShardedLedger.Transfer

/-- The shard manager, and the sync managers working on the shards of its heap. -/
structure World where
  manager : ShardManager
  syncs : Nat → EnhancedSyncManager

/-- `NewShardManager`, and fresh sync managers with the given keys. -/
def World.start (keys : Nat → Bytes) : World :=
  ⟨newShardManager, fun m => newEnhancedSyncManager (keys m)⟩

/-- A call on the shard manager, or on one of the sync managers. -/
inductive Action
  | shard (op : Op)
  | transfer (c : Call)
  deriving DecidableEq, Repr

section
variable (hmac : Bytes → Bytes → Bytes) (sha : Bytes → Bytes)

/-- A transfer works on the heap under the index; `none` when the shard manager panics. -/
def Action.apply : Action → World → Option World
  | .shard op, w => (op.apply sha w.manager).map fun sm => ⟨sm, w.syncs⟩
  | .transfer c, w =>
    let t := c.apply hmac sha ⟨w.manager.store, w.syncs⟩
    some ⟨⟨t.store, w.manager.shards⟩, t.managers⟩

/-- The calls one after another; `none` once one of them panics. -/
def runWorld : List Action → World → Option World
  | [], w => some w
  | a :: as, w => (a.apply hmac sha w).bind (runWorld as)

/-- Every tree of the heap matches its shard's blocks. -/
def World.Consistent (w : World) : Prop := w.manager.store.Consistent sha

private theorem runWorld_append (as bs : List Action) (w : World) :
    runWorld hmac sha (as ++ bs) w = (runWorld hmac sha as w).bind (runWorld hmac sha bs) := by
  induction as generalizing w with
  | nil => rfl
  | cons a as ih => simp only [List.cons_append, runWorld, List.append_eq, ih, Option.bind_assoc]

private theorem runWorld_shard (ops : List Op) (sm : ShardManager) (syncs : Nat → EnhancedSyncManager) :
    runWorld hmac sha (ops.map .shard) ⟨sm, syncs⟩ = (run sha ops sm).map fun sm' => ⟨sm', syncs⟩ := by
  induction ops generalizing sm with
  | nil => rfl
  | cons op ops ih =>
    simp only [List.map_cons, runWorld, Action.apply, run]
    cases op.apply sha sm <;> simp [ih]

private theorem runWorld_transfer_isSome (calls : List Call) (w : World) :
    (runWorld hmac sha (calls.map .transfer) w).isSome := by
  induction calls generalizing w with
  | nil => rfl
  | cons c calls ih => exact ih _

theorem Call.consistent_apply {w : TransferSystem} (h : w.store.Consistent sha) :
    ∀ c : Call, (c.apply hmac sha w).store.Consistent sha
  | .create .. => h
  | .verify .. => EnhancedSyncManager.consistent_verifyAndApplyTransfer hmac sha h

private theorem World.consistent_start (keys : Nat → Bytes) : (World.start keys).Consistent sha :=
  consistent_newShardManager

theorem Action.consistent_apply {w w' : World} (h : w.Consistent sha) :
    ∀ {a : Action}, a.apply hmac sha w = some w' → w'.Consistent sha
  | .shard op, ha => by
    obtain ⟨sm, hs, rfl⟩ := Option.map_eq_some'.1 ha
    exact op.consistent_apply h hs
  | .transfer c, ha => by
    cases ha
    exact Call.consistent_apply hmac sha (w := ⟨_, w.syncs⟩) h c

private theorem consistent_runWorld (actions : List Action) :
    ∀ {w w' : World}, w.Consistent sha → runWorld hmac sha actions w = some w' → w'.Consistent sha := by
  induction actions with
  | nil => rintro w w' h ⟨⟩; exact h
  | cons a as ih =>
    intro w w' h hr
    obtain ⟨w₁, h₁, hr⟩ := Option.bind_eq_some.1 hr
    exact ih (Action.consistent_apply hmac sha h h₁) hr

/-- In every state reachable from `NewShardManager` by calls on the shard manager and transfers
between any of its shards, in any order, each shard of the heap, those of the index among them, has
the Merkle tree of its blocks' data, and no tree only when it holds no block. -/
theorem merkle_tree_matches_blocks (keys : Nat → Bytes) (actions : List Action) (w : World)
    (hw : runWorld hmac sha actions (World.start keys) = some w) (r : Nat) :
    (∀ t, (w.manager.store.get r).tree = some t →
        t.root = (newMerkleTree sha (getDataStrings (w.manager.store.get r).blocks)).root ∧
        t.leaves = (newMerkleTree sha (getDataStrings (w.manager.store.get r).blocks)).leaves) ∧
      ((w.manager.store.get r).tree = none → (w.manager.store.get r).blocks = []) := by
  have hc := consistent_runWorld hmac sha actions (World.consistent_start sha keys) hw r
  rcases e : w.manager.store.get r with ⟨id, bs, _ | t⟩ <;> rw [e] at hc
  · exact ⟨fun _ h => (nomatch h), fun _ => hc⟩
  · cases hc
    exact ⟨fun _ h => by cases h; exact ⟨rfl, rfl⟩, fun h => nomatch h⟩

end

/-- Four blocks, a merge of the two shards, a fifth block that splits the merged shard again, and
a transfer from heap address 0 to address 2, where the split put its new shard. -/
def mixedRun : List Action :=
  [Op.distribute (blk 1), .distribute (blk 2), .distribute (blk 3), .distribute (blk 4), .merge 4,
    .distribute (blk 5)].map .shard ++ [.transfer (.create 0 0 2 0), .transfer (.verify 0 0 2 0)]

theorem merkle_tree_matches_blocks_after_transfer :
    ∃ w, runWorld (fun _ msg => msg) id mixedRun (World.start fun _ => []) = some w ∧
      (∀ t, (w.manager.store.get 2).tree = some t →
        t.root = (newMerkleTree id (getDataStrings (w.manager.store.get 2).blocks)).root ∧
        t.leaves = (newMerkleTree id (getDataStrings (w.manager.store.get 2).blocks)).leaves) ∧
      ((w.manager.store.get 2).tree = none → (w.manager.store.get 2).blocks = []) := by
  obtain ⟨sm, hr, -⟩ := exists_run_of_layout id [.distribute (blk 1), .distribute (blk 2), .distribute (blk 3),
    .distribute (blk 4), .merge 4, .distribute (blk 5)] [(0, [blk 1, blk 2]), (1, [blk 3, blk 4, blk 5])]
    (by decide)
  obtain ⟨w, hw⟩ := Option.isSome_iff_exists.1
    (runWorld_transfer_isSome (fun _ msg => msg) id [.create 0 0 2 0, .verify 0 0 2 0] ⟨sm, _⟩)
  have hrun : runWorld (fun _ msg => msg) id mixedRun (World.start fun _ => []) = some w := by
    rw [mixedRun, runWorld_append, World.start, runWorld_shard, hr]
    exact hw
  exact ⟨w, hrun, merkle_tree_matches_blocks (fun _ msg => msg) id (fun _ => []) mixedRun w hrun 2⟩

end ShardedLedger.System
