import ShardedLedger.Sharding.Refine

/-! The laws of the shard manager over whole runs. Distribution alone keeps IDs `0, …, n-1`, the
blocks in order and every shard within the bound, and merges afterwards keep the IDs increasing
and the blocks in order. A split after a merge breaks all three: the merge leaves a gap in the
IDs, and the split takes `len(currentShards)` for its new shard. -/

namespace ShardedLedger.Sharding
open ShardedLedger.Core ShardedLedger.Index

/-- Block `k` of the runs below: only its index differs. -/
def blk (k : Int) : Block := ⟨k, [], [], [], []⟩

section
variable (sha : Bytes → Bytes)

theorem exists_run_of_layout (ops : List Op) (l : List (Int × List Block))
    (h : Layout.run ops [(0, [])] = some l) :
    ∃ sm, run sha ops newShardManager = some sm ∧ sm.layout = l := by
  have := run_newShardManager sha ops
  rw [h] at this
  exact Option.map_eq_some'.1 this

/-- With no `DistributeBlock` after a `MergeShards`, the IDs along `GetAllShards` strictly
increase, so they are pairwise distinct; and each `DistributeBlock` before the merges keeps the IDs
there and gives a new shard an ID above all of them. -/
theorem ids_increase_until_merge (bs : List Block) (ts : List Int) :
    (∃ sm, run sha (bs.map .distribute ++ ts.map .merge) newShardManager = some sm ∧
      (sm.layout.map Prod.fst).Sorted (· < ·)) ∧
    ∀ b, ∃ sm sm', run sha (bs.map .distribute) newShardManager = some sm ∧
      distributeBlock sha sm b = some sm' ∧
      ∃ new, sm'.layout.map Prod.fst = sm.layout.map Prod.fst ++ new ∧
        ∀ i ∈ sm.layout.map Prod.fst, ∀ j ∈ new, i < j := by
  obtain ⟨l₁, h₁, t₁, -⟩ := Layout.run_distributes bs [(0, [])] ⟨rfl, by simp, by simp⟩
  refine ⟨?_, fun b => ?_⟩
  · obtain ⟨l₂, h₂, i₂, -⟩ := Layout.run_merges ts l₁ t₁.increasing
    exact exists_run_of_layout sha _ _ (by rw [Layout.run_append, h₁, Option.some_bind, h₂])
      |>.imp fun sm ⟨hr, hl⟩ => ⟨hr, hl ▸ i₂⟩
  · obtain ⟨sm, hr, hl⟩ := exists_run_of_layout sha _ _ h₁
    obtain ⟨l', hd, -, -, hnew⟩ := Layout.distribute_tidy t₁ b
    obtain ⟨xs, H⟩ := (run_refines sha _ indexes_newShardManager).2 sm hr
    have hm := (distributeBlock_spec sha H b).1
    rw [hl, hd] at hm
    obtain ⟨sm', hd', hl'⟩ := Option.map_eq_some'.1 hm
    exact ⟨sm, sm', hr, hd', by rw [hl, hl']; exact hnew⟩

/-- From `NewShardManager`, every sequence of `DistributeBlock` and `MergeShards(t)` calls returns,
and the shards of `GetAllShards` then hold exactly the blocks distributed, each as often as it was
distributed: splits and merges reorder blocks, but lose and copy none. -/
theorem blocks_conserved (ops : List Op) :
    ∃ sm, run sha ops newShardManager = some sm ∧
      (sm.layout.flatMap Prod.snd).Perm (ops.filterMap Op.block?) := by
  obtain ⟨l, hl, -⟩ := Layout.exists_run ops (l := [(0, [])]) (List.cons_ne_nil _ _)
  obtain ⟨sm, hr, hsl⟩ := exists_run_of_layout sha ops l hl
  exact ⟨sm, hr, hsl ▸ by simpa using Layout.run_perm ops hl⟩

/-- In every state reached from `NewShardManager` by `DistributeBlock` and `MergeShards(t)` calls,
`ReconstructState(id)` is `("", false)` when no shard of `GetAllShards` has ID `id`, and otherwise
`true` with the root of a shard of `GetAllShards` with that ID: the root `NewMerkleTree` builds from
its data, or "" for a shard without blocks whose tree is still nil. -/
theorem reconstructState_spec (ops : List Op) (id : Int) :
    ∃ sm, run sha ops newShardManager = some sm ∧
      ((∀ p ∈ sm.layout, p.1 ≠ id) → sm.reconstructState id = ([], false)) ∧
      ((∃ p ∈ sm.layout, p.1 = id) → ∃ p ∈ sm.layout, p.1 = id ∧ ∃ root,
        sm.reconstructState id = (root, true) ∧
          (root = (newMerkleTree sha (getDataStrings p.2)).root ∨ root = [] ∧ p.2 = [])) := by
  obtain ⟨l, hl, -⟩ := Layout.exists_run ops (l := [(0, [])]) (List.cons_ne_nil _ _)
  obtain ⟨sm, hr, -⟩ := exists_run_of_layout sha ops l hl
  obtain ⟨xs, H⟩ := (run_refines sha ops indexes_newShardManager).2 sm hr
  obtain ⟨hfound, hnone⟩ := H.findShard id
  have habsent : (∀ p ∈ sm.layout, p.1 ≠ id) ↔ sm.findShard id = none := by
    rw [hnone]
    simp [ShardManager.layout, Store.view, Store.id]
  refine ⟨sm, hr, fun h => by rw [ShardManager.reconstructState, habsent.1 h], fun ⟨p, hp, hid⟩ => ?_⟩
  cases hf : sm.findShard id with
  | none => exact absurd hid (habsent.2 hf p hp)
  | some r =>
    obtain ⟨hid, hmem⟩ := hfound r hf
    exact ⟨sm.store.view r, List.mem_map_of_mem _ hmem, hid, _, by rw [ShardManager.reconstructState, hf],
      (consistent_run ops consistent_newShardManager hr r).getRoot⟩

/-- A merge, then a split: the split's new shard takes ID 2, which the merge left in use. -/
theorem split_after_merge_reuses_id :
    ¬ ∃ sha : Bytes → Bytes, ∀ (ops : List Op) (sm : ShardManager),
      run sha ops newShardManager = some sm → (sm.layout.map Prod.fst).Nodup := by
  rintro ⟨sha, h⟩
  obtain ⟨sm, hr, hl⟩ := exists_run_of_layout sha [.distribute (blk 1), .distribute (blk 2),
    .distribute (blk 3), .distribute (blk 4), .distribute (blk 5), .distribute (blk 6), .merge 3,
    .distribute (blk 7)] [(0, [blk 1, blk 2]), (2, [blk 3, blk 4]), (2, [blk 5, blk 6, blk 7])]
    (by decide)
  have := h _ sm hr
  rw [hl] at this
  exact absurd this (by decide)

/-- With no `DistributeBlock` after a `MergeShards`, the shards hold the distributed blocks in
order. -/
theorem blocks_in_order_until_merge (bs : List Block) (ts : List Int) :
    ∃ sm, run sha (bs.map .distribute ++ ts.map .merge) newShardManager = some sm ∧
      sm.layout.flatMap Prod.snd = bs := by
  obtain ⟨l₁, h₁, t₁, c₁⟩ := Layout.run_distributes bs [(0, [])] ⟨rfl, by simp, by simp⟩
  obtain ⟨l₂, h₂, -, c₂⟩ := Layout.run_merges ts l₁ t₁.increasing
  obtain ⟨sm, hr, hl⟩ := exists_run_of_layout sha _ _ (by rw [Layout.run_append, h₁, Option.some_bind, h₂])
  exact ⟨sm, hr, by rw [hl, c₂, c₁]; rfl⟩

/-- Two merges, then two splits: blocks 5 and 6 come before blocks 3 and 4. -/
theorem split_after_merge_reorders_blocks :
    ¬ ∃ sha : Bytes → Bytes, ∀ (ops : List Op) (sm : ShardManager),
      run sha ops newShardManager = some sm → sm.layout.flatMap Prod.snd = ops.filterMap Op.block? := by
  rintro ⟨sha, h⟩
  obtain ⟨sm, hr, hl⟩ := exists_run_of_layout sha [.distribute (blk 1), .distribute (blk 2),
    .distribute (blk 3), .distribute (blk 4), .distribute (blk 5), .distribute (blk 6),
    .distribute (blk 7), .merge 3, .merge 5, .distribute (blk 8), .distribute (blk 9)]
    [(0, [blk 1, blk 2]), (1, [blk 5, blk 6]), (2, [blk 3, blk 4]), (3, [blk 7, blk 8, blk 9])]
    (by decide)
  have := h _ sm hr
  rw [hl] at this
  exact absurd this (by decide)

/-- From `NewShardManager`, every sequence of `DistributeBlock` and `MergeShards(t)` calls runs
without `DistributeBlock` meeting an empty index, and `GetAllShards` is never empty: in every
reachable state a rebalance adds one shard for each shard over `MaxBlocksPerShard`, and a merge
removes one per merged pair, keeping at least half of them, rounded up. -/
theorem getAllShards_ne_nil_and_shard_counts (ops : List Op) :
    (∃ sm, run sha ops newShardManager = some sm ∧ RBTree.getAllShards sm.shards ≠ []) ∧
      ∀ sm, run sha ops newShardManager = some sm →
        (rebalanceShards sha sm).layout.length =
            sm.layout.length + (sm.layout.filter fun p => maxBlocksPerShard < p.2.length).length ∧
        ∀ t, (mergeShards sha t sm).layout.length + Layout.mergeCount t sm.layout = sm.layout.length ∧
          (sm.layout.length + 1) / 2 ≤ (mergeShards sha t sm).layout.length := by
  refine ⟨?_, fun sm hr => ?_⟩
  · obtain ⟨l, hl, hne⟩ := Layout.exists_run ops (l := [(0, [])]) (List.cons_ne_nil _ _)
    obtain ⟨sm, hr, hsl⟩ := exists_run_of_layout sha ops l hl
    exact ⟨sm, hr, fun h => hne (by rw [← hsl, ShardManager.layout, h, List.map_nil])⟩
  · obtain ⟨xs, H⟩ := (run_refines sha ops indexes_newShardManager).2 sm hr
    obtain ⟨-, -, hreb⟩ := rebalanceShards_spec sha H
    refine ⟨by rw [hreb, Layout.length_rebalance], fun t => ?_⟩
    obtain ⟨-, -, hm⟩ := mergeShards_spec sha H t
    rw [hm]
    exact Layout.length_merge t _

/-- From any reachable state in which no shard holds more than twice `MaxBlocksPerShard` blocks
and the last one fewer, `DistributeBlock` returns with every shard within `MaxBlocksPerShard`. -/
theorem distributeBlock_within_bound (ops : List Op) (b : Block) {sm : ShardManager}
    (h : run sha ops newShardManager = some sm)
    (hsmall : ∀ p ∈ sm.layout, p.2.length ≤ 2 * maxBlocksPerShard)
    (hlast : ∀ p ∈ sm.layout.getLast?, p.2.length < 2 * maxBlocksPerShard) :
    ∃ sm', distributeBlock sha sm b = some sm' ∧ ∀ p ∈ sm'.layout, p.2.length ≤ maxBlocksPerShard := by
  obtain ⟨xs, H⟩ := (run_refines sha ops indexes_newShardManager).2 sm h
  have hl := run_newShardManager sha ops
  rw [h, Option.map_some'] at hl
  obtain ⟨l', hd, hs⟩ := Layout.distribute_small (Layout.run_ne_nil ops (by simp) hl.symm) b hsmall hlast
  have hm := (distributeBlock_spec sha H b).1
  rw [hd] at hm
  obtain ⟨sm', hd', hl'⟩ := Option.map_eq_some'.1 hm
  exact ⟨sm', hd', hl' ▸ hs⟩

end

theorem distributeBlock_within_bound_after_merge :
    ∃ sm, run id [.distribute (blk 1), .distribute (blk 2), .distribute (blk 3), .distribute (blk 4),
        .distribute (blk 5), .distribute (blk 6), .merge 3] newShardManager = some sm ∧
      (∀ p ∈ sm.layout, p.2.length ≤ 2 * maxBlocksPerShard) ∧
      (∀ p ∈ sm.layout.getLast?, p.2.length < 2 * maxBlocksPerShard) ∧
      ∃ sm', distributeBlock id sm (blk 7) = some sm' ∧ ∀ p ∈ sm'.layout, p.2.length ≤ maxBlocksPerShard := by
  obtain ⟨sm, hr, hl⟩ := exists_run_of_layout id [.distribute (blk 1), .distribute (blk 2),
    .distribute (blk 3), .distribute (blk 4), .distribute (blk 5), .distribute (blk 6), .merge 3]
    [(0, [blk 1, blk 2, blk 3, blk 4]), (2, [blk 5, blk 6])] (by decide)
  have h1 : ∀ p ∈ sm.layout, p.2.length ≤ 2 * maxBlocksPerShard := by rw [hl]; decide
  have h2 : ∀ p ∈ sm.layout.getLast?, p.2.length < 2 * maxBlocksPerShard := by rw [hl]; decide
  exact ⟨sm, hr, h1, h2, distributeBlock_within_bound id _ (blk 7) hr h1 h2⟩

/-- Two merges build a shard of six blocks; the next `DistributeBlock` halves a shard of seven
once, leaving four. -/
theorem merges_overfill_shard :
    ¬ ∃ sha : Bytes → Bytes, ∀ (ops : List Op) (b : Block) (sm : ShardManager),
      run sha (ops ++ [.distribute b]) newShardManager = some sm →
        ∀ p ∈ sm.layout, p.2.length ≤ maxBlocksPerShard := by
  rintro ⟨sha, h⟩
  obtain ⟨sm, hr, hl⟩ := exists_run_of_layout sha ([.distribute (blk 1), .distribute (blk 2),
    .distribute (blk 3), .distribute (blk 4), .distribute (blk 5), .distribute (blk 6), .merge 3,
    .merge 5] ++ [.distribute (blk 7)]) [(0, [blk 1, blk 2, blk 3]), (1, [blk 4, blk 5, blk 6, blk 7])]
    (by decide)
  have := h _ _ sm hr
  rw [hl] at this
  exact absurd this (by decide)

end ShardedLedger.Sharding
