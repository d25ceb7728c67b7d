import ShardedLedger.Sharding.Store

/-! `SyncManager.SyncBlock`: one block moved between two shards through their pointers, then both
Merkle trees rebuilt. A transfer never creates or destroys a block: the blocks held across any set
of shards that contains both ends are a permutation of those before. -/

namespace ShardedLedger.Transfer
open ShardedLedger.Core ShardedLedger.Sharding

section
variable (sha : Bytes → Bytes)

/-- The tail of `SyncBlock` and of the rollback: both trees rebuilt from the blocks, the source's
first. -/
def rebuildTrees (s : Store) (source destination : Nat) : Store :=
  let sourceData := getDataStrings (s.get source).blocks
  let destData := getDataStrings (s.get destination).blocks
  let s := s.set source { s.get source with tree := some (newMerkleTree sha sourceData) }
  s.set destination { s.get destination with tree := some (newMerkleTree sha destData) }

/-- `SyncBlock(source, destination, blockIndex)`; `none` is `false`, when nothing is written. -/
def syncBlock (s : Store) (source destination : Nat) (blockIndex : Int) : Option Store :=
  if blockIndex < 0 ∨ ((s.get source).blocks.length : Int) ≤ blockIndex then none
  else match (s.get source).blocks[blockIndex.toNat]? with
    | none => none
    | some block =>
      let s := s.set destination ((s.get destination).addBlock sha block)
      let s := s.set source { s.get source with blocks := (s.get source).blocks.eraseIdx blockIndex.toNat }
      some (rebuildTrees sha s source destination)

theorem get_rebuildTrees (s : Store) (source destination r : Nat) :
    (rebuildTrees sha s source destination).get r =
      if r = source ∨ r = destination then (s.get r).setBlocks sha (s.get r).blocks else s.get r := by
  by_cases hd : r = destination
  · subst hd
    by_cases hs : r = source
    · subst hs; simp [rebuildTrees, Shard.setBlocks]
    · simp [rebuildTrees, Shard.setBlocks, Function.update_noteq hs]
  · by_cases hs : r = source
    · subst hs; simp [rebuildTrees, Shard.setBlocks, Function.update_noteq hd]
    · simp [rebuildTrees, hs, hd, Function.update_noteq hs, Function.update_noteq hd]

@[simp] private theorem next_rebuildTrees (s : Store) (source destination : Nat) :
    (rebuildTrees sha s source destination).next = s.next := rfl

private theorem syncBlock_eq_none {s : Store} {source destination : Nat} {i : Int}
    (h : i < 0 ∨ ((s.get source).blocks.length : Int) ≤ i) :
    syncBlock sha s source destination i = none := by
  simp [syncBlock, h]

theorem syncBlock_eq {s : Store} {source destination : Nat} {i : Int} {b : Block}
    (h0 : 0 ≤ i) (hb : (s.get source).blocks[i.toNat]? = some b) (hsd : source ≠ destination) :
    syncBlock sha s source destination i = some
      ⟨Function.update (Function.update s.get source
          ((s.get source).setBlocks sha ((s.get source).blocks.eraseIdx i.toNat))) destination
          ((s.get destination).setBlocks sha ((s.get destination).blocks ++ [b])), s.next⟩ := by
  have hi : ¬ (i < 0 ∨ ((s.get source).blocks.length : Int) ≤ i) := by
    obtain ⟨hl, -⟩ := List.getElem?_eq_some.1 hb
    omega
  simp only [syncBlock, if_neg hi, hb, Option.some.injEq]
  refine Store.ext (funext fun r => ?_) rfl
  rw [get_rebuildTrees]
  by_cases hd : r = destination
  · subst hd; simp [Function.update_noteq hsd.symm, Shard.setBlocks, Shard.addBlock]
  · by_cases hs : r = source
    · subst hs; simp [Function.update_noteq hd, Shard.setBlocks]
    · simp [hs, hd, Function.update_noteq hs, Function.update_noteq hd]

theorem consistent_rebuildTrees {s : Store} {source destination : Nat}
    (h : ∀ r, r ≠ source → r ≠ destination → (s.get r).Consistent sha) :
    (rebuildTrees sha s source destination).Consistent sha := fun r => by
  rw [get_rebuildTrees]
  split_ifs with hr
  · exact Shard.consistent_setBlocks sha _ _
  · exact h r (fun e => hr (.inl e)) (fun e => hr (.inr e))

theorem consistent_syncBlock {s s' : Store} {source destination : Nat} {i : Int}
    (h : s.Consistent sha) (hs : syncBlock sha s source destination i = some s') : s'.Consistent sha := by
  unfold syncBlock at hs
  split_ifs at hs
  split at hs
  · cases hs
  · cases hs
    exact consistent_rebuildTrees sha fun r hs hd => by
      simpa [Function.update_noteq hs, Function.update_noteq hd] using h r

end

/-- The blocks held across the shards at `shards`. -/
def held (s : Store) (shards : List Nat) : List Block := shards.flatMap fun r => (s.get r).blocks

private theorem held_perm {s s' : Store} {shards : List Nat} {source destination : Nat} (hnd : shards.Nodup)
    (hs : source ∈ shards) (hd : destination ∈ shards) (hsd : source ≠ destination)
    (hfr : ∀ r ∈ shards, r ≠ source → r ≠ destination → (s'.get r).blocks = (s.get r).blocks)
    (hp : ((s'.get source).blocks ++ (s'.get destination).blocks).Perm
      ((s.get source).blocks ++ (s.get destination).blocks)) :
    (held s' shards).Perm (held s shards) := by
  have hperm : shards.Perm (source :: destination :: (shards.erase source).erase destination) :=
    (List.perm_cons_erase hs).trans
      (List.Perm.cons _ (List.perm_cons_erase ((List.mem_erase_of_ne hsd.symm).2 hd)))
  have hrest : ∀ r ∈ (shards.erase source).erase destination, r ≠ source ∧ r ≠ destination := by
    intro r hr
    have h1 := (List.Nodup.erase _ hnd).mem_erase_iff.1 hr
    exact ⟨(hnd.mem_erase_iff.1 h1.2).1, h1.1⟩
  refine ((List.Perm.flatMap_right _ hperm).trans ?_).trans (List.Perm.flatMap_right _ hperm).symm
  simp only [List.flatMap_cons, ← List.append_assoc]
  refine hp.append (List.Perm.of_eq (List.flatMap_congr fun r hr => ?_))
  exact hfr r (List.mem_of_mem_erase (List.mem_of_mem_erase hr)) (hrest r hr).1 (hrest r hr).2

private theorem perm_eraseIdx {l : List Block} {i : Nat} {b : Block} (hb : l[i]? = some b) :
    (l.eraseIdx i ++ [b]).Perm l := by
  obtain ⟨hl, rfl⟩ := List.getElem?_eq_some.1 hb
  rw [List.eraseIdx_eq_take_drop_succ]
  conv_rhs => rw [← List.take_append_drop i l, List.drop_eq_getElem_cons hl]
  rw [List.append_assoc]
  exact (List.perm_append_singleton _ _).append_left _

theorem held_syncBlock (sha : Bytes → Bytes) {s s' : Store} {shards : List Nat} {source destination : Nat}
    {i : Int} (hnd : shards.Nodup) (hs : source ∈ shards) (hd : destination ∈ shards)
    (hsd : source ≠ destination) (h : syncBlock sha s source destination i = some s') :
    (held s' shards).Perm (held s shards) := by
  by_cases hi : i < 0 ∨ ((s.get source).blocks.length : Int) ≤ i
  · rw [syncBlock_eq_none sha hi] at h; cases h
  · have hl : 0 ≤ i := by omega
    obtain ⟨b, hb⟩ : ∃ b, (s.get source).blocks[i.toNat]? = some b :=
      ⟨_, List.getElem?_eq_getElem (by omega)⟩
    rw [syncBlock_eq sha hl hb hsd, Option.some_inj] at h
    subst h
    refine held_perm hnd hs hd hsd (fun r _ hrs hrd => by simp [Function.update_noteq hrs,
      Function.update_noteq hrd]) ?_
    simp only [Function.update_same, Function.update_noteq hsd, Shard.blocks_setBlocks]
    refine (List.perm_append_comm.append_left _).trans ?_
    rw [← List.append_assoc]
    exact (perm_eraseIdx hb).append_right _

end ShardedLedger.Transfer
