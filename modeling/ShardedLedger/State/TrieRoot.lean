import ShardedLedger.State.Trie

/-! The root digest of the succinct trie. Each node's hash reads its children in the order the
range over the map visits them, which Go leaves open: visited in the order the children were
added, the same contents inserted in two orders give two roots. -/

namespace ShardedLedger.State
open ShardedLedger.Core

section
variable (sha : Bytes → Bytes) (order : List (UInt8 × Bytes) → List (UInt8 × Bytes))

private theorem childHashes_updateHashesIn (cs : List (UInt8 × TrieNode)) :
    (updateHashesIn sha order cs).map (fun c => (c.1, c.2.hash)) =
      cs.map fun c => (c.1, (c.2.updateHashes sha order).hash) := by
  induction cs with
  | nil => rfl
  | cons c cs ih => simp [updateHashesIn, ih]

private theorem hash_updateHashes_mk (cs : List (UInt8 × TrieNode)) (v h : Bytes) :
    ((TrieNode.mk cs v h).updateHashes sha order).hash =
      hexEncode (sha (v ++ (order (cs.map fun c => (c.1, (c.2.updateHashes sha order).hash))).flatMap
        entryBytes)) := by
  rw [TrieNode.updateHashes_mk, TrieNode.hash_mk, computeNodeHash, TrieNode.childHashes,
    TrieNode.children_mk, childHashes_updateHashesIn, TrieNode.value_mk]

end

private theorem lastInserted_swap (key : Bytes) :
    lastInserted [([97], [1]), ([98], [2])] key = lastInserted [([98], [2]), ([97], [1])] key := by
  by_cases ha : [97] = key
  · subst ha; simp [lastInserted]
  · by_cases hb : [98] = key
    · subst hb; simp [lastInserted]
    · simp [lastInserted, ha, hb]

/-- Children visited in the order they were added: keys "a" and "b" inserted in the two orders
give two roots, for every collision-free hash. -/
theorem merkle_root_depends_on_insert_order :
    ¬ ∃ sha : Bytes → Bytes, Function.Injective sha ∧
      ∀ (order : List (UInt8 × Bytes) → List (UInt8 × Bytes)) (ops₁ ops₂ : List (Bytes × Bytes)),
        (∀ key, lastInserted ops₁ key = lastInserted ops₂ key) →
          (newSuccinctTrie.insertAll sha order ops₁).getMerkleRoot =
            (newSuccinctTrie.insertAll sha order ops₂).getMerkleRoot := by
  rintro ⟨sha, hinj, h⟩
  have e := h id _ _ lastInserted_swap
  simp [SuccinctTrie.insertAll, SuccinctTrie.insert, newSuccinctTrie, TrieNode.empty,
    TrieNode.insertAt, updateChild, SuccinctTrie.getMerkleRoot, hash_updateHashes_mk, updateHashesIn] at e
  have := congrArg List.head? (hinj (hexEncode_injective e))
  simp [entryBytes, show runeString 97 = [97] by decide, show runeString 98 = [98] by decide] at this

end ShardedLedger.State
