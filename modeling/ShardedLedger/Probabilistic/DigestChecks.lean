import ShardedLedger.Core.MerkleTree

/-! Two checks of data against SHA-256 digests. `VerifyDataProbabilistic` of the proof-compressing
Merkle tree looks the hex digest of the data up among the tree's leaves, and `VerifyProof` of the
`ZKProver` compares a proof with the hex digest of the claimed secret. -/

namespace ShardedLedger.Probabilistic
open ShardedLedger.Core

/-- `ProofCompressingMerkleTree`: a Merkle tree. -/
structure ProofCompressingMerkleTree where
  tree : MerkleTree

section
variable (sha : Bytes → Bytes)

def newProofCompressingMerkleTree (data : List Bytes) : ProofCompressingMerkleTree :=
  ⟨newMerkleTree sha data⟩

/-- `VerifyDataProbabilistic(data)`: whether the hex digest of the data is a leaf. -/
def ProofCompressingMerkleTree.verifyDataProbabilistic (pcmt : ProofCompressingMerkleTree) (data : Bytes) :
    Bool :=
  pcmt.tree.leaves.any fun leaf => leaf == hexEncode (sha data)

/-- `ProveKnowledge(secret)`: the hex digest of the secret. -/
def proveKnowledge (secret : Bytes) : Bytes := hexEncode (sha secret)

def verifyProof (proof claimed : Bytes) : Bool := proveKnowledge sha claimed == proof

end

end ShardedLedger.Probabilistic
