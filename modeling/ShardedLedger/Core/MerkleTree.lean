import ShardedLedger.Core.Block

/-! The Merkle tree of a shard: hex leaf hashes of the data strings, and a root built by hashing
adjacent pairs level by level, an odd last node hashed alone. SHA-256 is the parameter `sha`. -/

namespace ShardedLedger.Core

/-- `MerkleTree`: the hex root and the hex leaf hashes. -/
structure MerkleTree where
  root : Bytes
  leaves : List Bytes
  deriving DecidableEq, Repr

section
variable (sha : Bytes → Bytes)

/-- One level of `buildMerkleTree`: each adjacent pair concatenated and hashed, an unpaired last
node hashed alone. -/
def parents : List Bytes → List Bytes
  | a :: b :: rest => hexEncode (sha (a ++ b)) :: parents rest
  | [a] => [hexEncode (sha a)]
  | [] => []

/-- `buildMerkleTree`, its recursion bounded by `fuel`. -/
def buildMerkleTreeFrom : Nat → List Bytes → Bytes
  | _, [] => hexEncode (sha [])
  | _, [a] => a
  | 0, _ :: _ :: _ => hexEncode (sha [])
  | fuel + 1, leaves@(_ :: _ :: _) => buildMerkleTreeFrom fuel (parents sha leaves)

/-- `buildMerkleTree`: the number of leaves bounds the number of levels. -/
def buildMerkleTree (leaves : List Bytes) : Bytes := buildMerkleTreeFrom sha leaves.length leaves

/-- `NewMerkleTree`: the hash of the empty string as the root of no data. -/
def newMerkleTree (data : List Bytes) : MerkleTree :=
  match data with
  | [] => ⟨hexEncode (sha []), []⟩
  | _ => ⟨buildMerkleTree sha (data.map fun d => hexEncode (sha d)), data.map fun d => hexEncode (sha d)⟩

theorem length_parents : ∀ l : List Bytes, (parents sha l).length = (l.length + 1) / 2
  | a :: b :: rest => by simp [parents, length_parents rest]; omega
  | [_] => by simp [parents]
  | [] => rfl

end

end ShardedLedger.Core
