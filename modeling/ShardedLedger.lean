import ShardedLedger.Core.Block
import ShardedLedger.Core.Accumulator
import ShardedLedger.Core.MerkleRoot
import ShardedLedger.Index.Query
import ShardedLedger.Sharding.Laws
import ShardedLedger.System.World
import ShardedLedger.State.TrieRoot
import ShardedLedger.State.StateManager
import ShardedLedger.State.Pruner
import ShardedLedger.Capacity.Laws
import ShardedLedger.Probabilistic.BloomFilter
import ShardedLedger.MPC.Reconstruct
import ShardedLedger.Consensus.BFT
import ShardedLedger.MPC.Signature
import ShardedLedger.Capacity.Consistency
import ShardedLedger.Probabilistic.DigestChecks
