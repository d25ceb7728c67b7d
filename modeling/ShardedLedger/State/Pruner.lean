import Mathlib.Algebra.Order.Ring.Nat
import Mathlib.Data.List.Basic
import ShardedLedger.Core.Block

/-! `StatePruner` of merkle_tree.go: a pruning policy, and for each pruning an integrity proof, the
hex SHA-256 of the pruned blocks' hashes signed with a fixed key. `PruneBlockchain` drops the oldest
blocks beyond `RetentionCount`, rounded down to a multiple of `MaxHeight` with checkpoints. Go's
`int` is 64 bits wide, so the subtraction wraps; its `%` truncates and panics on a zero divisor, and
an index or slice past the end panics too: the model returns those faults. -/

namespace ShardedLedger.State
open ShardedLedger.Core

/-- A Go runtime panic. -/
inductive Fault
  | divideByZero
  | indexOutOfRange
  | sliceOutOfRange
  deriving DecidableEq, Repr

structure PruningPolicy where
  maxHeight : Int
  retentionCount : Int
  useCheckpoints : Bool
  deriving DecidableEq, Repr

/-- `IntegrityProof`; the timestamp is an instant in nanoseconds. -/
structure IntegrityProof where
  rootHash : Bytes
  prunedCount : Int
  timestamp : Int
  signature : Bytes
  deriving DecidableEq, Repr

structure StatePruner where
  policy : PruningPolicy
  integrityProofs : List IntegrityProof
  merkleRoot : Bytes
  secretKey : Bytes

def newStatePruner (maxHeight retention : Int) (useCheckpoints : Bool) : StatePruner :=
  ⟨⟨maxHeight, retention, useCheckpoints⟩, [], [], bytesOf "pruning-integrity-key"⟩

/-- The loop `for i := 0; i < n; i++ { h.Write([]byte(bc.Blocks[i].Hash)) }`: the bytes written,
or the panic of the first index past the end. -/
def writeHashes (blocks : List Block) : Nat → Except Fault Bytes
  | 0 => pure []
  | n + 1 => do
    let written ← writeHashes blocks n
    match blocks[n]? with
    | some b => pure (written ++ b.hash)
    | none => throw .indexOutOfRange

/-- `prunableCount - (prunableCount % MaxHeight)` when `UseCheckpoints`. -/
def checkpoint (policy : PruningPolicy) (prunableCount : Int) : Except Fault Int :=
  if policy.useCheckpoints then
    if policy.maxHeight = 0 then throw .divideByZero
    else pure (prunableCount - prunableCount.tmod policy.maxHeight)
  else pure prunableCount

section
variable (sha : Bytes → Bytes)

namespace StatePruner

/-- `createIntegrityProof(rootHash, count)`, at instant `now`. -/
def createIntegrityProof (sp : StatePruner) (rootHash : Bytes) (count now : Int) : IntegrityProof :=
  ⟨rootHash, count, now, hexEncode (sha (rootHash ++ bytesOf (toString count) ++ sp.secretKey))⟩

/-- `PruneBlockchain(bc)`, with `now` the reading of `time.Now()`: the pruner and chain after it
and the count it returns, or the panic. The last check is the slice `proof.Signature[:16]` of the
`Printf`. -/
def pruneBlockchain (sp : StatePruner) (bc : Blockchain) (now : Int) :
    Except Fault (StatePruner × Blockchain × Int) :=
  if (bc.blocks.length : Int) ≤ sp.policy.retentionCount then pure (sp, bc, 0) else do
  let prunableCount ← checkpoint sp.policy (Int.bmod (bc.blocks.length - sp.policy.retentionCount) (2 ^ 64))
  if prunableCount ≤ 0 then return (sp, bc, 0)
  let rootHash := hexEncode (sha (← writeHashes bc.blocks prunableCount.toNat))
  let proof := sp.createIntegrityProof sha rootHash prunableCount now
  let sp := { sp with integrityProofs := sp.integrityProofs ++ [proof], merkleRoot := rootHash }
  if (bc.blocks.length : Int) < prunableCount then throw .sliceOutOfRange
  if proof.signature.length < 16 then throw .sliceOutOfRange
  return (sp, ⟨bc.blocks.drop prunableCount.toNat⟩, prunableCount)

/-- `VerifyIntegrity(proof)`: the signature recomputed from the root hash and count. -/
def verifyIntegrity (sp : StatePruner) (proof : IntegrityProof) : Bool :=
  decide (hexEncode (sha (proof.rootHash ++ bytesOf (toString proof.prunedCount) ++ sp.secretKey)) =
    proof.signature)

/-- `GetLatestProof`; `none` is nil. -/
def getLatestProof (sp : StatePruner) : Option IntegrityProof := sp.integrityProofs.getLast?

end StatePruner

end

/-! ### Arithmetic of the prunable count -/

private theorem bmod_le_self {x : Int} (hx : 0 ≤ x) : x.bmod (2 ^ 64) ≤ x := by
  rw [Int.bmod_def]
  split_ifs <;> omega

private theorem sub_tmod_le (a b : Int) : a - a.tmod b ≤ max a 0 := by
  cases a with
  | ofNat m =>
    have := Int.tmod_nonneg b (Int.ofNat_nonneg m)
    simp only [Int.ofNat_eq_coe] at *
    omega
  | negSucc m =>
    cases b with
    | ofNat n =>
      have := Nat.mod_le (m + 1) n
      simp only [Int.tmod, Int.negSucc_eq, Nat.succ_eq_add_one, Int.ofNat_eq_coe]
      omega
    | negSucc n =>
      have := Nat.mod_le (m + 1) (n + 1)
      simp only [Int.tmod, Int.negSucc_eq, Nat.succ_eq_add_one, Int.ofNat_eq_coe]
      omega

private theorem checkpoint_spec {policy : PruningPolicy} (hm : policy.useCheckpoints = true → policy.maxHeight ≠ 0)
    (p : Int) : ∃ p', checkpoint policy p = .ok p' ∧ p' ≤ max p 0 := by
  unfold checkpoint
  cases hc : policy.useCheckpoints
  · exact ⟨p, rfl, by omega⟩
  · exact ⟨_, by rw [if_pos rfl, if_neg (hm hc)]; rfl, sub_tmod_le p _⟩

private theorem writeHashes_of_le (blocks : List Block) :
    ∀ n, n ≤ blocks.length → writeHashes blocks n = .ok ((blocks.take n).flatMap Block.hash)
  | 0, _ => rfl
  | n + 1, h => by
    rw [writeHashes, writeHashes_of_le blocks n (by omega), List.getElem?_eq_getElem (by omega),
      List.take_succ, List.getElem?_eq_getElem (by omega), Option.toList_some, List.flatMap_append]
    simp [bind, Except.bind, pure, Except.pure]

private theorem writeHashes_of_lt (blocks : List Block) :
    ∀ n, blocks.length < n → writeHashes blocks n = .error .indexOutOfRange
  | 0, h => absurd h (Nat.not_lt_zero _)
  | n + 1, h => by
    rcases Nat.lt_or_ge blocks.length n with h' | h'
    · rw [writeHashes, writeHashes_of_lt blocks n h']
      rfl
    · rw [writeHashes, writeHashes_of_le blocks n h', List.getElem?_eq_none (by omega)]
      rfl

section
variable (sha : Bytes → Bytes)

/-- With a non-negative `RetentionCount` and, with checkpoints, a non-zero `MaxHeight`,
`PruneBlockchain` returns without a panic some `k` between `0` and the chain's length. It drops the
first `k` blocks, and appends an integrity proof exactly when `k > 0`, one that `VerifyIntegrity`
accepts. -/
theorem pruneBlockchain_spec (hsha : ∀ m, (sha m).length = 32) (sp : StatePruner) (bc : Blockchain)
    (now : Int) (hr : 0 ≤ sp.policy.retentionCount)
    (hm : sp.policy.useCheckpoints = true → sp.policy.maxHeight ≠ 0) :
    ∃ sp' bc' k, sp.pruneBlockchain sha bc now = .ok (sp', bc', k) ∧ 0 ≤ k ∧ k ≤ bc.blocks.length ∧
      bc'.blocks = bc.blocks.drop k.toNat ∧ (k = 0 → sp'.integrityProofs = sp.integrityProofs) ∧
      (0 < k → ∃ proof, sp'.integrityProofs = sp.integrityProofs ++ [proof] ∧
        sp'.verifyIntegrity sha proof = true) := by
  unfold StatePruner.pruneBlockchain
  split_ifs with hkeep
  · exact ⟨sp, bc, 0, rfl, Int.le_refl 0, by omega, rfl, fun _ => rfl, fun h => absurd h (Int.lt_irrefl 0)⟩
  obtain ⟨p, hp, hple⟩ := checkpoint_spec hm (Int.bmod (bc.blocks.length - sp.policy.retentionCount) (2 ^ 64))
  have hb := bmod_le_self (x := (bc.blocks.length : Int) - sp.policy.retentionCount) (by omega)
  rw [hp]
  simp only [bind, Except.bind]
  have hlen : p ≤ bc.blocks.length := by omega
  split_ifs with hp0 hslice
  · exact ⟨sp, bc, 0, rfl, Int.le_refl 0, by omega, rfl, fun _ => rfl, fun h => absurd h (Int.lt_irrefl 0)⟩
  · exact absurd hlen (by omega)
  simp only [writeHashes_of_le _ _ (show p.toNat ≤ bc.blocks.length by omega), pure, Except.pure,
    StatePruner.createIntegrityProof, length_hexEncode, hsha]
  refine ⟨_, _, _, rfl, by omega, hlen, rfl, fun h => absurd h (by omega), fun _ => ⟨_, rfl, ?_⟩⟩
  simp [StatePruner.verifyIntegrity]

end

/-- A stand-in for SHA-256 in the runs below: 32 zero bytes, whatever the message. -/
def zeroDigest (_m : Bytes) : Bytes := List.replicate 32 0

theorem pruneBlockchain_spec_checkpointed :
    (∀ m, (zeroDigest m).length = 32) ∧ 0 ≤ (newStatePruner 2 1 true).policy.retentionCount ∧
      ((newStatePruner 2 1 true).policy.useCheckpoints = true → (newStatePruner 2 1 true).policy.maxHeight ≠ 0) ∧
      ∃ sp' bc' k, (newStatePruner 2 1 true).pruneBlockchain zeroDigest ⟨[genesisBlock zeroDigest [],
          genesisBlock zeroDigest [], genesisBlock zeroDigest []]⟩ 0 = .ok (sp', bc', k) ∧ 0 ≤ k ∧ k ≤ 3 ∧
        bc'.blocks = [genesisBlock zeroDigest [], genesisBlock zeroDigest [], genesisBlock zeroDigest []].drop k.toNat ∧
        (k = 0 → sp'.integrityProofs = (newStatePruner 2 1 true).integrityProofs) ∧
        (0 < k → ∃ proof, sp'.integrityProofs = (newStatePruner 2 1 true).integrityProofs ++ [proof] ∧
          sp'.verifyIntegrity zeroDigest proof = true) :=
  have hsha : ∀ m, (zeroDigest m).length = 32 := fun _ => List.length_replicate _ _
  ⟨hsha, by decide, by decide, pruneBlockchain_spec zeroDigest hsha (newStatePruner 2 1 true) _ 0 (by decide) (by decide)⟩

/-- A zero checkpoint height divides by zero as soon as a block is prunable, whatever the hash. -/
theorem pruneBlockchain_faults :
    ¬ ∃ sha : Bytes → Bytes, ∀ (maxHeight retention : Int) (useCheckpoints : Bool) (bc : Blockchain) (now : Int),
      ∃ r, (newStatePruner maxHeight retention useCheckpoints).pruneBlockchain sha bc now = .ok r := by
  rintro ⟨sha, h⟩
  obtain ⟨r, hr⟩ := h 0 0 true ⟨[⟨0, [], [], [], []⟩]⟩ 0
  have hdiv : (newStatePruner 0 0 true).pruneBlockchain sha ⟨[⟨0, [], [], [], []⟩]⟩ 0 = .error .divideByZero :=
    rfl
  exact Except.noConfusion (hdiv.symm.trans hr)

end ShardedLedger.State
