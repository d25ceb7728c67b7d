import ShardedLedger.Transfer.Sync

/-! `HomomorphicAuthenticator` and `EnhancedSyncManager`: a transfer is created with an HMAC
commitment to the block and snapshots of both shards, prepared at once, and later committed through
`SyncBlock` if the block at its index still matches the commitment, or else rolled back to the
snapshots. HMAC-SHA256 is the parameter `hmac key message`. -/

namespace ShardedLedger.Transfer
open ShardedLedger.Core ShardedLedger.Sharding

section
variable (hmac : Bytes → Bytes → Bytes)

/-- `AuthenticateData`: the hex HMAC of the data under the key. -/
def authenticateData (key data : Bytes) : Bytes := hexEncode (hmac key data)

/-- `VerifyAuthentication`; `hmac.Equal` compares the two byte strings. -/
def verifyAuthentication (key data commitment : Bytes) : Bool :=
  decide (commitment = authenticateData hmac key data)

theorem verifyAuthentication_self (key data : Bytes) :
    verifyAuthentication hmac key data (authenticateData hmac key data) = true := by
  simp [verifyAuthentication]

structure HomomorphicCommitment where
  value : Bytes
  commitment : Bytes
  deriving DecidableEq, Repr

/-- `CombineCommitments(commitments)`: the values concatenated in order, and the authenticated
concatenation of the commitments. -/
def combineCommitments (key : Bytes) (commitments : List HomomorphicCommitment) : HomomorphicCommitment :=
  let (combinedValue, combinedData) :=
    commitments.foldl (fun (v, d) c => (v ++ c.value, d ++ c.commitment)) ([], [])
  ⟨combinedValue, authenticateData hmac key combinedData⟩

private theorem combineCommitments_pair (key : Bytes) (a b : HomomorphicCommitment) :
    combineCommitments hmac key [a, b] =
      ⟨a.value ++ b.value, authenticateData hmac key (a.commitment ++ b.commitment)⟩ := rfl

/-- Nesting `CombineCommitments` either way gives one value. The commitments agree exactly when
the HMAC agrees on the two messages the outer calls authenticate: the inner commitment of `a, b`
followed by `c`'s, and `a`'s followed by the inner commitment of `b, c`. -/
theorem combineCommitments_nested (key : Bytes) (a b c : HomomorphicCommitment) :
    (combineCommitments hmac key [combineCommitments hmac key [a, b], c]).value =
        (combineCommitments hmac key [a, combineCommitments hmac key [b, c]]).value ∧
      ((combineCommitments hmac key [combineCommitments hmac key [a, b], c]).commitment =
          (combineCommitments hmac key [a, combineCommitments hmac key [b, c]]).commitment ↔
        hmac key (authenticateData hmac key (a.commitment ++ b.commitment) ++ c.commitment) =
          hmac key (a.commitment ++ authenticateData hmac key (b.commitment ++ c.commitment))) := by
  simp only [combineCommitments_pair, List.append_assoc, true_and]
  exact hexEncode_injective.eq_iff

end

/-- With a keyed hash that has no collisions, nesting `CombineCommitments` the other way changes
the commitment: for `a` committing to one zero byte and `b`, `c` to nothing, the second message
starts with a zero byte and the first is all hex digits. -/
theorem combineCommitments_not_assoc :
    ¬ ∃ hmac : Bytes → Bytes → Bytes, (∀ key, Function.Injective (hmac key)) ∧
      ∀ (key : Bytes) (a b c : HomomorphicCommitment),
        combineCommitments hmac key [combineCommitments hmac key [a, b], c] =
          combineCommitments hmac key [a, combineCommitments hmac key [b, c]] := by
  rintro ⟨hmac, hinj, h⟩
  have e := congrArg HomomorphicCommitment.commitment (h [] ⟨[], [0]⟩ ⟨[], []⟩ ⟨[], []⟩)
  simp only [combineCommitments_pair, List.append_nil, List.singleton_append] at e
  have hmsg := hinj [] (hexEncode_injective e)
  exact zero_not_mem_hexEncode _ (hmsg ▸ List.mem_cons_self 0 _)

/-- The partial state committed to: `fmt.Sprintf("%s:%s", block.Hash, block.Data)`. -/
def partialState (b : Block) : Bytes := b.hash ++ bytesOf ":" ++ b.data

def transferId (source destination blockIndex : Int) : Bytes :=
  bytesOf (toString source ++ "-" ++ toString destination ++ "-" ++ toString blockIndex)

/-- `TransferState`; the shards are pointers, the snapshots copies. -/
structure TransferState where
  sourceShard : Nat
  destShard : Nat
  blockIndex : Int
  commitment : Bytes
  prepared : Bool
  sourceSnapshot : List Block
  destSnapshot : List Block
  deriving DecidableEq

/-- `EnhancedSyncManager`: its authenticator's key and its `pendingTransfers` map. -/
structure EnhancedSyncManager where
  key : Bytes
  pendingTransfers : Bytes → Option TransferState

def newEnhancedSyncManager (key : Bytes) : EnhancedSyncManager := ⟨key, fun _ => none⟩

namespace EnhancedSyncManager

/-- `pendingTransfers[id] = ts`, or `delete(pendingTransfers, id)` for `none`. -/
def setPending (m : EnhancedSyncManager) (id : Bytes) (ts : Option TransferState) : EnhancedSyncManager :=
  { m with pendingTransfers := Function.update m.pendingTransfers id ts }

@[simp] private theorem key_setPending (m : EnhancedSyncManager) (id : Bytes) (ts : Option TransferState) :
    (m.setPending id ts).key = m.key := rfl

@[simp] private theorem pendingTransfers_setPending (m : EnhancedSyncManager) (id : Bytes)
    (ts : Option TransferState) :
    (m.setPending id ts).pendingTransfers = Function.update m.pendingTransfers id ts := rfl

@[simp] private theorem setPending_setPending (m : EnhancedSyncManager) (id : Bytes)
    (ts ts' : Option TransferState) : (m.setPending id ts).setPending id ts' = m.setPending id ts' := by
  simp [setPending]

variable (hmac : Bytes → Bytes → Bytes) (sha : Bytes → Bytes)

/-- `prepareTransfer`: the commitment checked against the source's block again, and the state
marked prepared; `none` is `false`. -/
def prepareTransfer (m : EnhancedSyncManager) (s : Store) (ts : TransferState) : Option TransferState :=
  match (s.get ts.sourceShard).blocks[ts.blockIndex.toNat]? with
  | none => none
  | some b =>
    if verifyAuthentication hmac m.key (partialState b) ts.commitment then some { ts with prepared := true }
    else none

/-- `CreateAuthenticatedTransfer(source, destination, blockIndex)`; it writes no shard. -/
def createAuthenticatedTransfer (m : EnhancedSyncManager) (s : Store) (source destination : Nat)
    (blockIndex : Int) : EnhancedSyncManager × Bool :=
  if blockIndex < 0 ∨ ((s.get source).blocks.length : Int) ≤ blockIndex then (m, false)
  else match (s.get source).blocks[blockIndex.toNat]? with
    | none => (m, false)
    | some block =>
      let commitment := authenticateData hmac m.key (partialState block)
      let id := transferId (s.get source).id (s.get destination).id blockIndex
      let ts : TransferState := ⟨source, destination, blockIndex, commitment, false,
        (s.get source).blocks, (s.get destination).blocks⟩
      let m := m.setPending id (some ts)
      match prepareTransfer hmac m s ts with
      | some ts => (m.setPending id (some ts), true)
      | none => (m.setPending id none, false)

/-- The rollback of `VerifyAndApplyTransfer`: both shards back to the snapshots, then both trees
rebuilt. -/
def rollback (s : Store) (source destination : Nat) (ts : TransferState) : Store :=
  let s := s.set source { s.get source with blocks := ts.sourceSnapshot }
  let s := s.set destination { s.get destination with blocks := ts.destSnapshot }
  rebuildTrees sha s source destination

/-- `VerifyAndApplyTransfer(source, destination, blockIndex)`: commit through `SyncBlock` if the
source's block still matches the commitment, roll back otherwise. -/
def verifyAndApplyTransfer (m : EnhancedSyncManager) (s : Store) (source destination : Nat)
    (blockIndex : Int) : EnhancedSyncManager × Store × Bool :=
  let id := transferId (s.get source).id (s.get destination).id blockIndex
  match m.pendingTransfers id with
  | none => (m, s, false)
  | some ts =>
    if !ts.prepared then (m, s, false)
    else if blockIndex < 0 ∨ ((s.get source).blocks.length : Int) ≤ blockIndex then (m, s, false)
    else
      let committed := match (s.get source).blocks[blockIndex.toNat]? with
        | some b =>
          if verifyAuthentication hmac m.key (partialState b) ts.commitment then
            syncBlock sha s source destination blockIndex
          else none
        | none => none
      match committed with
      | some s' => (m.setPending id none, s', true)
      | none => (m.setPending id none, rollback sha s source destination ts, false)

section
variable {m : EnhancedSyncManager} {s : Store}
  {source destination : Nat} {i : Int}

theorem createAuthenticatedTransfer_of_invalid (h : i < 0 ∨ ((s.get source).blocks.length : Int) ≤ i) :
    m.createAuthenticatedTransfer hmac s source destination i = (m, false) := by
  simp [createAuthenticatedTransfer, h]

theorem createAuthenticatedTransfer_eq {b : Block} (h0 : 0 ≤ i)
    (hb : (s.get source).blocks[i.toNat]? = some b) :
    m.createAuthenticatedTransfer hmac s source destination i =
      (m.setPending (transferId (s.get source).id (s.get destination).id i)
        (some ⟨source, destination, i, authenticateData hmac m.key (partialState b), true,
          (s.get source).blocks, (s.get destination).blocks⟩), true) := by
  have hi : ¬ (i < 0 ∨ ((s.get source).blocks.length : Int) ≤ i) := by
    obtain ⟨hl, -⟩ := List.getElem?_eq_some.1 hb
    omega
  simp [createAuthenticatedTransfer, hi, hb, prepareTransfer, verifyAuthentication_self]

theorem verifyAndApplyTransfer_of_none
    (h : m.pendingTransfers (transferId (s.get source).id (s.get destination).id i) = none) :
    m.verifyAndApplyTransfer hmac sha s source destination i = (m, s, false) := by
  simp [verifyAndApplyTransfer, h]

theorem verifyAndApplyTransfer_commit {ts : TransferState} {b : Block} {s' : Store}
    (hts : m.pendingTransfers (transferId (s.get source).id (s.get destination).id i) = some ts)
    (hp : ts.prepared = true) (h0 : 0 ≤ i) (hb : (s.get source).blocks[i.toNat]? = some b)
    (hv : verifyAuthentication hmac m.key (partialState b) ts.commitment = true)
    (hs : syncBlock sha s source destination i = some s') :
    m.verifyAndApplyTransfer hmac sha s source destination i =
      (m.setPending (transferId (s.get source).id (s.get destination).id i) none, s', true) := by
  have hi : ¬ (i < 0 ∨ ((s.get source).blocks.length : Int) ≤ i) := by
    obtain ⟨hl, -⟩ := List.getElem?_eq_some.1 hb
    omega
  simp [verifyAndApplyTransfer, hts, hp, hi, hb, hv, hs]

private theorem verifyAndApplyTransfer_rollback {ts : TransferState} {b : Block}
    (hts : m.pendingTransfers (transferId (s.get source).id (s.get destination).id i) = some ts)
    (hp : ts.prepared = true) (h0 : 0 ≤ i) (hb : (s.get source).blocks[i.toNat]? = some b)
    (hv : verifyAuthentication hmac m.key (partialState b) ts.commitment = false) :
    m.verifyAndApplyTransfer hmac sha s source destination i =
      (m.setPending (transferId (s.get source).id (s.get destination).id i) none,
        rollback sha s source destination ts, false) := by
  have hi : ¬ (i < 0 ∨ ((s.get source).blocks.length : Int) ≤ i) := by
    obtain ⟨hl, -⟩ := List.getElem?_eq_some.1 hb
    omega
  simp [verifyAndApplyTransfer, hts, hp, hi, hb, hv]

private theorem verifyAndApplyTransfer_of_not_prepared {ts : TransferState}
    (hts : m.pendingTransfers (transferId (s.get source).id (s.get destination).id i) = some ts)
    (hp : ts.prepared = false) :
    m.verifyAndApplyTransfer hmac sha s source destination i = (m, s, false) := by
  simp [verifyAndApplyTransfer, hts, hp]

private theorem verifyAndApplyTransfer_of_invalid {ts : TransferState}
    (hts : m.pendingTransfers (transferId (s.get source).id (s.get destination).id i) = some ts)
    (h : i < 0 ∨ ((s.get source).blocks.length : Int) ≤ i) :
    m.verifyAndApplyTransfer hmac sha s source destination i = (m, s, false) := by
  simp [verifyAndApplyTransfer, hts, h]

private theorem verifyAndApplyTransfer_store :
    (m.verifyAndApplyTransfer hmac sha s source destination i).2.1 = s ∨
      (∃ s', syncBlock sha s source destination i = some s' ∧
        (m.verifyAndApplyTransfer hmac sha s source destination i).2.1 = s') ∨
      ∃ ts, (m.verifyAndApplyTransfer hmac sha s source destination i).2.1 =
        rollback sha s source destination ts := by
  rcases hts : m.pendingTransfers (transferId (s.get source).id (s.get destination).id i) with _ | ts
  · exact .inl (by rw [verifyAndApplyTransfer_of_none hmac sha hts])
  cases hp : ts.prepared
  · exact .inl (by rw [verifyAndApplyTransfer_of_not_prepared hmac sha hts hp])
  by_cases hi : i < 0 ∨ ((s.get source).blocks.length : Int) ≤ i
  · exact .inl (by rw [verifyAndApplyTransfer_of_invalid hmac sha hts hi])
  have h0 : 0 ≤ i := by omega
  obtain ⟨b, hb⟩ : ∃ b, (s.get source).blocks[i.toNat]? = some b :=
    ⟨_, List.getElem?_eq_getElem (by omega)⟩
  cases hv : verifyAuthentication hmac m.key (partialState b) ts.commitment
  · exact .inr (.inr ⟨ts, by rw [verifyAndApplyTransfer_rollback hmac sha hts hp h0 hb hv]⟩)
  · obtain ⟨s', hs⟩ : ∃ s', syncBlock sha s source destination i = some s' := by
      simp [syncBlock, hi, hb]
    exact .inr (.inl ⟨s', hs, by rw [verifyAndApplyTransfer_commit hmac sha hts hp h0 hb hv hs]⟩)

private theorem consistent_rollback (h : s.Consistent sha) (ts : TransferState) :
    (rollback sha s source destination ts).Consistent sha :=
  consistent_rebuildTrees sha fun r hs hd => by
    simpa [Function.update_noteq hs, Function.update_noteq hd] using h r

theorem consistent_verifyAndApplyTransfer (h : s.Consistent sha) :
    (m.verifyAndApplyTransfer hmac sha s source destination i).2.1.Consistent sha := by
  rcases @verifyAndApplyTransfer_store hmac sha m s source destination i with
    e | ⟨s', hs, e⟩ | ⟨ts, e⟩ <;> rw [e]
  · exact h
  · exact consistent_syncBlock sha h hs
  · exact consistent_rollback sha h ts

end

/-- An undisturbed transfer between two shards commits, under any key: `CreateAuthenticatedTransfer`
succeeds, and the `VerifyAndApplyTransfer` right after it moves block `i` of the source to the end
of the destination, rebuilds both trees, writes no other shard and clears the pending entry. -/
theorem create_then_verify_commits (m : EnhancedSyncManager) (s : Store) {source destination : Nat}
    {i : Int} {b : Block} (hsd : source ≠ destination) (h0 : 0 ≤ i)
    (hb : (s.get source).blocks[i.toNat]? = some b) :
    ∃ m₁ m₂ s', m.createAuthenticatedTransfer hmac s source destination i = (m₁, true) ∧
      m₁.verifyAndApplyTransfer hmac sha s source destination i = (m₂, s', true) ∧
      (s'.get source).blocks = (s.get source).blocks.eraseIdx i.toNat ∧
      (s'.get destination).blocks = (s.get destination).blocks ++ [b] ∧
      (s'.get source).tree = some (newMerkleTree sha (getDataStrings (s'.get source).blocks)) ∧
      (s'.get destination).tree = some (newMerkleTree sha (getDataStrings (s'.get destination).blocks)) ∧
      (∀ r, r ≠ source → r ≠ destination → s'.get r = s.get r) ∧
      m₂.pendingTransfers (transferId (s.get source).id (s.get destination).id i) = none := by
  refine ⟨_, _, _, createAuthenticatedTransfer_eq hmac h0 hb,
    @verifyAndApplyTransfer_commit hmac sha _ s source destination i ⟨source, destination, i,
      authenticateData hmac m.key (partialState b), true, (s.get source).blocks, (s.get destination).blocks⟩
      b _ (by simp) rfl h0 hb (by rw [key_setPending, verifyAuthentication_self])
      (syncBlock_eq sha h0 hb hsd), ?_⟩
  simp [Function.update_noteq hsd, Function.update_noteq hsd.symm, Shard.setBlocks]
  exact fun r hs hd => by simp [Function.update_noteq hs, Function.update_noteq hd]

end EnhancedSyncManager

/-- Block `k` of the runs below: index, data and hash `k`. -/
def sampleBlock (k : UInt8) : Block := ⟨k.toNat, [], [k], [], [k]⟩

/-- Shard 0 holds blocks 1, 2 and 3; every other shard `r` is empty and has ID `r`. -/
def sampleStore : Store :=
  ⟨fun r => if r = 0 then ⟨0, [sampleBlock 1, sampleBlock 2, sampleBlock 3], none⟩ else ⟨r, [], none⟩, 3⟩

theorem create_then_verify_commits_sample :
    (0 : Nat) ≠ 1 ∧ (0 : Int) ≤ 1 ∧ (sampleStore.get 0).blocks[(1 : Int).toNat]? = some (sampleBlock 2) ∧
      ∃ m₁ m₂ s', (newEnhancedSyncManager []).createAuthenticatedTransfer (fun _ msg => msg) sampleStore 0 1 1 =
          (m₁, true) ∧
        m₁.verifyAndApplyTransfer (fun _ msg => msg) id sampleStore 0 1 1 = (m₂, s', true) ∧
        (s'.get 0).blocks = (sampleStore.get 0).blocks.eraseIdx (1 : Int).toNat ∧
        (s'.get 1).blocks = (sampleStore.get 1).blocks ++ [sampleBlock 2] ∧
        (s'.get 0).tree = some (newMerkleTree id (getDataStrings (s'.get 0).blocks)) ∧
        (s'.get 1).tree = some (newMerkleTree id (getDataStrings (s'.get 1).blocks)) ∧
        (∀ r, r ≠ 0 → r ≠ 1 → s'.get r = sampleStore.get r) ∧
        m₂.pendingTransfers (transferId (sampleStore.get 0).id (sampleStore.get 1).id 1) = none :=
  ⟨by decide, by decide, rfl, EnhancedSyncManager.create_then_verify_commits (fun _ msg => msg) id
    (newEnhancedSyncManager []) sampleStore (by decide) (by decide) rfl⟩

end ShardedLedger.Transfer
