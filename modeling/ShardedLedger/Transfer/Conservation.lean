import ShardedLedger.Transfer.Auth

/-! Transfers between a fixed set of shards by several `EnhancedSyncManager`s, their calls in any
order. A commit moves one block, but a rollback writes back snapshots, which are stale once another
transfer has committed on one of the two shards since they were taken. So the blocks are conserved
when no shard takes part in two pending transfers at once, the locking that `prepareTransfer` only
simulates, and a block can be duplicated otherwise. -/

namespace ShardedLedger.Transfer
open ShardedLedger.Core ShardedLedger.Sharding

/-- The shards and the sync managers. -/
structure TransferSystem where
  store : Store
  managers : Nat → EnhancedSyncManager

/-- Fresh sync managers with the given keys, over the shards of `s`. -/
def TransferSystem.start (keys : Nat → Bytes) (s : Store) : TransferSystem :=
  ⟨s, fun m => newEnhancedSyncManager (keys m)⟩

/-- A call on sync manager `m`. -/
inductive Call
  | create (m source destination : Nat) (blockIndex : Int)
  | verify (m source destination : Nat) (blockIndex : Int)
  deriving DecidableEq, Repr

def Call.source : Call → Nat
  | .create _ s _ _ => s
  | .verify _ s _ _ => s

def Call.destination : Call → Nat
  | .create _ _ d _ => d
  | .verify _ _ d _ => d

section
variable (hmac : Bytes → Bytes → Bytes) (sha : Bytes → Bytes)

def Call.apply : Call → TransferSystem → TransferSystem
  | .create m S D i, w =>
    ⟨w.store, Function.update w.managers m ((w.managers m).createAuthenticatedTransfer hmac w.store S D i).1⟩
  | .verify m S D i, w =>
    ⟨((w.managers m).verifyAndApplyTransfer hmac sha w.store S D i).2.1,
      Function.update w.managers m ((w.managers m).verifyAndApplyTransfer hmac sha w.store S D i).1⟩

/-- The calls one after another. -/
def runCalls (calls : List Call) (w : TransferSystem) : TransferSystem :=
  calls.foldl (fun w c => c.apply hmac sha w) w

end

/-- The two shards of a transfer. -/
def TransferState.shards (ts : TransferState) : List Nat := [ts.sourceShard, ts.destShard]

/-- Shard `r` takes part in a transfer pending at some manager. -/
def TransferSystem.Busy (w : TransferSystem) (r : Nat) : Prop :=
  ∃ m id ts, (w.managers m).pendingTransfers id = some ts ∧ r ∈ ts.shards

/-- The locking discipline: a transfer is created only between shards in no pending transfer, and
a commit finds, under its transfer ID, the transfer created with its shards and index. -/
def Call.Respects (w : TransferSystem) : Call → Prop
  | .create _ S D _ => ¬ w.Busy S ∧ ¬ w.Busy D
  | .verify m S D i => ∀ ts,
    (w.managers m).pendingTransfers (transferId (w.store.get S).id (w.store.get D).id i) = some ts →
      ts.sourceShard = S ∧ ts.destShard = D ∧ ts.blockIndex = i

/-- Every call of a run keeps the locking discipline in the state it is made in. -/
def Disciplined (hmac : Bytes → Bytes → Bytes) (sha : Bytes → Bytes) : TransferSystem → List Call → Prop
  | _, [] => True
  | w, c :: cs => c.Respects w ∧ Disciplined hmac sha (c.apply hmac sha w) cs

section
variable (hmac : Bytes → Bytes → Bytes)

/-- A pending transfer still describes its shards: it is prepared, both snapshots are the shards'
blocks, and it commits to the block at its index. -/
def TransferState.Current (key : Bytes) (s : Store) (ts : TransferState) : Prop :=
  ts.prepared = true ∧ (s.get ts.sourceShard).blocks = ts.sourceSnapshot ∧
    (s.get ts.destShard).blocks = ts.destSnapshot ∧ 0 ≤ ts.blockIndex ∧
    ∃ b, ts.sourceSnapshot[ts.blockIndex.toNat]? = some b ∧
      ts.commitment = authenticateData hmac key (partialState b)

/-- The invariant of disciplined runs: every pending transfer is current, and no two pending
transfers share a shard. -/
structure Locked (w : TransferSystem) : Prop where
  current : ∀ m id ts, (w.managers m).pendingTransfers id = some ts →
    ts.Current hmac (w.managers m).key w.store
  disjoint : ∀ m id ts m' id' ts', (w.managers m).pendingTransfers id = some ts →
    (w.managers m').pendingTransfers id' = some ts' → (m ≠ m' ∨ id ≠ id') →
      ∀ r ∈ ts.shards, r ∉ ts'.shards

theorem TransferState.Current.frame {key : Bytes} {s s' : Store} {ts : TransferState}
    (h : ts.Current hmac key s) (hfr : ∀ r ∈ ts.shards, (s'.get r).blocks = (s.get r).blocks) :
    ts.Current hmac key s' := by
  obtain ⟨hp, hs, hd, h0, hb⟩ := h
  exact ⟨hp, (hfr _ (by simp [TransferState.shards])).trans hs,
    (hfr _ (by simp [TransferState.shards])).trans hd, h0, hb⟩

end

private theorem pendingTransfers_update (f : Nat → EnhancedSyncManager) (m : Nat) (id : Bytes)
    (x : Option TransferState) (m' : Nat) (id' : Bytes) :
    ((Function.update f m ((f m).setPending id x)) m').pendingTransfers id' =
      if m' = m ∧ id' = id then x else (f m').pendingTransfers id' := by
  by_cases hm : m' = m
  · subst hm; by_cases hi : id' = id <;> simp [hi]
  · simp [hm, Function.update_noteq hm]

private theorem key_update (f : Nat → EnhancedSyncManager) (m : Nat) (id : Bytes) (x : Option TransferState)
    (m' : Nat) : ((Function.update f m ((f m).setPending id x)) m').key = (f m').key := by
  by_cases hm : m' = m
  · subst hm; simp
  · simp [Function.update_noteq hm]

section
variable (hmac : Bytes → Bytes → Bytes) (sha : Bytes → Bytes) {w : TransferSystem} {m S D : Nat} {i : Int}

theorem Locked.create (H : Locked hmac w) (hS : ¬ w.Busy S) (hD : ¬ w.Busy D) :
    Locked hmac ((Call.create m S D i).apply hmac sha w) ∧
      ((Call.create m S D i).apply hmac sha w).store = w.store := by
  refine ⟨?_, rfl⟩
  by_cases hi : i < 0 ∨ ((w.store.get S).blocks.length : Int) ≤ i
  · simpa [Call.apply, EnhancedSyncManager.createAuthenticatedTransfer_of_invalid hmac hi] using H
  have h0 : 0 ≤ i := by omega
  obtain ⟨b, hb⟩ : ∃ b, (w.store.get S).blocks[i.toNat]? = some b :=
    ⟨_, List.getElem?_eq_getElem (by omega)⟩
  simp only [Call.apply, EnhancedSyncManager.createAuthenticatedTransfer_eq hmac h0 hb]
  have hbusy : ∀ m' id' ts', (w.managers m').pendingTransfers id' = some ts' →
      ∀ r ∈ ts'.shards, r ∉ [S, D] := by
    intro m' id' ts' h r hr hm
    simp only [List.mem_cons, List.mem_singleton, List.not_mem_nil, or_false] at hm
    rcases hm with rfl | rfl
    exacts [hS ⟨m', id', ts', h, hr⟩, hD ⟨m', id', ts', h, hr⟩]
  constructor
  · intro m' id' ts' h'
    rw [pendingTransfers_update] at h'
    rw [key_update]
    split_ifs at h' with hc
    · obtain ⟨rfl, -⟩ := hc
      cases h'
      exact ⟨rfl, rfl, rfl, h0, b, hb, rfl⟩
    · exact H.current m' id' ts' h'
  · intro m₁ id₁ ts₁ m₂ id₂ ts₂ h₁ h₂ hne r hr
    rw [pendingTransfers_update] at h₁ h₂
    split_ifs at h₁ h₂ with hc₁ hc₂ hc₂
    · exact absurd (hc₁.1.trans hc₂.1.symm) (hne.resolve_right (fun e => e (hc₁.2.trans hc₂.2.symm)))
    · cases h₁; exact fun hr₂ => hbusy _ _ _ h₂ r hr₂ hr
    · cases h₂; exact hbusy _ _ _ h₁ r hr
    · exact H.disjoint _ _ _ _ _ _ h₁ h₂ hne r hr

theorem Locked.verify (H : Locked hmac w) (hr : (Call.verify m S D i).Respects w) (hSD : S ≠ D) :
    Locked hmac ((Call.verify m S D i).apply hmac sha w) ∧
      (((Call.verify m S D i).apply hmac sha w).store = w.store ∨
        syncBlock sha w.store S D i = some ((Call.verify m S D i).apply hmac sha w).store) := by
  rcases hts : (w.managers m).pendingTransfers
      (transferId (w.store.get S).id (w.store.get D).id i) with _ | ts
  · simp only [Call.apply, EnhancedSyncManager.verifyAndApplyTransfer_of_none hmac sha hts,
      Function.update_eq_self]
    exact ⟨H, by simp⟩
  obtain ⟨rfl, rfl, rfl⟩ := hr ts hts
  obtain ⟨hp, hsrc, hdst, h0, b, hb, hc⟩ := H.current m _ ts hts
  rw [← hsrc] at hb
  have hv : verifyAuthentication hmac (w.managers m).key (partialState b) ts.commitment = true := by
    rw [hc]; exact verifyAuthentication_self hmac _ _
  have hs := syncBlock_eq sha h0 hb hSD
  simp only [Call.apply, EnhancedSyncManager.verifyAndApplyTransfer_commit hmac sha hts hp h0 hb hv hs]
  refine ⟨⟨fun m' id' ts' h' => ?_, fun m₁ id₁ ts₁ m₂ id₂ ts₂ h₁ h₂ => ?_⟩, .inr hs⟩
  · rw [pendingTransfers_update] at h'
    rw [key_update]
    split_ifs at h' with hc'
    have hdis := H.disjoint _ _ _ _ _ _ h' hts (by tauto)
    refine (H.current m' id' ts' h').frame hmac fun r hr => ?_
    have hr' := hdis r hr
    simp only [TransferState.shards, List.mem_cons, List.mem_singleton, List.not_mem_nil, or_false,
      not_or] at hr'
    simp [Function.update_noteq hr'.1, Function.update_noteq hr'.2]
  · rw [pendingTransfers_update] at h₁ h₂
    split_ifs at h₁ h₂
    exact H.disjoint _ _ _ _ _ _ h₁ h₂

end

section
variable (hmac : Bytes → Bytes → Bytes) (sha : Bytes → Bytes) {shards : List Nat}

theorem Locked.step {w : TransferSystem} {c : Call} (H : Locked hmac w) (hr : c.Respects w)
    (hnd : shards.Nodup) (hS : c.source ∈ shards) (hD : c.destination ∈ shards)
    (hSD : c.source ≠ c.destination) :
    Locked hmac (c.apply hmac sha w) ∧ (held (c.apply hmac sha w).store shards).Perm (held w.store shards) := by
  cases c with
  | create m S D i =>
    obtain ⟨H', hs⟩ := H.create hmac sha (m := m) (i := i) hr.1 hr.2
    exact ⟨H', by rw [hs]⟩
  | verify m S D i =>
    obtain ⟨H', hs | hs⟩ := H.verify hmac sha hr hSD
    · exact ⟨H', by rw [hs]⟩
    · exact ⟨H', held_syncBlock sha hnd hS hD hSD hs⟩

theorem Locked.run (hnd : shards.Nodup) (calls : List Call) :
    ∀ w, Locked hmac w → Disciplined hmac sha w calls →
      (∀ c ∈ calls, c.source ∈ shards ∧ c.destination ∈ shards ∧ c.source ≠ c.destination) →
        (held (runCalls hmac sha calls w).store shards).Perm (held w.store shards) := by
  induction calls with
  | nil => exact fun w _ _ _ => List.Perm.refl _
  | cons c cs ih =>
    intro w H hd hc
    obtain ⟨hS, hD, hSD⟩ := hc c (List.mem_cons_self _ _)
    obtain ⟨H', hp⟩ := H.step hmac sha hd.1 hnd hS hD hSD
    exact (ih _ H' hd.2 fun c' h' => hc c' (List.mem_cons_of_mem _ h')).trans hp

end

end ShardedLedger.Transfer
