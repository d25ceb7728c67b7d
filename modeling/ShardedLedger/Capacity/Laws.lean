import Mathlib.Algebra.Order.Field.Rat
import Mathlib.Tactic.NormNum.Ineq
import Mathlib.Tactic.Linarith
import ShardedLedger.Capacity.Manager

/-! The laws of the capacity manager over whole runs. No call lowers a vector-clock counter and
`RecordMetrics` raises its node's, until a counter reaches the top of `uint64` and wraps. Peer syncs
given in any order end with the same clock and the same view, unless two peer metrics for one node
carry one timestamp: the first one delivered is kept. -/

namespace ShardedLedger.Capacity
open ShardedLedger.Core

namespace AdaptiveCapacityManager

@[simp] private theorem vectorClock_adopt (acm : AdaptiveCapacityManager) (nodeID : Bytes) (m : NetworkMetrics)
    (t : Int) : (acm.adopt nodeID m t).vectorClock = acm.vectorClock := rfl

@[simp] private theorem policy_adopt (acm : AdaptiveCapacityManager) (nodeID : Bytes) (m : NetworkMetrics)
    (t : Int) : (acm.adopt nodeID m t).policy = acm.policy := rfl

private theorem syncEntry_fields (acm : AdaptiveCapacityManager) (e : Bytes × NetworkMetrics) :
    (acm.syncEntry e).vectorClock = acm.vectorClock ∧ (acm.syncEntry e).policy = acm.policy := by
  unfold syncEntry; split_ifs <;> simp

private theorem foldl_syncEntry_fields (es : List (Bytes × NetworkMetrics)) : ∀ acm : AdaptiveCapacityManager,
    (es.foldl syncEntry acm).vectorClock = acm.vectorClock ∧ (es.foldl syncEntry acm).policy = acm.policy := by
  induction es with
  | nil => intro acm; exact ⟨rfl, rfl⟩
  | cons e es ih =>
    intro acm
    obtain ⟨h₁, h₂⟩ := ih (acm.syncEntry e)
    exact ⟨h₁.trans (syncEntry_fields acm e).1, h₂.trans (syncEntry_fields acm e).2⟩

private theorem vectorClock_syncWithPeer (acm : AdaptiveCapacityManager) (pm : PeerMetrics) (vc : Option VectorClock) :
    (acm.syncWithPeer pm vc).vectorClock = vc.elim acm.vectorClock acm.vectorClock.merge := by
  cases vc <;> exact (foldl_syncEntry_fields _ _).1

private theorem policy_syncWithPeer (acm : AdaptiveCapacityManager) (pm : PeerMetrics) (vc : Option VectorClock) :
    (acm.syncWithPeer pm vc).policy = acm.policy := by
  cases vc <;> exact (foldl_syncEntry_fields _ _).2

private theorem vectorClock_recordMetrics (acm : AdaptiveCapacityManager) (m : NetworkMetrics) (now : Int) :
    (acm.recordMetrics m now).vectorClock =
      m.vectorClock.elim (acm.vectorClock.update m.nodeID) (acm.vectorClock.update m.nodeID).merge := by
  unfold recordMetrics; cases m.vectorClock <;> rfl

end AdaptiveCapacityManager

/-- Below the top of `uint64` at the node `RecordMetrics` is for, no call lowers a counter of the
vector clock, and `RecordMetrics(m)` raises the one of `m.NodeID`. -/
theorem vectorClock_monotone (acm : AdaptiveCapacityManager) (c : CapacityCall)
    (hc : ∀ m now, c = .recordMetrics m now → (acm.getVectorClock.get m.nodeID).toNat < 2 ^ 64 - 1) :
    (∀ n, acm.getVectorClock.get n ≤ (c.apply acm).getVectorClock.get n) ∧
      ∀ m now, c = .recordMetrics m now →
        acm.getVectorClock.get m.nodeID < (c.apply acm).getVectorClock.get m.nodeID := by
  cases c with
  | recordMetrics m now =>
    have htop := hc m now rfl
    have hup (n : Bytes) : (acm.vectorClock.update m.nodeID).get n ≤ (acm.recordMetrics m now).vectorClock.get n := by
      rw [AdaptiveCapacityManager.vectorClock_recordMetrics]
      exact VectorClock.le_get_elim_merge _ _ n
    refine ⟨fun n => ?_, fun m' now' e => ?_⟩
    · by_cases hn : n = m.nodeID
      · subst hn
        exact Nat.le_trans (Nat.le_of_lt (VectorClock.get_lt_update _ _ htop)) (hup _)
      · exact Nat.le_trans (VectorClock.get_le_update _ _ _ hn) (hup n)
    · cases e
      exact Nat.lt_of_lt_of_le (VectorClock.get_lt_update _ _ htop) (hup _)
  | syncWithPeer pm vc =>
    refine ⟨fun n => ?_, fun _ _ e => nomatch e⟩
    show _ ≤ (acm.syncWithPeer pm vc).vectorClock.get n
    rw [AdaptiveCapacityManager.vectorClock_syncWithPeer]
    exact VectorClock.le_get_elim_merge _ _ n

/-- Metrics for `nodeID` at instant `timestamp`, with no latency and no clock. -/
def sampleMetrics (nodeID : Bytes) (errorRate : ℚ) (timestamp : Int) : NetworkMetrics :=
  ⟨0, 0, errorRate, nodeID, timestamp, none⟩

/-- A peer map holding `m` alone, under its own node ID. -/
def singlePeer (m : NetworkMetrics) : PeerMetrics := ⟨[(m.nodeID, m)], List.nodup_singleton _⟩

/-- A manager whose clock a peer sync set to `7` at every node. -/
def peerSynced : AdaptiveCapacityManager :=
  (newAdaptiveCapacityManager []).syncWithPeer ⟨[], List.nodup_nil⟩ (some ⟨fun _ => 7⟩)

/-- Metrics for node `""` that carry a clock at `9` everywhere. -/
def clockedMetrics : NetworkMetrics := ⟨0, 0, 0, [], 0, some ⟨fun _ => 9⟩⟩

theorem vectorClock_monotone_synced :
    (∀ m now, CapacityCall.recordMetrics clockedMetrics 0 = .recordMetrics m now →
        (peerSynced.getVectorClock.get m.nodeID).toNat < 2 ^ 64 - 1) ∧
      (∀ n, peerSynced.getVectorClock.get n ≤
        ((CapacityCall.recordMetrics clockedMetrics 0).apply peerSynced).getVectorClock.get n) ∧
      ∀ m now, CapacityCall.recordMetrics clockedMetrics 0 = .recordMetrics m now →
        peerSynced.getVectorClock.get m.nodeID <
          ((CapacityCall.recordMetrics clockedMetrics 0).apply peerSynced).getVectorClock.get m.nodeID :=
  have hc : ∀ m now, CapacityCall.recordMetrics clockedMetrics 0 = .recordMetrics m now →
      (peerSynced.getVectorClock.get m.nodeID).toNat < 2 ^ 64 - 1 := by
    rintro m now ⟨⟩; decide
  ⟨hc, vectorClock_monotone _ _ hc⟩

/-- A peer clock at the top of `uint64`, then `RecordMetrics` for that node: `++` wraps its
counter to `0`. -/
theorem recordMetrics_clock_wraps :
    ¬ ∀ (calls : List CapacityCall) (c : CapacityCall) (n : Bytes),
      (runCapacity calls (newAdaptiveCapacityManager [])).getVectorClock.get n ≤
        (c.apply (runCapacity calls (newAdaptiveCapacityManager []))).getVectorClock.get n := by
  intro h
  have := h [.syncWithPeer ⟨[], List.nodup_nil⟩ (some ⟨fun _ => 18446744073709551615⟩)]
    (.recordMetrics (sampleMetrics [] 0 0) 0) []
  revert this
  decide

/-! ### Bounded histories

`RecordMetrics` and `SyncWithPeer` append to a node's history and drop its oldest entry once it
holds more than `historyLimit`, so no history grows past the limit. -/

private theorem length_appendHistory_le (limit : Int) (history : List NetworkMetrics) (m : NetworkMetrics)
    (h : (history.length : Int) ≤ max limit 0) :
    ((appendHistory limit history m).length : Int) ≤ max limit 0 := by
  unfold appendHistory
  split_ifs with hl <;>
    simp only [List.length_tail, List.length_append, List.length_singleton] at hl ⊢ <;> omega

namespace AdaptiveCapacityManager

/-- The manager keeps the history limit `limit`, and every node's history holds at most
`max(limit, 0)` metrics. -/
structure HistoryBounded (limit : Int) (acm : AdaptiveCapacityManager) : Prop where
  limit_eq : acm.historyLimit = limit
  length_le : ∀ n, ((acm.metricHistory n).length : Int) ≤ max limit 0

section
variable {limit : Int} {acm : AdaptiveCapacityManager}

theorem HistoryBounded.adopt (h : acm.HistoryBounded limit) (nodeID : Bytes) (m : NetworkMetrics) (t : Int) :
    (acm.adopt nodeID m t).HistoryBounded limit := by
  obtain ⟨rfl, hlen⟩ := h
  refine ⟨rfl, fun n => ?_⟩
  simp only [AdaptiveCapacityManager.adopt, Function.update_apply]
  split_ifs
  · exact length_appendHistory_le _ _ m (hlen nodeID)
  · exact hlen n

theorem HistoryBounded.syncEntry (h : acm.HistoryBounded limit) (e : Bytes × NetworkMetrics) :
    (acm.syncEntry e).HistoryBounded limit := by
  unfold AdaptiveCapacityManager.syncEntry
  split_ifs
  · exact h.adopt _ _ _
  · exact h

private theorem HistoryBounded.foldl_syncEntry (es : List (Bytes × NetworkMetrics)) :
    ∀ {acm : AdaptiveCapacityManager}, acm.HistoryBounded limit →
      (es.foldl AdaptiveCapacityManager.syncEntry acm).HistoryBounded limit := by
  induction es with
  | nil => exact id
  | cons e es ih => exact fun h => ih (h.syncEntry e)

theorem HistoryBounded.apply (h : acm.HistoryBounded limit) (c : CapacityCall) :
    (c.apply acm).HistoryBounded limit := by
  cases c with
  | recordMetrics m now =>
    dsimp only [CapacityCall.apply, recordMetrics]
    refine HistoryBounded.adopt ?_ _ _ _
    exact ⟨h.limit_eq, h.length_le⟩
  | syncWithPeer pm vc =>
    dsimp only [CapacityCall.apply, syncWithPeer]
    cases vc
    · exact HistoryBounded.foldl_syncEntry _ h
    · refine HistoryBounded.foldl_syncEntry _ ?_
      exact ⟨h.limit_eq, h.length_le⟩

theorem HistoryBounded.runCapacity (calls : List CapacityCall) :
    ∀ {acm : AdaptiveCapacityManager}, acm.HistoryBounded limit →
      (runCapacity calls acm).HistoryBounded limit := by
  induction calls with
  | nil => exact id
  | cons c calls ih => exact fun h => ih (h.apply c)

end

end AdaptiveCapacityManager

open AdaptiveCapacityManager in
/-- From `NewAdaptiveCapacityManager`, after any calls, every node's history holds at most 100
metrics, the `historyLimit` it sets. -/
theorem metricHistory_length_le (nodeID : Bytes) (calls : List CapacityCall) (n : Bytes) :
    ((runCapacity calls (newAdaptiveCapacityManager nodeID)).metricHistory n).length ≤ 100 := by
  have h : (newAdaptiveCapacityManager nodeID).HistoryBounded 100 := ⟨rfl, fun _ => le_max_right _ _⟩
  have := (h.runCapacity calls).length_le n
  omega

/-! ### Bounded capacities

Every capacity the manager stores is a value of its policy, which no call replaces, and
`AdjustCapacity` clamps its values into `[0, maxCapacity]`. -/

private theorem adjustCapacity_mem (p : DefaultAdaptivePolicy) (hp : 0 ≤ p.maxCapacity) (m : NetworkMetrics) :
    0 ≤ p.adjustCapacity m ∧ p.adjustCapacity m ≤ p.maxCapacity := by
  unfold DefaultAdaptivePolicy.adjustCapacity
  dsimp only
  split_ifs with h₁ h₂ h₂ <;> constructor <;> linarith

namespace AdaptiveCapacityManager

private theorem runCapacity_induction (Inv : AdaptiveCapacityManager → Prop)
    (hadopt : ∀ acm n m t, Inv acm → Inv (acm.adopt n m t))
    (hclock : ∀ acm vc, Inv acm → Inv { acm with vectorClock := vc }) :
    ∀ (calls : List CapacityCall) {acm : AdaptiveCapacityManager}, Inv acm → Inv (runCapacity calls acm) := by
  have hsync : ∀ (es : List (Bytes × NetworkMetrics)) {acm}, Inv acm → Inv (es.foldl syncEntry acm) := by
    intro es
    induction es with
    | nil => exact id
    | cons e es ih =>
      intro acm h
      refine ih ?_
      unfold syncEntry
      split_ifs
      exacts [hadopt _ _ _ _ h, h]
  intro calls
  induction calls with
  | nil => exact id
  | cons c calls ih =>
    intro acm h
    refine ih ?_
    cases c with
    | recordMetrics m now => exact hadopt _ _ _ _ (hclock _ _ h)
    | syncWithPeer pm vc => cases vc <;> exact hsync _ (by first | exact h | exact hclock _ _ h)

/-- Every capacity the manager holds, and every value of its policy, satisfies `P`. -/
structure CapacitiesIn (P : ℚ → Prop) (acm : AdaptiveCapacityManager) : Prop where
  policy : ∀ m, P (acm.policy m)
  capacities : ∀ n c, acm.nodeCapacities n = some c → P c

theorem CapacitiesIn.runCapacity {P : ℚ → Prop} (calls : List CapacityCall) {acm : AdaptiveCapacityManager}
    (h : acm.CapacitiesIn P) : (runCapacity calls acm).CapacitiesIn P := by
  refine runCapacity_induction (CapacitiesIn P) (fun acm n m t h => ⟨h.policy, fun n' c hc => ?_⟩)
    (fun acm vc h => ⟨h.policy, h.capacities⟩) calls h
  simp only [adopt, Function.update_apply] at hc
  split_ifs at hc
  · exact Option.some.inj hc ▸ h.policy m
  · exact h.capacities n' c hc

end AdaptiveCapacityManager

open AdaptiveCapacityManager in
/-- From `NewAdaptiveCapacityManager`, after any sequence of `RecordMetrics` and `SyncWithPeer`
calls, every capacity `GetGlobalView` reports lies in `[0, 1000]`, the default policy's
`maxCapacity`, and so does what `GetNodeCapacity` returns for any node, 100 for one never seen. -/
theorem capacities_bounded (nodeID : Bytes) (calls : List CapacityCall) (n : Bytes) :
    (∀ c, (runCapacity calls (newAdaptiveCapacityManager nodeID)).getGlobalView n = some c →
      0 ≤ c ∧ c ≤ 1000) ∧
    0 ≤ (runCapacity calls (newAdaptiveCapacityManager nodeID)).getNodeCapacity
        newDefaultAdaptivePolicy.baseCapacity n ∧
      (runCapacity calls (newAdaptiveCapacityManager nodeID)).getNodeCapacity
        newDefaultAdaptivePolicy.baseCapacity n ≤ 1000 := by
  have h : (newAdaptiveCapacityManager nodeID).CapacitiesIn fun c => 0 ≤ c ∧ c ≤ 1000 :=
    ⟨adjustCapacity_mem newDefaultAdaptivePolicy (by norm_num [newDefaultAdaptivePolicy]),
      fun _ _ hc => Option.noConfusion hc⟩
  have H := h.runCapacity calls
  refine ⟨H.capacities n, ?_⟩
  unfold getNodeCapacity
  cases hc : (runCapacity calls (newAdaptiveCapacityManager nodeID)).nodeCapacities n with
  | none => norm_num [newDefaultAdaptivePolicy]
  | some c => exact H.capacities n c hc

/-! ### Peer syncs in any order

At one node, the loop of `SyncWithPeer` is a last-writer-wins register over timestamps: the
capacity and instant of the newest metric win. Two metrics for one node commute unless they carry
one timestamp and different capacities, and the clock merges always commute. -/

/-- The loop body of `SyncWithPeer` at one node: its capacity and last update after a peer metric
for it. -/
def adoptStep (policy : NetworkMetrics → ℚ) (s : Option ℚ × Option Int) (metrics : NetworkMetrics) :
    Option ℚ × Option Int :=
  if s.2.all (· < metrics.timestamp) then (some (policy metrics), some metrics.timestamp) else s

private theorem adoptStep_right_comm (policy : NetworkMetrics → ℚ) (s : Option ℚ × Option Int)
    (x y : NetworkMetrics) (htie : x.timestamp = y.timestamp → policy x = policy y) :
    adoptStep policy (adoptStep policy s x) y = adoptStep policy (adoptStep policy s y) x := by
  -- In every ordering of the last update and the two timestamps both sides keep the newer one.
  obtain ⟨c, _ | l⟩ := s <;> unfold adoptStep <;> split_ifs <;>
    simp only [Option.all_none, Option.all_some, decide_eq_true_eq, Prod.mk.injEq,
      Option.some.injEq, not_true_eq_false] at * <;>
    first | omega | exact ⟨htie (by omega), by omega⟩

namespace AdaptiveCapacityManager

/-- The capacity and last update of node `n`. -/
def nodeState (acm : AdaptiveCapacityManager) (n : Bytes) : Option ℚ × Option Int :=
  (acm.nodeCapacities n, acm.nodeLastUpdate n)

private theorem getGlobalView_eq (acm : AdaptiveCapacityManager) (n : Bytes) :
    acm.getGlobalView n = (acm.nodeState n).1 := rfl

private theorem nodeState_syncEntry (acm : AdaptiveCapacityManager) (e : Bytes × NetworkMetrics) (n : Bytes) :
    (acm.syncEntry e).nodeState n =
      if e.1 = n then adoptStep acm.policy (acm.nodeState n) e.2 else acm.nodeState n := by
  by_cases hn : e.1 = n
  · subst hn
    rw [if_pos rfl]
    unfold syncEntry adoptStep nodeState
    split_ifs <;> simp [adopt]
  · unfold syncEntry
    split_ifs <;> simp [nodeState, adopt, Function.update_noteq (Ne.symm hn), hn]

private theorem nodeState_foldl_syncEntry (n : Bytes) (es : List (Bytes × NetworkMetrics)) :
    ∀ acm : AdaptiveCapacityManager, (es.foldl syncEntry acm).nodeState n =
      ((es.filter fun e => e.1 = n).map Prod.snd).foldl (adoptStep acm.policy) (acm.nodeState n) := by
  induction es with
  | nil => intro acm; rfl
  | cons e es ih =>
    intro acm
    rw [List.foldl_cons, ih, (syncEntry_fields acm e).2, nodeState_syncEntry]
    by_cases h : e.1 = n <;> simp [h]

private theorem nodeState_syncWithPeer (acm : AdaptiveCapacityManager) (pm : PeerMetrics) (vc : Option VectorClock)
    (n : Bytes) : (acm.syncWithPeer pm vc).nodeState n =
      ((pm.entries.filter fun e => e.1 = n).map Prod.snd).foldl (adoptStep acm.policy) (acm.nodeState n) := by
  cases vc <;> exact nodeState_foldl_syncEntry n _ _

end AdaptiveCapacityManager

open AdaptiveCapacityManager in
private theorem nodeState_runCapacity_sync (n : Bytes) (calls : List (PeerMetrics × Option VectorClock)) :
    ∀ acm : AdaptiveCapacityManager,
      (runCapacity (calls.map fun c => .syncWithPeer c.1 c.2) acm).nodeState n =
        (((calls.flatMap fun c => c.1.entries).filter fun e => e.1 = n).map Prod.snd).foldl
          (adoptStep acm.policy) (acm.nodeState n) := by
  induction calls with
  | nil => intro acm; rfl
  | cons c calls ih =>
    intro acm
    show (runCapacity _ (acm.syncWithPeer c.1 c.2)).nodeState n = _
    rw [ih, policy_syncWithPeer, nodeState_syncWithPeer, List.flatMap_cons, List.filter_append,
      List.map_append, List.foldl_append]

open AdaptiveCapacityManager in
private theorem vectorClock_runCapacity_sync (calls : List (PeerMetrics × Option VectorClock)) :
    ∀ acm : AdaptiveCapacityManager,
      (runCapacity (calls.map fun c => .syncWithPeer c.1 c.2) acm).vectorClock =
        (calls.map Prod.snd).foldl (fun vc o => o.elim vc vc.merge) acm.vectorClock := by
  induction calls with
  | nil => intro acm; rfl
  | cons c calls ih =>
    intro acm
    show (runCapacity _ (acm.syncWithPeer c.1 c.2)).vectorClock = _
    rw [ih, vectorClock_syncWithPeer]
    rfl

open AdaptiveCapacityManager in
/-- Peer syncs delivered in any two orders leave one vector clock, whatever their metrics. -/
theorem getVectorClock_perm_sync (acm : AdaptiveCapacityManager)
    {calls₁ calls₂ : List (PeerMetrics × Option VectorClock)} (hp : calls₁.Perm calls₂) (n : Bytes) :
    (runCapacity (calls₁.map fun c => .syncWithPeer c.1 c.2) acm).getVectorClock.get n =
      (runCapacity (calls₂.map fun c => .syncWithPeer c.1 c.2) acm).getVectorClock.get n := by
  simp only [getVectorClock, vectorClock_runCapacity_sync]
  rw [(hp.map _).foldl_eq' fun o₁ _ o₂ _ vc => by
    cases o₁ <;> cases o₂ <;> simp only [Option.elim_none, Option.elim_some, VectorClock.merge_right_comm]]

open AdaptiveCapacityManager in
/-- Peer syncs delivered in any two orders leave one clock, and one view provided two peer
metrics for one node with one timestamp get one capacity from the policy. -/
theorem syncWithPeer_order_independent (acm : AdaptiveCapacityManager)
    (calls₁ calls₂ : List (PeerMetrics × Option VectorClock)) (hp : calls₁.Perm calls₂) :
    (∀ n, (runCapacity (calls₁.map fun c => .syncWithPeer c.1 c.2) acm).getVectorClock.get n =
        (runCapacity (calls₂.map fun c => .syncWithPeer c.1 c.2) acm).getVectorClock.get n) ∧
      ((∀ e₁ ∈ calls₁.flatMap (fun c => c.1.entries), ∀ e₂ ∈ calls₁.flatMap (fun c => c.1.entries),
          e₁.1 = e₂.1 → e₁.2.timestamp = e₂.2.timestamp → acm.policy e₁.2 = acm.policy e₂.2) →
        (runCapacity (calls₁.map fun c => .syncWithPeer c.1 c.2) acm).getGlobalView =
          (runCapacity (calls₂.map fun c => .syncWithPeer c.1 c.2) acm).getGlobalView) := by
  refine ⟨getVectorClock_perm_sync acm hp, fun hties => funext fun n => ?_⟩
  rw [getGlobalView_eq, getGlobalView_eq, nodeState_runCapacity_sync, nodeState_runCapacity_sync]
  refine congrArg Prod.fst (((hp.flatMap_right _).filter _).map _ |>.foldl_eq' ?_ _)
  intro x hx y hy s
  obtain ⟨e₁, he₁, rfl⟩ := List.mem_map.1 hx
  obtain ⟨e₂, he₂, rfl⟩ := List.mem_map.1 hy
  rw [List.mem_filter, decide_eq_true_eq] at he₁ he₂
  exact adoptStep_right_comm _ _ _ _ (hties e₁ he₁.1 e₂ he₂.1 (he₁.2.trans he₂.2.symm))

/-- Two peer syncs with one metric each for node `""`: at instant `t₁` with no errors, then at
instant `t₂` with error rate `1/2`. -/
def twoSyncs (t₁ t₂ : Int) : List (PeerMetrics × Option VectorClock) :=
  [(singlePeer (sampleMetrics [] 0 t₁), none), (singlePeer (sampleMetrics [] (1 / 2) t₂), none)]

theorem syncWithPeer_order_independent_newer :
    (twoSyncs 1 2).Perm (twoSyncs 1 2).reverse ∧
      (∀ e₁ ∈ (twoSyncs 1 2).flatMap (fun c => c.1.entries), ∀ e₂ ∈ (twoSyncs 1 2).flatMap (fun c => c.1.entries),
        e₁.1 = e₂.1 → e₁.2.timestamp = e₂.2.timestamp →
          (newAdaptiveCapacityManager []).policy e₁.2 = (newAdaptiveCapacityManager []).policy e₂.2) ∧
      (∀ n, (runCapacity ((twoSyncs 1 2).map fun c => .syncWithPeer c.1 c.2)
          (newAdaptiveCapacityManager [])).getVectorClock.get n =
        (runCapacity ((twoSyncs 1 2).reverse.map fun c => .syncWithPeer c.1 c.2)
          (newAdaptiveCapacityManager [])).getVectorClock.get n) ∧
      ((∀ e₁ ∈ (twoSyncs 1 2).flatMap (fun c => c.1.entries), ∀ e₂ ∈ (twoSyncs 1 2).flatMap (fun c => c.1.entries),
          e₁.1 = e₂.1 → e₁.2.timestamp = e₂.2.timestamp →
            (newAdaptiveCapacityManager []).policy e₁.2 = (newAdaptiveCapacityManager []).policy e₂.2) →
        (runCapacity ((twoSyncs 1 2).map fun c => .syncWithPeer c.1 c.2) (newAdaptiveCapacityManager [])).getGlobalView =
          (runCapacity ((twoSyncs 1 2).reverse.map fun c => .syncWithPeer c.1 c.2)
            (newAdaptiveCapacityManager [])).getGlobalView) :=
  have hties : ∀ e₁ ∈ (twoSyncs 1 2).flatMap (fun c => c.1.entries),
      ∀ e₂ ∈ (twoSyncs 1 2).flatMap (fun c => c.1.entries), e₁.1 = e₂.1 → e₁.2.timestamp = e₂.2.timestamp →
        (newAdaptiveCapacityManager []).policy e₁.2 = (newAdaptiveCapacityManager []).policy e₂.2 := by
    intro e₁ h₁ e₂ h₂ _ ht
    simp only [twoSyncs, singlePeer, List.flatMap_cons, List.flatMap_nil, List.cons_append,
      List.nil_append, List.append_nil, List.mem_cons, List.mem_singleton, List.not_mem_nil, or_false] at h₁ h₂
    rcases h₁ with rfl | rfl <;> rcases h₂ with rfl | rfl <;> first | rfl | simp [sampleMetrics] at ht
  ⟨(List.reverse_perm _).symm, hties, syncWithPeer_order_independent _ _ _ (List.reverse_perm _).symm⟩

/-- Two peer metrics for one node with one timestamp: the one delivered first is kept, and the
two orders give that node two capacities, `100` and `0`. -/
theorem syncWithPeer_tie_keeps_first :
    ¬ ∀ (acm : AdaptiveCapacityManager) (calls₁ calls₂ : List (PeerMetrics × Option VectorClock)),
      calls₁.Perm calls₂ →
        (runCapacity (calls₁.map fun c => .syncWithPeer c.1 c.2) acm).getGlobalView =
          (runCapacity (calls₂.map fun c => .syncWithPeer c.1 c.2) acm).getGlobalView := by
  intro h
  have := congrFun (h (newAdaptiveCapacityManager [])
    (twoSyncs 5 5) (twoSyncs 5 5).reverse (List.reverse_perm _).symm) []
  rw [AdaptiveCapacityManager.getGlobalView_eq, AdaptiveCapacityManager.getGlobalView_eq,
    nodeState_runCapacity_sync, nodeState_runCapacity_sync] at this
  norm_num [twoSyncs, singlePeer, sampleMetrics, adoptStep, AdaptiveCapacityManager.nodeState,
    newAdaptiveCapacityManager, newDefaultAdaptivePolicy, DefaultAdaptivePolicy.adjustCapacity,
    Int.zero_tdiv] at this

end ShardedLedger.Capacity
