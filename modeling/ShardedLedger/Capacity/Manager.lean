import Mathlib.Data.Rat.Defs
import Mathlib.Data.List.Nodup
import ShardedLedger.Capacity.VectorClock

/-! `AdaptiveCapacityManager` of adaptive_cap.go: a vector clock, and per node ID a capacity, the
instant of its last update and a bounded history of metrics. `RecordMetrics` takes metrics for a
node; `SyncWithPeer` merges a peer's clock and adopts each peer metric strictly newer than the
node's last update. float64 values are exact rationals, `time.Time` an instant in nanoseconds. -/

namespace ShardedLedger.Capacity
open ShardedLedger.Core

/-- `NetworkMetrics`; the latency is a `time.Duration` in nanoseconds. -/
structure NetworkMetrics where
  latency : Int
  throughput : ℚ
  errorRate : ℚ
  nodeID : Bytes
  timestamp : Int
  vectorClock : Option VectorClock

structure DefaultAdaptivePolicy where
  baseCapacity : ℚ
  maxCapacity : ℚ
  latencyFactor : ℚ
  errorFactor : ℚ

def newDefaultAdaptivePolicy : DefaultAdaptivePolicy := ⟨100, 1000, 1 / 2, 2⟩

/-- `AdjustCapacity`: the base capacity less the latency and error adjustments, clamped to
`[0, maxCapacity]`; `Milliseconds()` truncates toward zero. -/
def DefaultAdaptivePolicy.adjustCapacity (p : DefaultAdaptivePolicy) (metrics : NetworkMetrics) : ℚ :=
  let latencyMs : ℚ := (metrics.latency.tdiv 1000000 : Int)
  let capacity := p.baseCapacity - p.latencyFactor * latencyMs / 100
  let capacity := capacity - p.errorFactor * metrics.errorRate * p.baseCapacity
  let capacity := if capacity < 0 then 0 else capacity
  if capacity > p.maxCapacity then p.maxCapacity else capacity

/-- `AdaptiveCapacityManager`. The policy is the `AdjustCapacity` of whatever policy is set; a
node with no history entry reads as the empty history, as `append` treats a nil slice. -/
structure AdaptiveCapacityManager where
  nodeCapacities : Bytes → Option ℚ
  nodeLastUpdate : Bytes → Option Int
  metricHistory : Bytes → List NetworkMetrics
  historyLimit : Int
  policy : NetworkMetrics → ℚ
  vectorClock : VectorClock

/-- `NewAdaptiveCapacityManager(nodeID)`; the node ID is not stored. -/
def newAdaptiveCapacityManager (_nodeID : Bytes) : AdaptiveCapacityManager :=
  ⟨fun _ => none, fun _ => none, fun _ => [], 100, newDefaultAdaptivePolicy.adjustCapacity,
    newVectorClock⟩

/-- A node's history with `metrics` appended, its oldest entry dropped past `historyLimit`. -/
def appendHistory (historyLimit : Int) (history : List NetworkMetrics) (metrics : NetworkMetrics) :
    List NetworkMetrics :=
  if historyLimit < (history ++ [metrics]).length then (history ++ [metrics]).tail else history ++ [metrics]

/-- A peer's `map[string]NetworkMetrics`: each node ID once, in the order the range visits them. -/
structure PeerMetrics where
  entries : List (Bytes × NetworkMetrics)
  nodup : (entries.map Prod.fst).Nodup

namespace AdaptiveCapacityManager

/-- The history, capacity and last update of `nodeID` written for `metrics` at `instant`. -/
def adopt (acm : AdaptiveCapacityManager) (nodeID : Bytes) (metrics : NetworkMetrics) (instant : Int) :
    AdaptiveCapacityManager :=
  { acm with
    metricHistory := Function.update acm.metricHistory nodeID
      (appendHistory acm.historyLimit (acm.metricHistory nodeID) metrics)
    nodeCapacities := Function.update acm.nodeCapacities nodeID (some (acm.policy metrics))
    nodeLastUpdate := Function.update acm.nodeLastUpdate nodeID (some instant) }

/-- `RecordMetrics(metrics)`, with `now` the reading of `time.Now()`. -/
def recordMetrics (acm : AdaptiveCapacityManager) (metrics : NetworkMetrics) (now : Int) :
    AdaptiveCapacityManager :=
  let vc := acm.vectorClock.update metrics.nodeID
  let vc := match metrics.vectorClock with
    | some other => vc.merge other
    | none => vc
  { acm with vectorClock := vc }.adopt metrics.nodeID metrics now

/-- One iteration of the loop of `SyncWithPeer`: the metrics are adopted when the node has no
last update or they are strictly newer. -/
def syncEntry (acm : AdaptiveCapacityManager) (entry : Bytes × NetworkMetrics) : AdaptiveCapacityManager :=
  if (acm.nodeLastUpdate entry.1).all (· < entry.2.timestamp) then
    acm.adopt entry.1 entry.2 entry.2.timestamp
  else acm

/-- `SyncWithPeer(peerMetrics, peerVC)`; `none` is a nil clock. -/
def syncWithPeer (acm : AdaptiveCapacityManager) (peerMetrics : PeerMetrics)
    (peerVC : Option VectorClock) : AdaptiveCapacityManager :=
  let acm := match peerVC with
    | some vc => { acm with vectorClock := acm.vectorClock.merge vc }
    | none => acm
  peerMetrics.entries.foldl syncEntry acm

/-- `GetGlobalView`: a copy of the capacities. -/
def getGlobalView (acm : AdaptiveCapacityManager) : Bytes → Option ℚ := acm.nodeCapacities

/-- `GetNodeCapacity(nodeID)`: the node's capacity, else the fallback the policy's type selects,
`baseCapacity` for a `DefaultAdaptivePolicy` and 100 for any other policy. -/
def getNodeCapacity (acm : AdaptiveCapacityManager) (fallback : ℚ) (nodeID : Bytes) : ℚ :=
  (acm.nodeCapacities nodeID).getD fallback

/-- `GetVectorClock`: a clone of the clock. -/
def getVectorClock (acm : AdaptiveCapacityManager) : VectorClock := acm.vectorClock

end AdaptiveCapacityManager

/-- A call on the manager. -/
inductive CapacityCall
  | recordMetrics (metrics : NetworkMetrics) (now : Int)
  | syncWithPeer (peerMetrics : PeerMetrics) (peerVC : Option VectorClock)

def CapacityCall.apply : CapacityCall → AdaptiveCapacityManager → AdaptiveCapacityManager
  | .recordMetrics metrics now, acm => acm.recordMetrics metrics now
  | .syncWithPeer peerMetrics peerVC, acm => acm.syncWithPeer peerMetrics peerVC

/-- The calls one after another. -/
def runCapacity (calls : List CapacityCall) (acm : AdaptiveCapacityManager) : AdaptiveCapacityManager :=
  calls.foldl (fun acm c => c.apply acm) acm

end ShardedLedger.Capacity
