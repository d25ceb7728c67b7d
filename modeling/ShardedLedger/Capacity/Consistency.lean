import Mathlib.Algebra.Order.Field.Rat
import Mathlib.Tactic.Linarith

/-! `ConsistencyOrchestrator` of consistency.go: the last latency and error rate set the
consistency level, `Eventual` past 250 ms or an error rate of 0.08, `Causal` past 100 ms or 0.03,
`Strong` otherwise. A latency is a `time.Duration` in nanoseconds; an error rate is a `float64`,
an exact rational, and the thresholds are the `float64` values of the literals. -/

namespace ShardedLedger.Capacity

inductive ConsistencyLevel
  | strong
  | causal
  | eventual
  deriving DecidableEq, Repr

/-- How weak a level is. -/
def ConsistencyLevel.rank : ConsistencyLevel → Nat
  | .strong => 0
  | .causal => 1
  | .eventual => 2

structure ConsistencyOrchestrator where
  currentLevel : ConsistencyLevel
  lastLatency : Int
  errorRate : ℚ

def newOrchestrator : ConsistencyOrchestrator := ⟨.strong, 0, 0⟩

/-- The `float64` literal `0.08`. -/
def eventualErrorRate : ℚ := 5764607523034235 / 2 ^ 56

/-- The `float64` literal `0.03`. -/
def causalErrorRate : ℚ := 1080863910568919 / 2 ^ 55

def ConsistencyOrchestrator.evaluateNetwork (co : ConsistencyOrchestrator) (latency : Int) (errorRate : ℚ) :
    ConsistencyOrchestrator :=
  { co with
    lastLatency := latency
    errorRate := errorRate
    currentLevel :=
      if 250 * 1000000 < latency ∨ eventualErrorRate < errorRate then .eventual
      else if 100 * 1000000 < latency ∨ causalErrorRate < errorRate then .causal
      else .strong }

/-- The level depends on the last call only, and worse conditions never give a stronger one: it
weakens as the latency or the error rate grows, whatever state either orchestrator was in. -/
theorem evaluateNetwork_monotone (co co' : ConsistencyOrchestrator) {l l' : Int} {e e' : ℚ} (hl : l ≤ l')
    (he : e ≤ e') :
    (co.evaluateNetwork l e).currentLevel.rank ≤ (co'.evaluateNetwork l' e').currentLevel.rank := by
  have hev : 250 * 1000000 < l ∨ eventualErrorRate < e → 250 * 1000000 < l' ∨ eventualErrorRate < e' :=
    Or.imp (fun h => by omega) fun h => by linarith
  have hca : 100 * 1000000 < l ∨ causalErrorRate < e → 100 * 1000000 < l' ∨ causalErrorRate < e' :=
    Or.imp (fun h => by omega) fun h => by linarith
  unfold ConsistencyOrchestrator.evaluateNetwork
  split_ifs <;> simp_all [ConsistencyLevel.rank]

theorem evaluateNetwork_monotone_sample :
    (80000000 : Int) ≤ 300000000 ∧ (1 / 100 : ℚ) ≤ 9 / 100 ∧
      (newOrchestrator.evaluateNetwork 80000000 (1 / 100)).currentLevel.rank ≤
        (newOrchestrator.evaluateNetwork 300000000 (9 / 100)).currentLevel.rank :=
  ⟨by norm_num, by norm_num, evaluateNetwork_monotone _ _ (by norm_num) (by norm_num)⟩

end ShardedLedger.Capacity
