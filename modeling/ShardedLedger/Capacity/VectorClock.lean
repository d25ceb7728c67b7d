import Mathlib.Data.UInt
import ShardedLedger.Core.Block

/-! `VectorClock` of adaptive_cap.go: a `uint64` counter per node ID, which `Get` reads as `0`
where the map has no entry. `Update` wraps at `2^64`, as Go's `++` does; `Merge` raises each
counter to the other clock's. -/

namespace ShardedLedger.Capacity
open ShardedLedger.Core

/-- `VectorClock`, as `Get` reads it. -/
structure VectorClock where
  clock : Bytes → UInt64

def newVectorClock : VectorClock := ⟨fun _ => 0⟩

namespace VectorClock

def get (vc : VectorClock) (nodeID : Bytes) : UInt64 := vc.clock nodeID

/-- `Update(nodeID)`: `clock[nodeID]++`. -/
def update (vc : VectorClock) (nodeID : Bytes) : VectorClock :=
  ⟨Function.update vc.clock nodeID (vc.clock nodeID + 1)⟩

/-- `Merge(other)`: each counter of `other` above this clock's replaces it. A node `other` has no
entry for reads as `0` and replaces nothing. -/
def merge (vc other : VectorClock) : VectorClock :=
  ⟨fun nodeID => if vc.clock nodeID < other.clock nodeID then other.clock nodeID else vc.clock nodeID⟩

@[ext] theorem ext {a b : VectorClock} (h : ∀ n, a.get n = b.get n) : a = b := by
  cases a; cases b; exact congrArg _ (funext h)

private theorem get_update (vc : VectorClock) (nodeID n : Bytes) :
    (vc.update nodeID).get n = if n = nodeID then vc.get nodeID + 1 else vc.get n := by
  by_cases h : n = nodeID
  · subst h; simp [update, get]
  · simp [update, get, h]

private theorem get_merge (vc other : VectorClock) (n : Bytes) :
    (vc.merge other).get n = if vc.get n < other.get n then other.get n else vc.get n := rfl

end VectorClock

private theorem uint64_lt_iff (a b : UInt64) : a < b ↔ a.toNat < b.toNat := Iff.rfl

private theorem uint64_le_iff (a b : UInt64) : a ≤ b ↔ a.toNat ≤ b.toNat := Iff.rfl

private theorem uint64_toNat_add_one (a : UInt64) (h : a.toNat < 2 ^ 64 - 1) : (a + 1).toNat = a.toNat + 1 := by
  simp only [UInt64.toNat, UInt64.add_def, show (1 : UInt64).toBitVec = 1 from rfl] at h ⊢
  bv_omega

namespace VectorClock

private theorem le_get_merge (vc other : VectorClock) (n : Bytes) : vc.get n ≤ (vc.merge other).get n := by
  rw [get_merge, uint64_le_iff]
  split_ifs with h
  · exact Nat.le_of_lt ((uint64_lt_iff _ _).1 h)
  · exact Nat.le_refl _

theorem le_get_elim_merge (vc : VectorClock) (o : Option VectorClock) (n : Bytes) :
    vc.get n ≤ (o.elim vc vc.merge).get n := by
  cases o
  · exact UInt64.le_refl _
  · exact le_get_merge vc _ n

theorem get_lt_update (vc : VectorClock) (nodeID : Bytes) (h : (vc.get nodeID).toNat < 2 ^ 64 - 1) :
    vc.get nodeID < (vc.update nodeID).get nodeID := by
  rw [get_update, if_pos rfl, uint64_lt_iff, uint64_toNat_add_one _ h]
  exact Nat.lt_succ_self _

theorem get_le_update (vc : VectorClock) (nodeID n : Bytes) (hn : n ≠ nodeID) :
    vc.get n ≤ (vc.update nodeID).get n := by
  rw [get_update, if_neg hn]
  exact UInt64.le_refl _

private theorem toNat_get_merge (vc other : VectorClock) (n : Bytes) :
    ((vc.merge other).get n).toNat = max (vc.get n).toNat (other.get n).toNat := by
  rw [get_merge]
  split_ifs with h <;> rw [uint64_lt_iff] at h <;> omega

private theorem get_merge_eq_max (vc other : VectorClock) (n : Bytes) :
    (vc.merge other).get n = max (vc.get n) (other.get n) := by
  apply UInt64.toNat.inj
  rw [toNat_get_merge, show max (vc.get n) (other.get n) = if vc.get n ≤ other.get n then other.get n
    else vc.get n from rfl]
  split_ifs with h <;> rw [uint64_le_iff] at h <;> omega

theorem merge_right_comm (vc a b : VectorClock) : (vc.merge a).merge b = (vc.merge b).merge a := by
  ext1 n
  apply UInt64.toNat.inj
  simp only [toNat_get_merge]
  omega

/-- `Merge` takes the larger counter at every node, and writes only the clock it is called on.
Read through `Get` it is therefore idempotent, commutative and associative, and lowers no
counter. -/
theorem merge_semilattice (a b c : VectorClock) :
    (∀ n, (a.merge b).get n = max (a.get n) (b.get n)) ∧ (a.merge b).merge b = a.merge b ∧
      a.merge b = b.merge a ∧ (a.merge b).merge c = a.merge (b.merge c) ∧
      ∀ n, a.get n ≤ (a.merge b).get n := by
  refine ⟨get_merge_eq_max a b, ?_, ?_, ?_, le_get_merge a b⟩ <;>
    ext1 n <;> apply UInt64.toNat.inj <;> simp only [toNat_get_merge] <;> omega

end VectorClock

end ShardedLedger.Capacity
