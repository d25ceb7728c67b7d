import ShardedLedger.Core.Block
import Mathlib.Algebra.BigOperators.Group.List
import Mathlib.Algebra.Order.Ring.Nat

/-! The RSA accumulator of block.go: state, element list and per-element witnesses. -/

namespace ShardedLedger.Core

/-- Square-and-multiply over the bits of `y`; `fuel ≥ y` suffices. -/
def expModAux (m : Nat) : Nat → Nat → Nat → Nat
  | 0, _, _ => 1 % m
  | fuel + 1, x, y =>
    if y = 0 then 1 % m else (if y % 2 = 1 then x else 1) * expModAux m fuel (x * x % m) (y / 2) % m

/-- `big.Int.Exp(x, y, m)` for the non-negative operands and positive moduli used here. -/
def bigExp (x y m : Nat) : Nat := expModAux m y x y

private theorem expModAux_eq (m : Nat) : ∀ fuel x y, y ≤ fuel → expModAux m fuel x y = x ^ y % m
  | 0, x, y, h => by simp [expModAux, Nat.le_zero.mp h]
  | fuel + 1, x, y, h => by
    rw [expModAux]
    split_ifs with h0 h1
    · simp [h0]
    · rw [expModAux_eq m fuel _ _ (by omega), ← Nat.pow_mod, ← pow_two, ← pow_mul, Nat.mul_mod_mod,
        ← pow_succ', show 2 * (y / 2) + 1 = y by omega]
    · rw [expModAux_eq m fuel _ _ (by omega), ← Nat.pow_mod, ← pow_two, ← pow_mul, one_mul,
        Nat.mod_mod, show 2 * (y / 2) = y by omega]

@[simp] theorem bigExp_eq (x y m : Nat) : bigExp x y m = x ^ y % m :=
  expModAux_eq m y x y le_rfl

/-- `RSAAccumulator`; `proofs` is the `Proofs` map. -/
structure RSAAccumulator where
  n : Nat
  g : Nat
  state : Nat
  elements : List Bytes
  proofs : Bytes → Option Nat

/-- `NewRSAAccumulator`: `N = 251 · 239`, `G = 3`, state `G`. -/
def newRSAAccumulator : RSAAccumulator := ⟨251 * 239, 3, 3, [], fun _ => none⟩

/-- `big.Int.SetBytes`: big-endian. -/
def bytesToNat (bs : Bytes) : Nat := bs.foldl (fun acc b => 256 * acc + b.toNat) 0

section
variable (sha : Bytes → Bytes)

/-- `hashToPrime`: the digest as a number, made odd; no primality test. -/
def hashToPrime (data : Bytes) : Nat :=
  let h := bytesToNat (sha data)
  if h % 2 = 0 then h + 1 else h

/-- `AddElement`: the state is raised to the new prime; only the new element's witness is
computed, from the elements that differ from it. -/
def RSAAccumulator.addElement (acc : RSAAccumulator) (element : Bytes) : RSAAccumulator :=
  let elements := acc.elements ++ [element]
  let proof := elements.foldl
    (fun p e => if e ≠ element then bigExp p (hashToPrime sha e) acc.n else p) acc.g
  { acc with state := bigExp acc.state (hashToPrime sha element) acc.n, elements := elements,
             proofs := Function.update acc.proofs element (some proof) }

def RSAAccumulator.verifyMembership (acc : RSAAccumulator) (element : Bytes) (proof : Nat) : Bool :=
  bigExp proof (hashToPrime sha element) acc.n == acc.state

/-- Successive `AddElement` calls. -/
def RSAAccumulator.addElements (acc : RSAAccumulator) (es : List Bytes) : RSAAccumulator :=
  es.foldl (fun a e => a.addElement sha e) acc

@[simp] private theorem addElements_n (acc : RSAAccumulator) (es : List Bytes) :
    (acc.addElements sha es).n = acc.n := by
  induction es generalizing acc with
  | nil => rfl
  | cons e es ih => exact ih _

@[simp] private theorem addElements_g (acc : RSAAccumulator) (es : List Bytes) :
    (acc.addElements sha es).g = acc.g := by
  induction es generalizing acc with
  | nil => rfl
  | cons e es ih => exact ih _

@[simp] private theorem addElements_elements (acc : RSAAccumulator) (es : List Bytes) :
    (acc.addElements sha es).elements = acc.elements ++ es := by
  induction es generalizing acc with
  | nil => simp [RSAAccumulator.addElements]
  | cons e es ih =>
    rw [RSAAccumulator.addElements, List.foldl_cons, ← RSAAccumulator.addElements, ih]
    simp [RSAAccumulator.addElement]

private theorem addElements_snoc (acc : RSAAccumulator) (es : List Bytes) (e : Bytes) :
    acc.addElements sha (es ++ [e]) = (acc.addElements sha es).addElement sha e := by
  simp [RSAAccumulator.addElements]

private theorem addElements_state (acc : RSAAccumulator) (k : Nat) (hk : acc.state = acc.g ^ k % acc.n)
    (es : List Bytes) :
    (acc.addElements sha es).state = acc.g ^ (k * (es.map (hashToPrime sha)).prod) % acc.n := by
  induction es generalizing acc k with
  | nil => simpa [RSAAccumulator.addElements] using hk
  | cons e es ih =>
    rw [RSAAccumulator.addElements, List.foldl_cons, ← RSAAccumulator.addElements,
      ih _ (k * hashToPrime sha e) (by simp [RSAAccumulator.addElement, hk, ← Nat.pow_mod, pow_mul])]
    simp [RSAAccumulator.addElement, mul_assoc]

private theorem witness_fold (g n k a : Nat) (ha : a = g ^ k % n) (e : Bytes) (es : List Bytes)
    (he : e ∉ es) :
    es.foldl (fun p x => if ¬x = e then p ^ hashToPrime sha x % n else p) a =
      g ^ (k * (es.map (hashToPrime sha)).prod) % n := by
  induction es generalizing k a with
  | nil => simpa using ha
  | cons x es ih =>
    have hx : x ≠ e := fun h => he (h ▸ List.mem_cons_self x es)
    rw [List.foldl_cons, if_pos hx, ih (k * hashToPrime sha x) _ (by rw [ha, ← Nat.pow_mod, pow_mul])
      (fun h => he (List.mem_cons_of_mem x h))]
    simp [mul_assoc]

/-- The witness stored by the last `AddElement(e)` verifies, provided `e` was not added before. -/
theorem addElement_last_verifies (es : List Bytes) (e : Bytes) (he : e ∉ es) :
    ∃ w, (newRSAAccumulator.addElements sha (es ++ [e])).proofs e = some w ∧
      (newRSAAccumulator.addElements sha (es ++ [e])).verifyMembership sha e w = true := by
  have hg : newRSAAccumulator.g = newRSAAccumulator.g ^ 1 % newRSAAccumulator.n := rfl
  refine ⟨3 ^ (es.map (hashToPrime sha)).prod % (251 * 239), ?_, ?_⟩
  · rw [addElements_snoc]
    simp only [RSAAccumulator.addElement, Function.update_same, addElements_elements,
      addElements_g, addElements_n, List.foldl_append, List.foldl_cons, List.foldl_nil, ne_eq,
      not_true_eq_false, if_false, List.nil_append, show newRSAAccumulator.elements = [] from rfl,
      bigExp_eq]
    rw [witness_fold sha _ _ 1 _ hg e es he]
    simp [newRSAAccumulator]
  · rw [addElements_snoc]
    simp only [RSAAccumulator.verifyMembership, RSAAccumulator.addElement, addElements_n,
      addElements_state sha newRSAAccumulator 1 rfl es, bigExp_eq]
    simp [newRSAAccumulator, ← Nat.pow_mod, ← pow_mul]

/-- The state after a run of `AddElement` is `G` raised to the product of the elements' primes,
so any reordering of the elements, repetitions kept, leaves the same state. -/
theorem addElements_state_perm {es₁ es₂ : List Bytes} (hp : es₁.Perm es₂) :
    (newRSAAccumulator.addElements sha es₁).state = (newRSAAccumulator.addElements sha es₂).state ∧
      (newRSAAccumulator.addElements sha es₁).state =
        newRSAAccumulator.g ^ (es₁.map (hashToPrime sha)).prod % newRSAAccumulator.n := by
  have hstate (es : List Bytes) := addElements_state sha newRSAAccumulator 1 rfl es
  rw [hstate, hstate, one_mul, one_mul, (hp.map _).prod_eq]
  exact ⟨rfl, rfl⟩

end

theorem addElement_last_verifies_after_other :
    bytesOf "a" ∉ [bytesOf "b"] ∧
      ∃ w, (newRSAAccumulator.addElements (fun x => x) ([bytesOf "b"] ++ [bytesOf "a"])).proofs (bytesOf "a") =
          some w ∧
        (newRSAAccumulator.addElements (fun x => x) ([bytesOf "b"] ++ [bytesOf "a"])).verifyMembership
          (fun x => x) (bytesOf "a") w = true :=
  ⟨by decide, addElement_last_verifies _ [bytesOf "b"] (bytesOf "a") (by decide)⟩

theorem addElements_state_perm_swap :
    ([bytesOf "a", bytesOf "b", bytesOf "a"]).Perm [bytesOf "b", bytesOf "a", bytesOf "a"] ∧
      ((newRSAAccumulator.addElements (fun x => x) [bytesOf "a", bytesOf "b", bytesOf "a"]).state =
          (newRSAAccumulator.addElements (fun x => x) [bytesOf "b", bytesOf "a", bytesOf "a"]).state ∧
        (newRSAAccumulator.addElements (fun x => x) [bytesOf "a", bytesOf "b", bytesOf "a"]).state =
          newRSAAccumulator.g ^ ([bytesOf "a", bytesOf "b", bytesOf "a"].map (hashToPrime fun x => x)).prod %
            newRSAAccumulator.n) :=
  have hp : ([bytesOf "a", bytesOf "b", bytesOf "a"]).Perm [bytesOf "b", bytesOf "a", bytesOf "a"] :=
    List.Perm.swap _ _ _
  ⟨hp, addElements_state_perm _ hp⟩

set_option maxRecDepth 100000 in
/-- With SHA-256's real digests of "a" and "b", `AddElement("a")` then `AddElement("b")` leaves the
witness `G` that the first call stored for "a", and it no longer verifies: `3 ^ p % N = 19662`
while the state is `48898`. -/
theorem addElement_stale_witness :
    ¬ ∃ sha : Bytes → Bytes, sha (bytesOf "a") = [202, 151, 129, 18, 202, 27, 189, 202, 250, 194,
        49, 179, 154, 35, 220, 77, 167, 134, 239, 248, 20, 124, 78, 114, 185, 128, 119, 133, 175,
        238, 72, 187] ∧ sha (bytesOf "b") = [62, 35, 232, 22, 0, 57, 89, 74, 51, 137, 79, 101, 100,
        225, 177, 52, 139, 189, 122, 0, 136, 212, 44, 74, 203, 115, 238, 174, 213, 156, 0, 157] ∧
      ∀ es : List Bytes, ∀ e ∈ (newRSAAccumulator.addElements sha es).elements,
        ∃ w, (newRSAAccumulator.addElements sha es).proofs e = some w ∧
          (newRSAAccumulator.addElements sha es).verifyMembership sha e w = true := by
  rintro ⟨sha, hA, hB, h⟩
  obtain ⟨w, hw, hv⟩ := h [bytesOf "a", bytesOf "b"] (bytesOf "a") (by simp [newRSAAccumulator])
  have hpa : hashToPrime sha (bytesOf "a") =
      91634880152443617534842621287039938041581081254914058002978601050179556493499 := by
    rw [hashToPrime, hA]
    decide
  have hpb : hashToPrime sha (bytesOf "b") =
      28106838057724633541991236405213533498809717615002287594759165789551252471965 := by
    rw [hashToPrime, hB]
    decide
  have hab : bytesOf "a" ≠ bytesOf "b" := by decide
  simp [RSAAccumulator.addElements, RSAAccumulator.addElement, newRSAAccumulator, hab, -bigExp_eq] at hw
  subst hw
  simp only [RSAAccumulator.addElements, RSAAccumulator.addElement, RSAAccumulator.verifyMembership,
    newRSAAccumulator, List.foldl_cons, List.foldl_nil, hpa, hpb] at hv
  revert hv
  decide

end ShardedLedger.Core
