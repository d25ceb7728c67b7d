import Mathlib.Data.Int.GCD
import Mathlib.Logic.Function.Basic

/-! `MPCProtocol` of the MPC code: Shamir sharing of a secret over `ℤ/Prime`. `ShareSecret` draws a
polynomial of degree `Threshold - 1` with the secret as constant term and gives participant `ID`
its value at `ID + 1`; `ReconstructSecret` takes the first `Threshold` shares a map iteration
visits and interpolates at `0` by Lagrange's formula. `big.Int` values are integers and `Mod` is
`Int.emod`; Go's `int` wraps at 64 bits, and the panics of the code are faults. -/

namespace ShardedLedger.MPC

/-- A Go runtime panic. -/
inductive Fault
  /-- `make` with a negative length. -/
  | makeSliceLen
  /-- `make` with a negative capacity. -/
  | makeSliceCap
  | indexOutOfRange
  /-- `Mul` on the nil that `ModInverse` returns without an inverse. -/
  | nilDereference
  deriving DecidableEq, Repr

/-- `MPCProtocol`. Of each participant only its `ID` is read. The prime is positive, as
`rand.Prime` draws it; `Mod` by zero is not reached. -/
structure MPCProtocol where
  participants : List Int
  threshold : Int
  secretShares : Int → Option Int
  prime : Nat
  prime_pos : 0 < prime

/-- `NewMPCProtocol(participants, threshold)`, with the prime `rand.Prime` drew. -/
def newMPCProtocol (participants : List Int) (threshold : Int) (prime : Nat) (h : 0 < prime) : MPCProtocol :=
  ⟨participants, threshold, fun _ => none, prime, h⟩

/-- A value of Go's `int`: two's complement on 64 bits. -/
def goInt (v : Int) : Int := v.bmod (2 ^ 64)

/-- `generatePolynomial(secret, degree)`: the secret, then `degree` coefficients drawn by
`rand.Int(rand.Reader, Prime)`; `draws i` is the `i`-th value drawn. -/
def generatePolynomial (draws : Nat → Nat) (secret degree : Int) : Except Fault (List Int) :=
  if degree + 1 < 0 then throw .makeSliceLen
  else if degree + 1 = 0 then throw .indexOutOfRange
  else pure (secret :: (List.range degree.toNat).map fun i => (draws i : Int))

/-- `evaluatePolynomial(coefficients, x)`: `∑ aᵢ xⁱ`, each power, product and partial sum reduced
modulo the prime. -/
def evaluatePolynomial (prime : Nat) (coefficients : List Int) (x : Int) : Int :=
  coefficients.enum.foldl (fun result ic => (result + x ^ ic.1 % prime * ic.2 % prime) % prime) 0

/-- A `map[int]*big.Int` of shares, as its entries in the order a `range` visits them: each ID
once. -/
structure ShareMap where
  entries : List (Int × Int)
  nodup : (entries.map Prod.fst).Nodup

/-- `ModInverse(g, n)`: the inverse of `g` modulo `n` in `[0, n)`, or nil without one. -/
def modInverse (g : Int) (n : Nat) : Option Int :=
  if Int.gcd g n = 1 then some (Int.gcdA g n % n) else none

/-- The inner loop of `ReconstructSecret` for the point at index `i`: the numerator `∏ (0 - xⱼ)`
and the denominator `∏ (xᵢ - xⱼ)` over the points at the other indices, reduced modulo the prime. -/
def lagrangeFactors (prime : Nat) (points : List (Int × Int)) (i : Nat) (xi : Int) : Int × Int :=
  points.enum.foldl (fun nd jp => if i = jp.1 then nd
    else (nd.1 * (-jp.2.1 % prime) % prime, nd.2 * ((xi - jp.2.1) % prime) % prime)) (1, 1)

/-- One iteration of the outer loop of `ReconstructSecret`: `lᵢ(0) · yᵢ` added to the secret, with
`lᵢ(0)` the numerator times the inverse of the denominator. -/
def addLagrangeTerm (prime : Nat) (points : List (Int × Int)) (secret : Int) (ip : Nat × (Int × Int)) :
    Except Fault Int :=
  let nd := lagrangeFactors prime points ip.1 ip.2.1
  match modInverse nd.2 prime with
  | none => throw .nilDereference
  | some inverseDenom => pure ((secret + nd.1 * inverseDenom % prime * ip.2.2 % prime) % prime)

namespace MPCProtocol

/-- `ShareSecret(secret)`: the shares are replaced by each participant's value of the polynomial
at `ID + 1`. -/
def shareSecret (mpc : MPCProtocol) (draws : Nat → Nat) (secret : Int) : Except Fault MPCProtocol := do
  let coeffs ← generatePolynomial draws secret (mpc.threshold - 1)
  pure { mpc with secretShares := mpc.participants.foldl (fun shares id =>
    Function.update shares id (some (evaluatePolynomial mpc.prime coeffs (goInt (id + 1))))) fun _ => none }

/-- `ReconstructSecret(shares)`: the panic, or the returned `(secret, err)`. -/
def reconstructSecret (mpc : MPCProtocol) (shares : ShareMap) : Except Fault (Except String Int) :=
  if (shares.entries.length : Int) < mpc.threshold then
    pure (.error ("not enough shares: need " ++ toString mpc.threshold ++ ", have " ++
      toString shares.entries.length))
  else if mpc.threshold < 0 then throw .makeSliceCap
  else do
    let points := (shares.entries.take mpc.threshold.toNat).map fun e => (goInt (e.1 + 1), e.2)
    let secret ← points.enum.foldlM (addLagrangeTerm mpc.prime points) 0
    pure (.ok secret)

end MPCProtocol

end ShardedLedger.MPC
