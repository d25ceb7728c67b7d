import Mathlib.Data.ZMod.Basic
import Mathlib.NumberTheory.LucasPrimality
import Mathlib.Tactic.NormNum.Prime
import ShardedLedger.Core.Accumulator
import ShardedLedger.MPC.Protocol
import ShardedLedger.MPC.Lagrange

/-! `ReconstructSecret` after `ShareSecret`, taken to `ZMod p`: every `Mod` disappears, the shares
are values of the polynomial at the nodes `ID + 1`, and the outer loop sums Lagrange's formula at
`0`. It returns the secret when the nodes are distinct modulo the prime. Past `2^63 - 1` an `ID + 1`
wraps, and with a prime below `2^64` the wrapped node can meet another one. -/

namespace ShardedLedger.MPC
open Finset Polynomial ShardedLedger.Core

section
variable (p : ℕ)

private theorem intCast_evaluatePolynomial (coefficients : List ℤ) (x : ℤ) :
    ((evaluatePolynomial p coefficients x : ℤ) : ZMod p) =
      (∑ k : Fin coefficients.length, C ((coefficients.get k : ℤ) : ZMod p) * X ^ (k : ℕ)).eval (x : ZMod p) := by
  rw [evaluatePolynomial, ← List.foldl_hom (Int.cast : ℤ → ZMod p) _
    (fun acc ic => acc + (x : ZMod p) ^ ic.1 * (ic.2 : ZMod p)) _ _ fun r ic => by push_cast [ZMod.intCast_mod]; rfl,
    Int.cast_zero, foldl_add_enum, zero_add, eval_finset_sum]
  refine sum_congr rfl fun k _ => ?_
  rw [eval_mul, eval_C, eval_pow, eval_X, mul_comm]

private theorem intCast_lagrangeFactors (points : List (ℤ × ℤ)) (i : Fin points.length) (xi : ℤ) :
    (((lagrangeFactors p points i xi).1 : ZMod p), ((lagrangeFactors p points i xi).2 : ZMod p)) =
      (∏ j ∈ univ.erase i, -((points.get j).1 : ZMod p), ∏ j ∈ univ.erase i, ((xi : ZMod p) - (points.get j).1)) := by
  have H (nd : ℤ × ℤ) (jp : ℕ × (ℤ × ℤ)) :
      Prod.map (Int.cast : ℤ → ZMod p) Int.cast nd *
          (if (i : ℕ) = jp.1 then 1 else (-(jp.2.1 : ZMod p), (xi : ZMod p) - jp.2.1)) =
        Prod.map Int.cast Int.cast (if (i : ℕ) = jp.1 then nd
          else (nd.1 * (-jp.2.1 % p) % p, nd.2 * ((xi - jp.2.1) % p) % p)) := by
    split_ifs
    · exact mul_one _
    · ext <;> simp [ZMod.intCast_mod]
  show Prod.map Int.cast Int.cast (lagrangeFactors p points i xi) = _
  rw [lagrangeFactors, ← List.foldl_hom (Prod.map (Int.cast : ℤ → ZMod p) Int.cast) _
    (fun acc jp => acc * if (i : ℕ) = jp.1 then 1 else (-(jp.2.1 : ZMod p), (xi : ZMod p) - jp.2.1)) _ _ H,
    foldl_mul_enum]
  ext <;> simp [Prod.fst_prod, Prod.snd_prod, apply_ite Prod.fst, apply_ite Prod.snd, prod_skip_eq]

end

private theorem modInverse_of_ne_zero {p : ℕ} [Fact p.Prime] {d : ℤ} (hd : (d : ZMod p) ≠ 0) :
    ∃ inverse, modInverse d p = some inverse ∧ (inverse : ZMod p) = (d : ZMod p)⁻¹ := by
  rw [Ne, ZMod.intCast_zmod_eq_zero_iff_dvd, Int.ofNat_dvd_left] at hd
  have hg : Int.gcd d p = 1 := by
    rw [Int.gcd, Int.natAbs_ofNat]
    exact Nat.Coprime.symm ((Nat.Prime.coprime_iff_not_dvd Fact.out).2 hd)
  refine ⟨_, if_pos hg, ?_⟩
  have hb := congrArg (Int.cast : ℤ → ZMod p) (Int.gcd_eq_gcd_ab d p)
  simp only [hg, Int.cast_add, Int.cast_mul, Int.cast_natCast, ZMod.natCast_self, zero_mul, add_zero,
    Nat.cast_one, Int.cast_one] at hb
  rw [ZMod.intCast_mod]
  exact eq_inv_of_mul_eq_one_right hb.symm

theorem goInt_of_lt {v : ℤ} (h₀ : 0 ≤ v) (h : v < 2 ^ 63) : goInt v = v := by
  rw [goInt, Int.bmod_def]
  split_ifs <;> omega

private theorem eq_of_intCast_eq {p : ℕ} {a b : ℤ} (ha : 0 ≤ a ∧ a < p) (hb : 0 ≤ b ∧ b < p)
    (h : (a : ZMod p) = b) : a = b := by
  rwa [ZMod.intCast_eq_intCast_iff', Int.emod_eq_of_lt ha.1 ha.2, Int.emod_eq_of_lt hb.1 hb.2] at h

private theorem intCast_fst_injective {p : ℕ} (points : List (ℤ × ℤ)) (hnd : (points.map Prod.fst).Nodup)
    (hr : ∀ pt ∈ points, 0 ≤ pt.1 ∧ pt.1 < p) :
    Function.Injective fun k : Fin points.length => ((points.get k).1 : ZMod p) := by
  intro a b hab
  have hx := eq_of_intCast_eq (hr _ (List.get_mem _ _ _)) (hr _ (List.get_mem _ _ _)) hab
  have h : (points.map Prod.fst).get ⟨a, by simp⟩ = (points.map Prod.fst).get ⟨b, by simp⟩ := by
    simpa using hx
  exact Fin.ext (Fin.mk.inj_iff.1 (List.nodup_iff_injective_get.1 hnd h))

private theorem addLagrangeTerm_of_modInverse {p : ℕ} (points : List (ℤ × ℤ)) {s : ℤ} {ip : ℕ × (ℤ × ℤ)}
    {inverse : ℤ} (h : modInverse (lagrangeFactors p points ip.1 ip.2.1).2 p = some inverse) :
    addLagrangeTerm p points s ip =
      .ok ((s + (lagrangeFactors p points ip.1 ip.2.1).1 * inverse % p * ip.2.2 % p) % p) := by
  simp only [addLagrangeTerm, h]
  rfl

section
variable {p : ℕ} [Fact p.Prime] (points : List (ℤ × ℤ))

private theorem foldlM_addLagrangeTerm (M : List (ℕ × (ℤ × ℤ)))
    (hM : ∀ ip ∈ M, ((lagrangeFactors p points ip.1 ip.2.1).2 : ZMod p) ≠ 0) {s : ℤ} (hs : 0 ≤ s ∧ s < p) :
    ∃ s', M.foldlM (addLagrangeTerm p points) s = .ok s' ∧ (0 ≤ s' ∧ s' < p) ∧
      (s' : ZMod p) = s + (M.map fun ip => (ip.2.2 : ZMod p) * (lagrangeFactors p points ip.1 ip.2.1).1 *
        ((lagrangeFactors p points ip.1 ip.2.1).2 : ZMod p)⁻¹).sum := by
  induction M generalizing s with
  | nil => exact ⟨s, rfl, hs, by simp⟩
  | cons ip M ih =>
    obtain ⟨inverse, hinv, hcast⟩ := modInverse_of_ne_zero (hM ip (List.mem_cons_self _ _))
    have hp : (0 : ℤ) < p := Int.ofNat_pos.2 (Fact.out : p.Prime).pos
    obtain ⟨s', h, hr, hc⟩ := ih (fun ip' h' => hM ip' (List.mem_cons_of_mem _ h'))
      ⟨Int.emod_nonneg _ hp.ne', Int.emod_lt_of_pos _ hp⟩
    refine ⟨s', by rw [List.foldlM_cons, addLagrangeTerm_of_modInverse points hinv]; exact h, hr, ?_⟩
    rw [hc, List.map_cons, List.sum_cons]
    push_cast [ZMod.intCast_mod, hcast]
    ring

private theorem foldlM_addLagrangeTerm_eval_zero (f : (ZMod p)[X]) (hdeg : f.degree < points.length)
    (hv : Function.Injective fun k : Fin points.length => ((points.get k).1 : ZMod p))
    (hval : ∀ k : Fin points.length, ((points.get k).2 : ZMod p) = f.eval ((points.get k).1 : ZMod p)) :
    ∃ s, points.enum.foldlM (addLagrangeTerm p points) 0 = .ok s ∧ (0 ≤ s ∧ s < p) ∧
      (s : ZMod p) = f.eval 0 := by
  have hk (k : Fin points.length) := Prod.mk.inj_iff.1 (intCast_lagrangeFactors p points k (points.get k).1)
  -- no denominator `∏ (xᵢ - xⱼ)` is a multiple of the prime
  obtain ⟨s, hfold, hr, hc⟩ := foldlM_addLagrangeTerm points points.enum (s := 0)
    (fun ip h => by
      rw [enum_eq_ofFn, List.mem_ofFn] at h
      obtain ⟨k, rfl⟩ := h
      rw [(hk k).2]
      exact prod_ne_zero_iff.2 fun j hj => sub_ne_zero.2 fun h => ne_of_mem_erase hj (hv h).symm)
    ⟨le_rfl, Int.ofNat_pos.2 (Fact.out : p.Prime).pos⟩
  refine ⟨s, hfold, hr, ?_⟩
  rw [hc, Int.cast_zero, zero_add, enum_eq_ofFn, List.map_ofFn, List.sum_ofFn,
    eval_zero_eq_lagrange _ hv f hdeg]
  refine sum_congr rfl fun k _ => ?_
  simp only [Function.comp, hval k, (hk k).1, (hk k).2]

end

private theorem foldl_update_apply (f : ℤ → ℤ) (id : ℤ) : ∀ (ids : List ℤ) (g : ℤ → Option ℤ),
    ids.foldl (fun shares id => Function.update shares id (some (f id))) g id =
      if id ∈ ids then some (f id) else g id
  | [], g => by simp
  | a :: ids, g => by
    rw [List.foldl_cons, foldl_update_apply f id ids]
    by_cases ha : id = a
    · subst ha
      simp
    · simp [ha, Function.update_noteq]

theorem shareSecret_spec (mpc : MPCProtocol) (ht : 1 ≤ mpc.threshold) (draws : ℕ → ℕ) (secret : ℤ) :
    ∃ mpc', mpc.shareSecret draws secret = .ok mpc' ∧ mpc'.participants = mpc.participants ∧
      mpc'.threshold = mpc.threshold ∧ mpc'.prime = mpc.prime ∧ ∀ id, mpc'.secretShares id =
        if id ∈ mpc.participants then some (evaluatePolynomial mpc.prime
          (secret :: (List.range (mpc.threshold - 1).toNat).map fun i => (draws i : ℤ)) (goInt (id + 1)))
        else none := by
  rw [MPCProtocol.shareSecret, generatePolynomial, if_neg (by omega), if_neg (by omega)]
  exact ⟨_, rfl, rfl, rfl, rfl, fun id => foldl_update_apply _ id _ _⟩

theorem reconstructSecret_eval (mpc : MPCProtocol) (hp : mpc.prime.Prime) (secret : ℤ)
    (hs : 0 ≤ secret ∧ secret < mpc.prime) (rest : List ℤ) (hlen : ((rest.length + 1 : ℕ) : ℤ) = mpc.threshold)
    (shares : ShareMap) (hsh : ∀ e ∈ shares.entries, 0 ≤ e.1 ∧ e.1 + 1 < mpc.prime ∧ e.1 < 2 ^ 63 - 1 ∧
      e.2 = evaluatePolynomial mpc.prime (secret :: rest) (e.1 + 1))
    (hl : mpc.threshold ≤ shares.entries.length) :
    mpc.reconstructSecret shares = .ok (.ok secret) := by
  haveI := Fact.mk hp
  set points := (shares.entries.take mpc.threshold.toNat).map fun e => (goInt (e.1 + 1), e.2) with hpoints
  have hlp : points.length = (secret :: rest).length := by
    simp only [hpoints, List.length_map, List.length_take, List.length_cons]
    omega
  have hgo : ∀ e ∈ shares.entries, goInt (e.1 + 1) = e.1 + 1 := fun e he => by
    have := hsh e he
    exact goInt_of_lt (by omega) (by omega)
  have hpt : ∀ pt ∈ points, (0 ≤ pt.1 ∧ pt.1 < mpc.prime) ∧
      pt.2 = evaluatePolynomial mpc.prime (secret :: rest) pt.1 := by
    simp only [hpoints, List.mem_map]
    rintro _ ⟨e, he, rfl⟩
    have he' := List.mem_of_mem_take he
    obtain ⟨h0, h1, -, hy⟩ := hsh e he'
    rw [hgo e he']
    exact ⟨⟨by omega, h1⟩, hy⟩
  -- the nodes are distinct: the IDs are, and `ID + 1` does not wrap
  have hnd : (points.map Prod.fst).Nodup := by
    have hkeys : ((shares.entries.take mpc.threshold.toNat).map Prod.fst).Nodup := by
      rw [List.map_take]
      exact shares.nodup.sublist (List.take_sublist _ _)
    rw [hpoints, List.map_map]
    refine (hkeys.of_map _).map_on fun e he e' he' h => List.inj_on_of_nodup_map hkeys he he' ?_
    have := hgo e (List.mem_of_mem_take he)
    have := hgo e' (List.mem_of_mem_take he')
    simp only [Function.comp] at h
    omega
  set f : (ZMod mpc.prime)[X] :=
    ∑ k : Fin (secret :: rest).length, C (((secret :: rest).get k : ℤ) : ZMod mpc.prime) * X ^ (k : ℕ)
  have hf0 : f.eval 0 = (secret : ZMod mpc.prime) := by
    rw [eval_finset_sum]
    exact (Fin.sum_univ_succ _).trans (by simp)
  obtain ⟨s, hfold, hr, hc⟩ := foldlM_addLagrangeTerm_eval_zero points f (hlp ▸ degree_sum_fin_lt _)
    (intCast_fst_injective points hnd fun pt h => (hpt pt h).1)
    fun k => by rw [(hpt _ (List.get_mem _ _ _)).2, intCast_evaluatePolynomial]
  rw [MPCProtocol.reconstructSecret, if_neg (not_lt.2 hl), if_neg (by omega)]
  simp only [← hpoints]
  rw [hfold, eq_of_intCast_eq hr hs (hc.trans hf0)]
  rfl

open MPCProtocol in
/-- Shamir's scheme as the code runs it: with a prime modulus, a threshold of at least one and
participant IDs in `[0, p - 2]` below `2^63 - 1`, so that `ID + 1` neither wraps nor reaches `p`,
`ShareSecret(s)` for `0 ≤ s < p` gives shares from which `ReconstructSecret` returns `(s, nil)`
for every sub-map of at least `Threshold` shares, whatever order its iteration takes. -/
theorem shareSecret_reconstructSecret (mpc : MPCProtocol) (hp : mpc.prime.Prime) (ht : 1 ≤ mpc.threshold)
    (hid : ∀ id ∈ mpc.participants, 0 ≤ id ∧ id ≤ (mpc.prime : ℤ) - 2 ∧ id < 2 ^ 63 - 1)
    (draws : ℕ → ℕ) (secret : ℤ) (hs : 0 ≤ secret ∧ secret < mpc.prime) :
    ∃ mpc', mpc.shareSecret draws secret = .ok mpc' ∧ ∀ shares : ShareMap,
      (∀ e ∈ shares.entries, mpc'.secretShares e.1 = some e.2) → mpc.threshold ≤ shares.entries.length →
        mpc'.reconstructSecret shares = .ok (.ok secret) := by
  obtain ⟨mpc', hshare, -, hthr, hprime, hsh⟩ := shareSecret_spec mpc ht draws secret
  refine ⟨mpc', hshare, fun shares hsub hlen => reconstructSecret_eval mpc' (hprime ▸ hp) secret (hprime ▸ hs)
    ((List.range (mpc.threshold - 1).toNat).map fun i => (draws i : ℤ)) (by simp [hthr]; omega) shares
    (fun e he => ?_) (hthr ▸ hlen)⟩
  -- a share of the map is its participant's value at `ID + 1`, which does not wrap
  have hy := hsub e he
  rw [hsh] at hy
  split_ifs at hy with hmem
  obtain ⟨h0, h1, h2⟩ := hid e.1 hmem
  rw [hprime, ← Option.some.inj hy, goInt_of_lt (by omega) (by omega)]
  exact ⟨h0, by omega, h2, rfl⟩

theorem shareSecret_reconstructSecret_eleven :
    (11 : ℕ).Prime ∧ 1 ≤ (newMPCProtocol [0, 1, 2, 3] 3 11 (by decide)).threshold ∧
      (∀ id ∈ (newMPCProtocol [0, 1, 2, 3] 3 11 (by decide)).participants,
        0 ≤ id ∧ id ≤ ((11 : ℕ) : ℤ) - 2 ∧ id < 2 ^ 63 - 1) ∧ (0 ≤ (9 : ℤ) ∧ (9 : ℤ) < (11 : ℕ)) ∧
      ∃ mpc', (newMPCProtocol [0, 1, 2, 3] 3 11 (by decide)).shareSecret (fun i => 3 + 4 * i) 9 = .ok mpc' ∧
        ∀ shares : ShareMap, (∀ e ∈ shares.entries, mpc'.secretShares e.1 = some e.2) →
          (newMPCProtocol [0, 1, 2, 3] 3 11 (by decide)).threshold ≤ shares.entries.length →
            mpc'.reconstructSecret shares = .ok (.ok 9) :=
  have hp : (11 : ℕ).Prime := by norm_num
  ⟨hp, by decide, by decide, by decide,
    shareSecret_reconstructSecret _ hp (by decide) (by decide) (fun i => 3 + 4 * i) 9 (by decide)⟩

/-! ### A wrapped `ID + 1`

IDs may reach `p - 2`, but Go's `int` stops at `2^63 - 1`, where `ID + 1` wraps to `-2^63`. For
the prime `2^64 - 2^32 + 1` that is the node `p - 2^63` of the participant `2^63 - 2^32`. -/

private theorem intCast_pow_eq_bigExp (p a k : ℕ) : (a : ZMod p) ^ k = ((bigExp a k p : ℕ) : ZMod p) := by
  rw [bigExp_eq, ZMod.natCast_mod, Nat.cast_pow]

private theorem natCast_ne_one {p n : ℕ} (h : n % p ≠ 1 % p) : (n : ZMod p) ≠ 1 :=
  fun e => h ((ZMod.natCast_eq_natCast_iff' n 1 p).1 (e.trans Nat.cast_one.symm))

private theorem prime_dvd_goldilocks_sub_one {q : ℕ} (hq : q.Prime) (h : q ∣ 2 ^ 32 * 3 * 5 * 17 * 257 * 65537) :
    q = 2 ∨ q = 3 ∨ q = 5 ∨ q = 17 ∨ q = 257 ∨ q = 65537 := by
  have eq (r : ℕ) (hr : r.Prime) (h : q ∣ r) : q = r := (Nat.prime_dvd_prime_iff_eq hq hr).1 h
  rcases hq.dvd_mul.1 h with h | h
  rcases hq.dvd_mul.1 h with h | h
  rcases hq.dvd_mul.1 h with h | h
  rcases hq.dvd_mul.1 h with h | h
  rcases hq.dvd_mul.1 h with h | h
  · exact .inl (eq 2 Nat.prime_two (hq.dvd_of_dvd_pow h))
  · exact .inr (.inl (eq 3 (by norm_num) h))
  · exact .inr (.inr (.inl (eq 5 (by norm_num) h)))
  · exact .inr (.inr (.inr (.inl (eq 17 (by norm_num) h))))
  · exact .inr (.inr (.inr (.inr (.inl (eq 257 (by norm_num) h)))))
  · exact .inr (.inr (.inr (.inr (.inr (eq 65537 (by norm_num) h)))))

set_option maxRecDepth 10000 in
private theorem goldilocks_prime : Nat.Prime 18446744069414584321 := by
  refine lucas_primality _ ((7 : ℕ) : ZMod _) ?_ fun q hq hd => ?_
  · rw [intCast_pow_eq_bigExp, show bigExp 7 (18446744069414584321 - 1) 18446744069414584321 = 1 by decide,
      Nat.cast_one]
  · rw [intCast_pow_eq_bigExp]
    obtain rfl | rfl | rfl | rfl | rfl | rfl := prime_dvd_goldilocks_sub_one hq hd <;>
      exact natCast_ne_one (by decide)

/-- Participants `2^63 - 1` and `2^63 - 2^32` modulo the prime `2^64 - 2^32 + 1`, threshold `2`. -/
def wrappedMPC : MPCProtocol :=
  newMPCProtocol [2 ^ 63 - 1, 2 ^ 63 - 2 ^ 32] 2 18446744069414584321 (by decide)

set_option maxRecDepth 10000 in
/-- A prime, a threshold of at least one and distinct IDs in `[0, p - 2]` that are Go `int`s, yet
`ReconstructSecret` on both shares panics: the two nodes agree modulo the prime, so the
denominator is `0` and `ModInverse` returns nil. -/
theorem reconstructSecret_wrapped_id_panics :
    ¬ ∀ (mpc : MPCProtocol) (draws : ℕ → ℕ) (secret : ℤ), mpc.prime.Prime → 1 ≤ mpc.threshold →
      mpc.threshold ≤ mpc.participants.length → mpc.participants.Nodup →
      (∀ id ∈ mpc.participants, 0 ≤ id ∧ id ≤ (mpc.prime : ℤ) - 2 ∧ id < 2 ^ 63) →
      (∀ i, draws i < mpc.prime) → 0 ≤ secret → secret < mpc.prime →
      ∃ mpc', mpc.shareSecret draws secret = .ok mpc' ∧ ∀ shares : ShareMap,
        (∀ e ∈ shares.entries, mpc'.secretShares e.1 = some e.2) → mpc.threshold ≤ shares.entries.length →
          mpc'.reconstructSecret shares = .ok (.ok secret) := by
  intro h
  obtain ⟨mpc', hshare, hrec⟩ := h wrappedMPC (fun _ => 0) 0 goldilocks_prime (by decide) (by decide)
    (by decide) (by decide) (fun _ => wrappedMPC.prime_pos) le_rfl (by decide)
  obtain rfl := Except.ok.inj (hshare.symm.trans rfl)
  have hpanic := hrec ⟨[(2 ^ 63 - 1, 0), (2 ^ 63 - 2 ^ 32, 0)], by decide⟩ (by decide) (by decide)
  exact Except.noConfusion (hpanic.symm.trans rfl)

end ShardedLedger.MPC
