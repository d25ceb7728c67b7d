import Mathlib.Data.Nat.Digits
import ShardedLedger.MPC.Reconstruct
import ShardedLedger.Consensus.BFT

/-! `SimulateMPCSignature`: the key is shared among the participants, the shares of at most
`Threshold + 1` honest ones are collected into a map, and the key rebuilt from that map signs the
message as the hex SHA-256 of the message and the key's bytes. The signature is the one the key
itself gives exactly when at least `Threshold` participants are honest, and "" otherwise. -/

namespace ShardedLedger.MPC
open ShardedLedger.Core ShardedLedger.Consensus

/-- `big.Int.Bytes()` of a non-negative value: big-endian, without leading zeros, empty for zero. -/
def bigIntBytes (n : ℕ) : Bytes := ((Nat.digits 256 n).map Nat.toUInt8).reverse

private theorem map_fst_assign (entries : List (ℤ × ℤ)) (id share : ℤ) :
    (entries.map fun e => if e.1 = id then (id, share) else e).map Prod.fst = entries.map Prod.fst := by
  rw [List.map_map]
  exact List.map_congr_left fun e _ => by by_cases h : e.1 = id <;> simp [h]

/-- `collectedShares[id] = share`: the entry of an ID in the map is replaced, a new ID added. -/
def ShareMap.insert (m : ShareMap) (id share : ℤ) : ShareMap :=
  if h : id ∈ m.entries.map Prod.fst then
    ⟨m.entries.map fun e => if e.1 = id then (id, share) else e, by rw [map_fst_assign]; exact m.nodup⟩
  else ⟨m.entries ++ [(id, share)], by
    rw [List.map_append, List.map_singleton]
    exact List.nodup_append.2 ⟨m.nodup, List.nodup_singleton _, fun a ha hb => h ((List.mem_singleton.1 hb : a = id) ▸ ha)⟩⟩

private theorem ShareMap.entries_insert_of_not_mem {m : ShareMap} {id : ℤ} (h : id ∉ m.entries.map Prod.fst)
    (share : ℤ) : (m.insert id share).entries = m.entries ++ [(id, share)] := by
  rw [ShareMap.insert, dif_neg h]

/-- One iteration of the collecting loop, on `(collectedShares, participantCount)`: an honest
node's share is taken while fewer than `Threshold + 1` are. Every participant has a share after
`ShareSecret`; a nil one would panic when `ReconstructSecret` copies it. -/
def collectStep (mpc : MPCProtocol) (acc : ShareMap × ℤ) (node : Node) : Except Fault (ShareMap × ℤ) :=
  if !node.byzantine && decide (acc.2 < goInt (mpc.threshold + 1)) then
    match mpc.secretShares node.id with
    | none => throw .nilDereference
    | some share => pure (acc.1.insert node.id share, acc.2 + 1)
  else pure acc

/-- `SimulateMPCSignature(message)` on a protocol whose `Participants` are `nodes`: `secretKey` is
the key drawn below `2^128`, `draws` the polynomial's draws, and `order` the order in which
`ReconstructSecret` ranges over the collected map. The hex signature, or "" when the
reconstruction reports an error. -/
def simulateMPCSignature (sha : Bytes → Bytes) (mpc : MPCProtocol) (nodes : List Node) (secretKey : ℕ)
    (draws : ℕ → ℕ) (order : ShareMap → ShareMap) (message : Bytes) : Except Fault Bytes := do
  let mpc' ← { mpc with participants := nodes.map Node.id }.shareSecret draws secretKey
  let collected ← nodes.foldlM (collectStep mpc') (⟨[], List.nodup_nil⟩, 0)
  match ← mpc'.reconstructSecret (order collected.1) with
  | .error _ => pure []
  | .ok reconstructed => pure (hexEncode (sha (message ++ bigIntBytes reconstructed.natAbs)))

private theorem foldlM_collectStep (mpc : MPCProtocol) (f : ℤ → ℤ)
    (hT : goInt (mpc.threshold + 1) = mpc.threshold + 1) :
    ∀ (nodes : List Node), (nodes.map Node.id).Nodup → (∀ n ∈ nodes, mpc.secretShares n.id = some (f n.id)) →
      ∀ (acc : ShareMap) (c : ℕ), acc.entries.length = c → (∀ n ∈ nodes, n.id ∉ acc.entries.map Prod.fst) →
        ∃ res : ShareMap × ℤ, nodes.foldlM (collectStep mpc) (acc, (c : ℤ)) = .ok res ∧
          res.1.entries = acc.entries ++ ((nodes.filter (!·.byzantine)).take ((mpc.threshold + 1).toNat - c)).map
            fun n => (n.id, f n.id)
  | [], _, _, acc, _, _, _ => ⟨_, rfl, by simp⟩
  | node :: nodes, hnd, hf, acc, c, hc, hfresh => by
    rw [List.map_cons, List.nodup_cons] at hnd
    have hf' : ∀ n ∈ nodes, mpc.secretShares n.id = some (f n.id) := fun n hn => hf n (List.mem_cons_of_mem _ hn)
    rw [List.foldlM_cons, collectStep, hT]
    -- the run that skips this node
    obtain ⟨skip, hskip, hskip_e⟩ := foldlM_collectStep mpc f hT nodes hnd.2 hf' acc c hc
      fun n hn => hfresh n (List.mem_cons_of_mem _ hn)
    by_cases hb : node.byzantine
    · exact ⟨skip, by simpa [hb] using hskip, by simpa [hb] using hskip_e⟩
    by_cases hlt : (c : ℤ) < mpc.threshold + 1
    · have hnew := ShareMap.entries_insert_of_not_mem (hfresh node (List.mem_cons_self _ _)) (f node.id)
      obtain ⟨res, h, he⟩ := foldlM_collectStep mpc f hT nodes hnd.2 hf' (acc.insert node.id (f node.id)) (c + 1)
        (by rw [hnew, List.length_append, hc]; rfl) fun n hn => by
          rw [hnew, List.map_append, List.mem_append, not_or]
          exact ⟨hfresh n (List.mem_cons_of_mem _ hn), by simpa using fun e : n.id = node.id => hnd.1 (e ▸ List.mem_map_of_mem Node.id hn)⟩
      refine ⟨res, by simpa [hb, hlt, hf node (List.mem_cons_self _ _)] using h, ?_⟩
      rw [he, hnew, List.filter_cons_of_pos (by simpa using hb),
        show (mpc.threshold + 1).toNat - c = (mpc.threshold + 1).toNat - (c + 1) + 1 by omega]
      simp
    · refine ⟨skip, by simpa [hb, hlt] using hskip, ?_⟩
      rw [hskip_e, show (mpc.threshold + 1).toNat - c = 0 by omega]
      simp

/-- `SimulateMPCSignature` with a prime modulus, `1 ≤ Threshold < 2^63 - 1` (so that
`Threshold + 1` does not wrap), participants with distinct IDs whose nodes `ID + 1` neither wrap
nor reach the prime, and a key below the prime (the code draws it below `2^128` and the prime has
256 bits): whatever order the collected map is read in, the signature is the hex SHA-256 of the
message and the key's bytes when at least `Threshold` participants are honest, and "" when fewer
are. -/
theorem simulateMPCSignature_spec (sha : Bytes → Bytes) (mpc : MPCProtocol) (nodes : List Node)
    (hp : mpc.prime.Prime) (ht : 1 ≤ mpc.threshold ∧ mpc.threshold < 2 ^ 63 - 1)
    (hids : ∀ n ∈ nodes, 0 ≤ n.id ∧ n.id + 1 < mpc.prime ∧ n.id < 2 ^ 63 - 1) (hnd : (nodes.map Node.id).Nodup)
    (draws : ℕ → ℕ) (secretKey : ℕ) (hkey : secretKey < mpc.prime) (order : ShareMap → ShareMap)
    (horder : ∀ m, (order m).entries.Perm m.entries) (message : Bytes) :
    simulateMPCSignature sha mpc nodes secretKey draws order message =
      .ok (if mpc.threshold ≤ (nodes.filter (!·.byzantine)).length then
        hexEncode (sha (message ++ bigIntBytes secretKey)) else []) := by
  obtain ⟨mpc', hshare, hpart, hthr, hprime, hsh⟩ :=
    shareSecret_spec { mpc with participants := nodes.map Node.id } ht.1 draws secretKey
  dsimp only at hpart hthr hprime hsh
  have hT : goInt (mpc'.threshold + 1) = mpc'.threshold + 1 := goInt_of_lt (by omega) (by omega)
  set rest : List ℤ := (List.range (mpc.threshold - 1).toNat).map fun i => (draws i : ℤ)
  obtain ⟨res, hres, hent⟩ := foldlM_collectStep mpc'
    (fun id => evaluatePolynomial mpc.prime ((secretKey : ℤ) :: rest) (goInt (id + 1))) hT nodes hnd
    (fun n hn => by rw [hsh, if_pos (List.mem_map_of_mem _ hn)]) ⟨[], List.nodup_nil⟩ 0 rfl
    fun _ _ h => List.not_mem_nil _ h
  rw [Nat.cast_zero] at hres
  have hperm : (order res.1).entries.Perm (((nodes.filter (!·.byzantine)).take (mpc.threshold + 1).toNat).map
      fun n => (n.id, evaluatePolynomial mpc.prime ((secretKey : ℤ) :: rest) (goInt (n.id + 1)))) := by
    refine (horder res.1).trans (.of_eq ?_)
    rw [hent, hthr]
    simp
  have hlen : ((order res.1).entries.length : ℤ) =
      min (mpc.threshold + 1) ((nodes.filter (!·.byzantine)).length : ℤ) := by
    rw [hperm.length_eq, List.length_map, List.length_take]
    omega
  rw [simulateMPCSignature, hshare]
  simp only [bind, Except.bind, hres]
  split_ifs with hh
  · have hsh' : ∀ e ∈ (order res.1).entries, 0 ≤ e.1 ∧ e.1 + 1 < mpc'.prime ∧ e.1 < 2 ^ 63 - 1 ∧
        e.2 = evaluatePolynomial mpc'.prime ((secretKey : ℤ) :: rest) (e.1 + 1) := by
      intro e he
      obtain ⟨n, hn, rfl⟩ := List.mem_map.1 (hperm.subset he)
      obtain ⟨h0, h1, h2⟩ := hids n (List.mem_filter.1 (List.mem_of_mem_take hn)).1
      rw [hprime, goInt_of_lt (by omega) (by omega)]
      exact ⟨h0, h1, h2, rfl⟩
    rw [reconstructSecret_eval mpc' (hprime ▸ hp) secretKey ⟨by omega, by rw [hprime]; exact_mod_cast hkey⟩
      rest (by simp [rest, hthr]; omega) (order res.1) hsh' (by rw [hthr]; omega)]
    rfl
  · rw [MPCProtocol.reconstructSecret, if_pos (by rw [hthr]; omega)]
    rfl

theorem simulateMPCSignature_spec_eleven :
    (11 : ℕ).Prime ∧ (1 ≤ (newMPCProtocol [] 2 11 (by decide)).threshold ∧
      (newMPCProtocol [] 2 11 (by decide)).threshold < 2 ^ 63 - 1) ∧
      (∀ n ∈ ([⟨0, 1, false⟩, ⟨1, 1, false⟩, ⟨2, 1, true⟩] : List Node), 0 ≤ n.id ∧ n.id + 1 < ((11 : ℕ) : ℤ) ∧
        n.id < 2 ^ 63 - 1) ∧ (([⟨0, 1, false⟩, ⟨1, 1, false⟩, ⟨2, 1, true⟩] : List Node).map Node.id).Nodup ∧
      5 < 11 ∧ (∀ m : ShareMap, m.entries.Perm m.entries) ∧
      simulateMPCSignature (fun x => x) (newMPCProtocol [] 2 11 (by decide))
          [⟨0, 1, false⟩, ⟨1, 1, false⟩, ⟨2, 1, true⟩] 5 (fun _ => 3) (fun m => m) [] =
        .ok (if (newMPCProtocol [] 2 11 (by decide)).threshold ≤
            (([⟨0, 1, false⟩, ⟨1, 1, false⟩, ⟨2, 1, true⟩] : List Node).filter (!·.byzantine)).length then
          hexEncode ([] ++ bigIntBytes 5) else []) :=
  have hp : (11 : ℕ).Prime := by norm_num
  ⟨hp, by decide, by decide, by decide, by decide, fun m => List.Perm.refl _,
    simulateMPCSignature_spec _ _ _ hp (by decide) (by decide) (by decide) _ 5 (by decide) _
      (fun m => List.Perm.refl _) []⟩

end ShardedLedger.MPC
