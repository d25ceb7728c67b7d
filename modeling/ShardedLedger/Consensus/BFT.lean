import Mathlib.Data.Rat.Defs
import Mathlib.Data.List.Nodup
import ShardedLedger.Core.Block

/-! `BFTManager` and `ConsensusManager`: honest nodes above a reputation of 0.5 take part in a
round that succeeds with `⌊2n/3⌋` of them, and the hybrid protocol first elects a leader among
the honest nodes by the highest hex SHA-256 score of `nonce-ID`, compared as Go compares
strings. Random draws are arguments; a `float64` reputation is an exact rational. -/

namespace ShardedLedger.Consensus
open ShardedLedger.Core

/-- `Node`; its `LastResponse` is read by no function. -/
structure Node where
  id : Int
  reputation : ℚ
  byzantine : Bool
  deriving DecidableEq

structure BFTManager where
  nodes : List Node

/-- `NewBFTManager(total)`: node `i` draws `reputation i` from `rand.Float64()` and is Byzantine
when its draw `faulty i` of `rand.Intn(10)` is below 2. -/
def newBFTManager (total : Int) (reputation : Nat → ℚ) (faulty : Nat → Nat) : BFTManager :=
  ⟨(List.range total.toNat).map fun i : Nat => ⟨i, reputation i, decide (faulty i < 2)⟩⟩

/-- `SelectConsensusParticipants`: the honest nodes with reputation above 0.5, in order. -/
def BFTManager.selectConsensusParticipants (bft : BFTManager) : List Node :=
  bft.nodes.filter fun node => !node.byzantine && decide (1 / 2 < node.reputation)

/-- `RunConsensus`: whether it prints "Consensus Reached", and the participants it lists. -/
def BFTManager.runConsensus (bft : BFTManager) : Bool × List Node :=
  let participants := bft.selectConsensusParticipants
  (decide (bft.nodes.length * 2 / 3 ≤ participants.length), participants)

/-- Go's `<` on strings: bytewise lexicographic, a proper prefix first. -/
def bytesLt : Bytes → Bytes → Bool
  | [], [] => false
  | [], _ :: _ => true
  | _ :: _, [] => false
  | a :: as, b :: bs => a < b || a = b && bytesLt as bs

private theorem uint8_lt_iff (a b : UInt8) : a < b ↔ a.toNat < b.toNat := Iff.rfl

@[simp] private theorem bytesLt_self : ∀ a : Bytes, bytesLt a a = false
  | [] => rfl
  | x :: xs => by simp [bytesLt, uint8_lt_iff, bytesLt_self xs]

private theorem bytesLt_trans {a b c : Bytes} (h₁ : bytesLt a b) (h₂ : bytesLt b c) : bytesLt a c := by
  induction a generalizing b c with
  | nil => cases b <;> cases c <;> simp_all [bytesLt]
  | cons x xs ih =>
    match b, c, h₁, h₂ with
    | y :: ys, z :: zs, h₁, h₂ =>
      simp only [bytesLt, Bool.or_eq_true, Bool.and_eq_true, decide_eq_true_eq, uint8_lt_iff] at h₁ h₂ ⊢
      rcases h₁ with h₁ | ⟨rfl, h₁⟩ <;> rcases h₂ with h₂ | ⟨rfl, h₂⟩
      exacts [.inl (h₁.trans h₂), .inl h₁, .inl h₂, .inr ⟨rfl, ih h₁ h₂⟩]

private theorem bytesLt_total {a b : Bytes} (h : a ≠ b) : bytesLt a b ∨ bytesLt b a := by
  induction a generalizing b with
  | nil => cases b <;> simp_all [bytesLt]
  | cons x xs ih =>
    cases b with
    | nil => simp [bytesLt]
    | cons y ys =>
      simp only [bytesLt, Bool.or_eq_true, Bool.and_eq_true, decide_eq_true_eq, uint8_lt_iff]
      by_cases hxy : x = y
      · subst hxy
        rcases ih fun e => h (e ▸ rfl) with h' | h'
        exacts [.inl (.inr ⟨rfl, h'⟩), .inr (.inr ⟨rfl, h'⟩)]
      · have : x.toNat ≠ y.toNat := fun e => hxy (UInt8.toNat.inj e)
        omega

structure ConsensusManager where
  bft : BFTManager

section
variable (sha : Bytes → Bytes)

/-- `simulateProofOfWork`: the hex SHA-256 of the 32 random bytes `buf`. -/
def simulateProofOfWork (buf : Bytes) : Bytes := hexEncode (sha buf)

/-- A node's score: the hex SHA-256 of `fmt.Sprintf("%s-%d", nonce, node.ID)`. -/
def vrfScore (nonce : Bytes) (node : Node) : Bytes :=
  hexEncode (sha (nonce ++ bytesOf "-" ++ bytesOf (toString node.id)))

/-- One iteration of the loop of `simulateVRFLeaderElection`, on `(leader, highestScore)`. -/
def electStep (nonce : Bytes) (acc : Option Node × Bytes) (node : Node) : Option Node × Bytes :=
  if node.byzantine then acc
  else if bytesLt acc.2 (vrfScore sha nonce node) then (some node, vrfScore sha nonce node) else acc

/-- `simulateVRFLeaderElection(nonce)`: the leader, or nil. -/
def ConsensusManager.simulateVRFLeaderElection (cm : ConsensusManager) (nonce : Bytes) : Option Node :=
  (cm.bft.nodes.foldl (electStep sha nonce) (none, [])).1

/-- `RunHybridConsensus` with the proof-of-work bytes `buf`: `none` when it aborts without a
leader, else the leader it prints and the outcome of the BFT round. -/
def ConsensusManager.runHybridConsensus (cm : ConsensusManager) (buf : Bytes) :
    Option (Node × Bool × List Node) :=
  (cm.simulateVRFLeaderElection sha (simulateProofOfWork sha buf)).map fun leader =>
    (leader, cm.bft.runConsensus)

/-- What the election loop keeps over the nodes `seen`: a leader is an honest node seen and
`highestScore` its score, no leader means no score, and no honest node seen scores higher. -/
structure Leads (nonce : Bytes) (seen : List Node) (acc : Option Node × Bytes) : Prop where
  leader : ∀ n, acc.1 = some n → n ∈ seen ∧ n.byzantine = false ∧ acc.2 = vrfScore sha nonce n
  none_score : acc.1 = none → acc.2 = []
  highest : ∀ m ∈ seen, m.byzantine = false → bytesLt acc.2 (vrfScore sha nonce m) = false

private theorem leads_nil (nonce : Bytes) : Leads sha nonce [] (none, []) :=
  ⟨fun _ h => Option.noConfusion h, fun _ => rfl, fun _ h => absurd h (List.not_mem_nil _)⟩

theorem Leads.step {nonce : Bytes} {seen : List Node} {acc : Option Node × Bytes}
    (H : Leads sha nonce seen acc) (node : Node) :
    Leads sha nonce (seen ++ [node]) (electStep sha nonce acc node) := by
  -- a Byzantine node, or one that does not score higher, leaves the accumulator as it is
  have unchanged (h : node.byzantine ∨ bytesLt acc.2 (vrfScore sha nonce node) = false) :
      Leads sha nonce (seen ++ [node]) acc := by
    refine ⟨fun n h => (H.leader n h).imp_left (List.mem_append_left _), H.none_score, fun m hm hh => ?_⟩
    rcases List.mem_append.1 hm with hm | hm
    · exact H.highest m hm hh
    · simp_all
  unfold electStep
  split_ifs with hb hlt
  · exact unchanged (.inl hb)
  · refine ⟨fun n h => ?_, fun h => Option.noConfusion h, fun m hm hh => ?_⟩
    · cases h
      simp_all
    · rcases List.mem_append.1 hm with hm | hm
      · cases h : bytesLt (vrfScore sha nonce node) (vrfScore sha nonce m)
        · rfl
        · exact absurd (bytesLt_trans hlt h) (by simp [H.highest m hm hh])
      · simp_all
  · exact unchanged (.inr (by simpa using hlt))

theorem Leads.foldl {nonce : Bytes} (nodes : List Node) : ∀ {seen : List Node} {acc : Option Node × Bytes},
    Leads sha nonce seen acc → Leads sha nonce (seen ++ nodes) (nodes.foldl (electStep sha nonce) acc) := by
  induction nodes with
  | nil => intro _ _ H; simpa using H
  | cons node nodes ih =>
    intro seen acc H
    simpa using ih (H.step sha node)

private theorem foldl_electStep_of_byzantine {nonce : Bytes} (acc : Option Node × Bytes) :
    ∀ nodes : List Node, (∀ n ∈ nodes, n.byzantine) → nodes.foldl (electStep sha nonce) acc = acc
  | [], _ => rfl
  | node :: nodes, h => by
    rw [List.foldl_cons, electStep, if_pos (h node (List.mem_cons_self _ _))]
    exact foldl_electStep_of_byzantine acc nodes fun n hn => h n (List.mem_cons_of_mem _ hn)

variable {sha}

private theorem vrfScore_ne_nil (hsha : ∀ x, sha x ≠ []) (nonce : Bytes) (n : Node) : vrfScore sha nonce n ≠ [] := by
  rw [vrfScore, Ne, ← List.length_eq_zero, length_hexEncode]
  have := List.length_pos.2 (hsha (nonce ++ bytesOf "-" ++ bytesOf (toString n.id)))
  omega

private theorem foldl_electStep_spec (hsha : ∀ x, sha x ≠ []) (nonce : Bytes) (nodes : List Node) :
    ((nodes.foldl (electStep sha nonce) (none, [])).1 = none ↔ ∀ n ∈ nodes, n.byzantine) ∧
      ∀ leader, (nodes.foldl (electStep sha nonce) (none, [])).1 = some leader →
        leader ∈ nodes ∧ leader.byzantine = false ∧
          ∀ m ∈ nodes, m.byzantine = false → bytesLt (vrfScore sha nonce leader) (vrfScore sha nonce m) = false := by
  have H := (leads_nil sha nonce).foldl sha nodes
  rw [List.nil_append] at H
  refine ⟨⟨fun h n hn => ?_, fun h => by rw [foldl_electStep_of_byzantine sha _ nodes h]⟩, fun leader h => ?_⟩
  · by_contra hb
    have hs := H.highest n hn (by simpa using hb)
    obtain ⟨x, xs, hx⟩ := List.exists_cons_of_ne_nil (vrfScore_ne_nil hsha nonce n)
    rw [H.none_score h, hx] at hs
    exact absurd hs (by simp [bytesLt])
  · obtain ⟨hmem, hb, hs⟩ := H.leader leader h
    exact ⟨hmem, hb, fun m hm hh => hs ▸ H.highest m hm hh⟩

/-- The VRF election of `RunHybridConsensus`, with SHA-256 digests never empty. It finds no leader
exactly when every node is Byzantine; a leader is an honest node whose score no honest node's
exceeds; and when the honest nodes' scores differ, managers holding the same nodes in any order
elect the same leader. -/
theorem simulateVRFLeaderElection_spec (hsha : ∀ x, sha x ≠ []) (cm : ConsensusManager) (nonce : Bytes) :
    (cm.simulateVRFLeaderElection sha nonce = none ↔ ∀ n ∈ cm.bft.nodes, n.byzantine) ∧
      (∀ leader, cm.simulateVRFLeaderElection sha nonce = some leader →
        leader ∈ cm.bft.nodes ∧ leader.byzantine = false ∧ ∀ m ∈ cm.bft.nodes, m.byzantine = false →
          bytesLt (vrfScore sha nonce leader) (vrfScore sha nonce m) = false) ∧
      (((cm.bft.nodes.filter (!·.byzantine)).map (vrfScore sha nonce)).Nodup →
        ∀ cm' : ConsensusManager, cm'.bft.nodes.Perm cm.bft.nodes →
          cm'.simulateVRFLeaderElection sha nonce = cm.simulateVRFLeaderElection sha nonce) := by
  obtain ⟨hnone, hlead⟩ := foldl_electStep_spec hsha nonce cm.bft.nodes
  refine ⟨hnone, hlead, fun hnd cm' hp => ?_⟩
  obtain ⟨hnone', hlead'⟩ := foldl_electStep_spec hsha nonce cm'.bft.nodes
  unfold ConsensusManager.simulateVRFLeaderElection
  cases h : (cm.bft.nodes.foldl (electStep sha nonce) (none, [])).1 with
  | none => exact hnone'.2 fun n hn => hnone.1 h n (hp.mem_iff.1 hn)
  | some n =>
    cases h' : (cm'.bft.nodes.foldl (electStep sha nonce) (none, [])).1 with
    | none => exact absurd (hnone.2 fun m hm => hnone'.1 h' m (hp.mem_iff.2 hm)) (by simp [h])
    | some n' =>
      obtain ⟨hm, hb, hmax⟩ := hlead n h
      obtain ⟨hm', hb', hmax'⟩ := hlead' n' h'
      -- two leaders that do not outscore each other have one score, hence are one node
      have heq : vrfScore sha nonce n' = vrfScore sha nonce n := by
        by_contra hne
        rcases bytesLt_total hne with hlt | hlt
        · exact absurd hlt (by simp [hmax' n (hp.mem_iff.2 hm) hb])
        · exact absurd hlt (by simp [hmax n' (hp.mem_iff.1 hm') hb'])
      rw [List.inj_on_of_nodup_map hnd (List.mem_filter.2 ⟨hp.mem_iff.1 hm', by simp [hb']⟩)
        (List.mem_filter.2 ⟨hm, by simp [hb]⟩) heq]

end

/-- Three nodes, the middle one Byzantine. -/
def threeNodes : ConsensusManager := ⟨⟨[⟨0, 1, false⟩, ⟨1, 1, true⟩, ⟨2, 1, false⟩]⟩⟩

/-- A digest that is never empty. -/
def zeroPrefix (x : Bytes) : Bytes := 0 :: x

theorem simulateVRFLeaderElection_spec_three :
    (∀ x, zeroPrefix x ≠ []) ∧
      threeNodes.simulateVRFLeaderElection zeroPrefix [] = some ⟨2, 1, false⟩ ∧
      ((threeNodes.bft.nodes.filter (!·.byzantine)).map (vrfScore zeroPrefix [])).Nodup ∧
      (threeNodes.simulateVRFLeaderElection zeroPrefix [] = none ↔ ∀ n ∈ threeNodes.bft.nodes, n.byzantine) ∧
      (∀ leader, threeNodes.simulateVRFLeaderElection zeroPrefix [] = some leader →
        leader ∈ threeNodes.bft.nodes ∧ leader.byzantine = false ∧ ∀ m ∈ threeNodes.bft.nodes,
          m.byzantine = false → bytesLt (vrfScore zeroPrefix [] leader) (vrfScore zeroPrefix [] m) = false) ∧
      (((threeNodes.bft.nodes.filter (!·.byzantine)).map (vrfScore zeroPrefix [])).Nodup →
        ∀ cm' : ConsensusManager, cm'.bft.nodes.Perm threeNodes.bft.nodes →
          cm'.simulateVRFLeaderElection zeroPrefix [] = threeNodes.simulateVRFLeaderElection zeroPrefix []) :=
  have hsha : ∀ x, zeroPrefix x ≠ [] := fun x => List.cons_ne_nil 0 x
  ⟨hsha, by decide, by decide, simulateVRFLeaderElection_spec hsha _ _⟩

end ShardedLedger.Consensus
