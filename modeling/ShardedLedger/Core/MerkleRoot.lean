import ShardedLedger.Core.MerkleTree

/-! What the root of merkle_tree.go commits to, and how it is built. No data is bound across list
lengths: the root of no data is the hash of the empty string, which is also the leaf of `[""]`, and
a single data string can spell the two leaf digests of a pair. Among lists of one length the root
binds the list, for a SHA-256 that is injective and whose digests are never a proper prefix of one
another, as digests of one length are not. The root is the reference level-by-level construction with
an unpaired last node hashed alone, where a textbook tree promotes it unchanged. -/

namespace ShardedLedger.Core

/-! ### Hex digests -/

private theorem prefix_of_prefix_hexEncode : ∀ {a b : Bytes}, hexEncode a <+: hexEncode b → a <+: b
  | [], _, _ => List.nil_prefix
  | x :: a, [], h => by simpa [hexEncode] using h.length_le
  | x :: a, y :: b, h => by
    rw [hexEncode_cons, hexEncode_cons y] at h
    obtain ⟨t, ht⟩ := h
    rw [List.append_assoc] at ht
    obtain ⟨hxy, hab⟩ := List.append_inj ht (by simp [hexEncode])
    obtain ⟨rfl⟩ := List.singleton_inj.1 (hexEncode_injective hxy)
    exact (List.prefix_cons_inj x).2 (prefix_of_prefix_hexEncode ⟨t, hab⟩)

section
variable (sha : Bytes → Bytes)

/-- No digest is a proper prefix of another, as no two digests of one length are. -/
def PrefixFree : Prop := ∀ m₁ m₂, sha m₁ <+: sha m₂ → sha m₁ = sha m₂

/-- A node of a level: the hex digest of some message. -/
def IsDigest (x : Bytes) : Prop := ∃ m, x = hexEncode (sha m)

variable {sha}

private theorem digest_append_inj (hinj : Function.Injective sha) (hpre : PrefixFree sha) {x x' y y' : Bytes}
    (hx : IsDigest sha x) (hx' : IsDigest sha x') (h : x ++ y = x' ++ y') : x = x' := by
  obtain ⟨m, rfl⟩ := hx
  obtain ⟨m', rfl⟩ := hx'
  rcases List.prefix_or_prefix_of_prefix (List.prefix_append _ y) (h ▸ List.prefix_append _ y') with hp | hp
  · rw [hinj (hpre m m' (prefix_of_prefix_hexEncode hp))]
  · rw [hinj (hpre m' m (prefix_of_prefix_hexEncode hp))]

private theorem isDigest_of_mem_parents {l : List Bytes} {x : Bytes} (hx : x ∈ parents sha l) : IsDigest sha x := by
  induction l using parents.induct sha with
  | case1 a b rest ih =>
    rcases List.mem_cons.1 hx with rfl | hx
    · exact ⟨_, rfl⟩
    · exact ih hx
  | case2 a => exact ⟨a, List.mem_singleton.1 hx⟩
  | case3 => exact absurd hx (List.not_mem_nil x)

private theorem parents_inj (hinj : Function.Injective sha) (hpre : PrefixFree sha) :
    ∀ l₁ l₂ : List Bytes, l₁.length = l₂.length → (∀ x ∈ l₁, IsDigest sha x) →
      (∀ x ∈ l₂, IsDigest sha x) → parents sha l₁ = parents sha l₂ → l₁ = l₂
  | [], [], _, _, _, _ => rfl
  | [a], [a'], _, _, _, h => by
    rw [hinj (hexEncode_injective (List.singleton_inj.1 h))]
  | a :: b :: r, a' :: b' :: r', hl, h₁, h₂, h => by
    simp only [parents, List.cons.injEq] at h
    have hab := hinj (hexEncode_injective h.1)
    have ha := digest_append_inj hinj hpre (h₁ a (by simp)) (h₂ a' (by simp)) hab
    subst ha
    rw [List.append_cancel_left hab, parents_inj hinj hpre r r' (by simpa using hl)
      (fun x hx => h₁ x (by simp [hx])) (fun x hx => h₂ x (by simp [hx])) h.2]
  | [], _ :: _, hl, _, _, _ | _ :: _, [], hl, _, _, _ | [_], _ :: _ :: _, hl, _, _, _
  | _ :: _ :: _, [_], hl, _, _, _ => by simp at hl

private theorem buildMerkleTreeFrom_inj (hinj : Function.Injective sha) (hpre : PrefixFree sha) :
    ∀ (fuel : Nat) (l₁ l₂ : List Bytes), l₁.length = l₂.length → l₁.length ≤ fuel →
      (∀ x ∈ l₁, IsDigest sha x) → (∀ x ∈ l₂, IsDigest sha x) →
      buildMerkleTreeFrom sha fuel l₁ = buildMerkleTreeFrom sha fuel l₂ → l₁ = l₂
  | _, [], [], _, _, _, _, _ => rfl
  | _, [a], [a'], _, _, _, _, h => by simpa [buildMerkleTreeFrom] using h
  | 0, _ :: _ :: _, _, _, hf, _, _, _ => by simp at hf
  | fuel + 1, a :: b :: r, a' :: b' :: r', hl, hf, h₁, h₂, h => by
    have hp₁ := length_parents sha (a :: b :: r)
    have hp₂ := length_parents sha (a' :: b' :: r')
    simp only [List.length_cons] at hl hf hp₁ hp₂
    rw [buildMerkleTreeFrom, buildMerkleTreeFrom] at h
    exact parents_inj hinj hpre _ _ (by simpa using hl) h₁ h₂
      (buildMerkleTreeFrom_inj hinj hpre fuel _ _ (by omega) (by omega)
        (fun _ => isDigest_of_mem_parents) (fun _ => isDigest_of_mem_parents) h)
  | _, [], _ :: _, hl, _, _, _, _ | _, _ :: _, [], hl, _, _, _, _
  | _, [_], _ :: _ :: _, hl, _, _, _, _ | _ + 1, _ :: _ :: _, [_], hl, _, _, _, _ => by simp at hl

private theorem isDigest_of_mem_leaves {l : List Bytes} {x : Bytes} (hx : x ∈ l.map fun d => hexEncode (sha d)) :
    IsDigest sha x :=
  let ⟨d, _, e⟩ := List.mem_map.1 hx
  ⟨d, e.symm⟩

/-- The root binds the data among lists of one length, for an injective SHA-256 whose digests are
never a proper prefix of one another. -/
theorem newMerkleTree_root_injective (hinj : Function.Injective sha) (hpre : PrefixFree sha)
    {xs ys : List Bytes} (hl : xs.length = ys.length)
    (h : (newMerkleTree sha xs).root = (newMerkleTree sha ys).root) : xs = ys := by
  match xs, ys, hl, h with
  | [], [], _, _ => rfl
  | x :: xs, y :: ys, hl, h =>
    have hlen : ((x :: xs).map fun d => hexEncode (sha d)).length =
        ((y :: ys).map fun d => hexEncode (sha d)).length := by simpa using hl
    have hroot : buildMerkleTree sha ((x :: xs).map fun d => hexEncode (sha d)) =
        buildMerkleTree sha ((y :: ys).map fun d => hexEncode (sha d)) := h
    rw [buildMerkleTree, buildMerkleTree, ← hlen] at hroot
    exact List.map_injective_iff.2 (hexEncode_injective.comp hinj)
      (buildMerkleTreeFrom_inj hinj hpre _ _ _ hlen le_rfl (fun _ => isDigest_of_mem_leaves)
        (fun _ => isDigest_of_mem_leaves) hroot)
  | [], _ :: _, hl, _ | _ :: _, [], hl, _ => simp at hl

end

/-- The root of no data is the leaf of one empty string: no hash binds the data. -/
theorem merkle_root_empty_collides :
    ¬ ∃ sha : Bytes → Bytes, ∀ xs ys : List Bytes,
      (newMerkleTree sha xs).root = (newMerkleTree sha ys).root → xs = ys := by
  rintro ⟨sha, h⟩
  exact absurd (h [] [[]] (by simp [newMerkleTree, buildMerkleTree, buildMerkleTreeFrom])) (by simp)

/-- A prefix-free injective code standing in for SHA-256 in the runs below: each byte marked by a
`1`, then a `0` to end. -/
def markedBytes (m : Bytes) : Bytes := m.flatMap (fun b => [1, b]) ++ [0]

private theorem eq_of_prefix_markedBytes : ∀ {m₁ m₂ : Bytes}, markedBytes m₁ <+: markedBytes m₂ → m₁ = m₂
  | [], [], _ => rfl
  | [], _ :: _, h => by simp [markedBytes] at h
  | _ :: _, [], h => by simpa [markedBytes] using h.length_le
  | b :: m₁, c :: m₂, h => by
    simp only [markedBytes, List.flatMap_cons, List.cons_append, List.nil_append, List.prefix_cons_inj] at h
    obtain ⟨t, ht⟩ := h
    simp only [List.cons_append, List.cons.injEq] at ht
    obtain ⟨rfl, ht⟩ := ht
    exact congrArg _ (eq_of_prefix_markedBytes (show markedBytes m₁ <+: markedBytes m₂ from
      ⟨t, by simpa [markedBytes] using ht⟩))

private theorem markedBytes_injective : Function.Injective markedBytes :=
  fun _ _ h => eq_of_prefix_markedBytes (h ▸ List.prefix_refl _)

private theorem prefixFree_markedBytes : PrefixFree markedBytes :=
  fun _ _ h => congrArg markedBytes (eq_of_prefix_markedBytes h)

theorem newMerkleTree_root_injective_marked :
    Function.Injective markedBytes ∧ PrefixFree markedBytes ∧
      ([[1], [2]] : List Bytes).length = ([[1], [2]] : List Bytes).length ∧
      (newMerkleTree markedBytes [[1], [2]]).root = (newMerkleTree markedBytes [[1], [2]]).root ∧
      ([[1], [2]] : List Bytes) = [[1], [2]] :=
  ⟨markedBytes_injective, prefixFree_markedBytes, rfl, rfl,
    @newMerkleTree_root_injective markedBytes markedBytes_injective prefixFree_markedBytes
      [[1], [2]] [[1], [2]] rfl rfl⟩

/-! ### The reference construction -/

section
variable (sha : Bytes → Bytes)

/-- One level of the reference construction: each adjacent pair `(x, y)` replaced by the
hex SHA-256 of `x ++ y`, and a final unpaired node by `lone` of it. -/
def referenceLevel (lone : Bytes → Bytes) : List Bytes → List Bytes
  | x :: y :: rest => hexEncode (sha (x ++ y)) :: referenceLevel lone rest
  | [x] => [lone x]
  | [] => []

private theorem length_referenceLevel (lone : Bytes → Bytes) : ∀ l : List Bytes,
    (referenceLevel sha lone l).length = (l.length + 1) / 2
  | _ :: _ :: rest => by simp [referenceLevel, length_referenceLevel lone rest]; omega
  | [_] => by simp [referenceLevel]
  | [] => rfl

/-- The levels repeated until one node remains; no data has no root, here `[]`. -/
def referenceReduce (lone : Bytes → Bytes) : List Bytes → Bytes
  | [] => []
  | [x] => x
  | x :: y :: rest => referenceReduce lone (referenceLevel sha lone (x :: y :: rest))
termination_by l => l.length
decreasing_by simp only [length_referenceLevel, List.length_cons]; omega

/-- The reference root of `data`: its hex leaf digests reduced level by level. -/
def referenceRoot (lone : Bytes → Bytes) (data : List Bytes) : Bytes :=
  referenceReduce sha lone (data.map fun d => hexEncode (sha d))

private theorem parents_eq_referenceLevel :
    ∀ l : List Bytes, parents sha l = referenceLevel sha (fun x => hexEncode (sha x)) l
  | _ :: _ :: rest => by simp [parents, referenceLevel, parents_eq_referenceLevel rest]
  | [_] => rfl
  | [] => rfl

private theorem buildMerkleTreeFrom_eq_referenceReduce :
    ∀ (fuel : Nat) (l : List Bytes), l ≠ [] → l.length ≤ fuel →
      buildMerkleTreeFrom sha fuel l = referenceReduce sha (fun x => hexEncode (sha x)) l
  | _, [x], _, _ => by simp [buildMerkleTreeFrom, referenceReduce]
  | 0, _ :: _ :: _, _, hf => by simp at hf
  | fuel + 1, a :: b :: rest, _, hf => by
    have hp := length_parents sha (a :: b :: rest)
    simp only [List.length_cons] at hf hp
    rw [buildMerkleTreeFrom, referenceReduce, ← parents_eq_referenceLevel,
      buildMerkleTreeFrom_eq_referenceReduce fuel _ (by simp [parents]) (by omega)]
  | _, [], h, _ => absurd rfl h

/-- The root of non-empty data is the reference root, with an unpaired last node hashed
alone at each level. -/
theorem newMerkleTree_root_eq_reference (data : List Bytes) (h : data ≠ []) :
    (newMerkleTree sha data).root = referenceRoot sha (fun x => hexEncode (sha x)) data := by
  obtain ⟨d, ds, rfl⟩ := List.exists_cons_of_ne_nil h
  exact buildMerkleTreeFrom_eq_referenceReduce sha _ _ (List.cons_ne_nil _ _) le_rfl

theorem newMerkleTree_root_eq_reference_three :
    ([[1], [2], [3]] : List Bytes) ≠ [] ∧
      (newMerkleTree id [[1], [2], [3]]).root = referenceRoot id (fun x => hexEncode (id x)) [[1], [2], [3]] :=
  ⟨List.cons_ne_nil _ _, newMerkleTree_root_eq_reference id [[1], [2], [3]] (List.cons_ne_nil _ _)⟩

end

/-- Promoting an unpaired node unchanged gives another root, for every injective SHA-256: three
copies of one string differ at the second level, where the code hashes the third leaf again. -/
theorem merkle_root_hashes_lone_node :
    ¬ ∃ sha : Bytes → Bytes, Function.Injective sha ∧
      ∀ data : List Bytes, data ≠ [] → (newMerkleTree sha data).root = referenceRoot sha id data := by
  rintro ⟨sha, hinj, h⟩
  have e := h [[0], [0], [0]] (by simp)
  simp only [newMerkleTree, buildMerkleTree, referenceRoot, List.map_cons, List.map_nil, List.length_cons,
    List.length_nil, buildMerkleTreeFrom, parents, referenceReduce, referenceLevel, id] at e
  have e₁ := List.append_cancel_left (hinj (hexEncode_injective e))
  have e₂ := congrArg List.length (hinj (hexEncode_injective e₁))
  rw [length_hexEncode, List.length_singleton] at e₂
  omega

end ShardedLedger.Core
